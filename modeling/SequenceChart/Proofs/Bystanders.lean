import SequenceChart.Proofs.ProjectionShape
import SequenceChart.Proofs.WellFormed

/-!
# Lifelines that no fragment names

A lifeline that no fragment names still meets the others at par and until fragments, and it
goes through the loops, branches and timers around these.  It sees something only where all
other lifelines do.  So all that it has to work out has been worked out for them as well, and
it meets no fault if none of them does.

Its projections are compared with theirs step by step, as attempts are built.
-/

namespace SequenceChart

namespace Setting

/-- If all lifelines come to a value, the bystander does, and theirs cover its own. -/
def Accompanies {α : Type} (setting : Setting) (covers : α → α → Prop) (own : Attempt α)
    (theirs : ActorId → Attempt α) : Prop :=
  ∀ others : ActorId → α,
    (∀ actor ∈ setting.lifelines, (theirs actor).result = .ok (others actor)) →
    ∃ value, own.result = .ok value ∧
      ∀ actor ∈ setting.lifelines, covers value (others actor)

variable {setting : Setting}

private theorem accompanies_pure {α : Type} {covers : α → α → Prop} {value : α}
    {theirs : ActorId → Attempt α}
    (covered : ∀ actor ∈ setting.lifelines, ∀ other, (theirs actor).result = .ok other →
      covers value other) :
    setting.Accompanies covers (pure value) theirs := by
  intro others done
  exact ⟨value, rfl, fun actor isLifeline => covered actor isLifeline _ (done actor isLifeline)⟩

/-- What is the same for everyone. -/
theorem accompanies_same {α : Type} {covers : α → α → Prop}
    (reflexive : ∀ value, covers value value) (nonempty : setting.lifelines ≠ [])
    (work : Attempt α) :
    setting.Accompanies covers work fun _ => work := by
  intro others done
  obtain ⟨first, isFirst⟩ := List.exists_mem_of_ne_nil _ nonempty
  refine ⟨others first, done first isFirst, ?_⟩
  intro actor isLifeline
  have same := Except.ok.inj ((done first isFirst).symm.trans (done actor isLifeline))
  exact same ▸ reflexive _

theorem Accompanies.congr {α : Type} {covers : α → α → Prop} {own : Attempt α}
    {theirs others : ActorId → Attempt α} (accompanies : setting.Accompanies covers own theirs)
    (same : ∀ actor ∈ setting.lifelines, others actor = theirs actor) :
    setting.Accompanies covers own others := by
  intro values done
  refine accompanies values fun actor isLifeline => ?_
  rw [← same actor isLifeline]
  exact done actor isLifeline

theorem Accompanies.bind {α β : Type} [Nonempty α] {covers : α → α → Prop}
    {coversNext : β → β → Prop} {own : Attempt α} {theirs : ActorId → Attempt α}
    {next : α → Attempt β} {nexts : ActorId → α → Attempt β}
    (first : setting.Accompanies covers own theirs)
    (later : ∀ value (others : ActorId → α),
      (∀ actor ∈ setting.lifelines, covers value (others actor)) →
      setting.Accompanies coversNext (next value) fun actor => nexts actor (others actor)) :
    setting.Accompanies coversNext (own >>= next) fun actor => theirs actor >>= nexts actor := by
  intro results done
  have split : ∀ actor ∈ setting.lifelines, ∃ middle, (theirs actor).result = .ok middle ∧
      (nexts actor middle).result = .ok (results actor) :=
    fun actor isLifeline => Attempt.result_bind_eq_ok_iff.mp (done actor isLifeline)
  choose! others firstDone nextDone using split
  obtain ⟨value, ownDone, covered⟩ := first others firstDone
  obtain ⟨result, resultDone, resultCovered⟩ := later value others covered results nextDone
  exact ⟨result, Attempt.result_bind_eq_ok_iff.mpr ⟨value, ownDone, resultDone⟩, resultCovered⟩

/-- A first step that is the same for everyone. -/
theorem accompanies_same_bind {α β : Type} {covers : β → β → Prop}
    (nonempty : setting.lifelines ≠ []) {work : Attempt α}
    {next : α → Attempt β} {nexts : ActorId → α → Attempt β}
    (later : ∀ value, setting.Accompanies covers (next value) fun actor => nexts actor value) :
    setting.Accompanies covers (work >>= next) fun actor => work >>= nexts actor := by
  intro results done
  obtain ⟨first, isFirst⟩ := List.exists_mem_of_ne_nil _ nonempty
  obtain ⟨value, workDone, _⟩ := Attempt.result_bind_eq_ok_iff.mp (done first isFirst)
  have nextDone : ∀ actor ∈ setting.lifelines,
      (nexts actor value).result = .ok (results actor) := by
    intro actor isLifeline
    obtain ⟨other, sameWork, nextDone⟩ := Attempt.result_bind_eq_ok_iff.mp (done actor isLifeline)
    cases workDone.symm.trans sameWork
    exact nextDone
  obtain ⟨result, resultDone, covered⟩ := later value results nextDone
  exact ⟨result, Attempt.result_bind_eq_ok_iff.mpr ⟨value, workDone, resultDone⟩, covered⟩

private theorem accompanies_mapM {ι α : Type} [Nonempty α] {covers : α → α → Prop}
    {own : ι → Attempt α}
    {theirs : ActorId → ι → Attempt α} {items : List ι}
    (each : ∀ item ∈ items,
      setting.Accompanies covers (own item) fun actor => theirs actor item) :
    setting.Accompanies (List.Forall₂ covers) (items.mapM own)
      fun actor => items.mapM (theirs actor) := by
  induction items with
  | nil =>
      refine accompanies_pure fun actor _ other done => ?_
      cases done
      exact .nil
  | cons item rest inductionHypothesis =>
      have first := each item List.mem_cons_self
      have others := inductionHypothesis fun other member =>
        each other (List.mem_cons_of_mem item member)
      simp only [List.mapM_cons]
      refine first.bind fun value values covered => ?_
      refine others.bind fun more moreValues moreCovered => ?_
      refine accompanies_pure fun actor isLifeline _ done => ?_
      cases done
      exact .cons (covered actor isLifeline) (moreCovered actor isLifeline)

end Setting

/-! ## What a bystander sees -/

private theorem exists_mem_ne {lifelines : List ActorId} (several : 2 ≤ lifelines.length)
    (distinct : lifelines.Nodup) (owner : ActorId) : ∃ actor ∈ lifelines, actor ≠ owner := by
  match lifelines, several, distinct with
  | first :: next :: _, _, distinct =>
      by_cases isOwner : first = owner
      · refine ⟨next, by simp, ?_⟩
        rintro rfl
        simp [isOwner] at distinct
      · exact ⟨first, by simp, isOwner⟩

/-- Something is seen on the right if it is on the left. -/
def SeenToo (one other : Option Behaviour) : Prop :=
  one.isSome = true → other.isSome = true

theorem seenToo_none (other : Option Behaviour) : SeenToo none other :=
  nofun

theorem SeenToo.exists_eq_some {inner : Behaviour} {other : Option Behaviour}
    (seen : SeenToo (some inner) other) : ∃ inner, other = some inner :=
  Option.isSome_iff_exists.mp (seen rfl)

def aroundSeen (work : Behaviour → Attempt Behaviour) :
    Option Behaviour → Attempt (Option Behaviour)
  | none => return none
  | some inner => do
      let behaviour ← work inner
      return some behaviour

namespace Fragment

variable (setting : Setting) (view : Viewpoint)

private theorem project_loop (bound : Option Bound) (body : Fragment) :
    (loop bound body).project setting view =
      body.project setting view >>= aroundSeen (setting.projectLoop bound) := by
  rw [project]
  rfl

private theorem project_critical (id : FragmentId) (body : Fragment) :
    (critical id body).project setting view = body.project setting view >>=
      aroundSeen fun _ => setting.unsupported id "critical region" := by
  rw [project]
  rfl

private theorem project_duration (owner : ActorId) (bound : Bound) (body : Fragment) :
    (duration owner bound body).project setting view =
      body.project setting view >>= fun inner => setting.timedBody view owner inner >>=
        aroundSeen (setting.projectDuration view owner bound) := by
  rw [project]
  rfl

private theorem project_deadline (owner : ActorId) (units : ExpressionId) (body : Fragment) :
    (deadline owner units body).project setting view =
      body.project setting view >>= fun inner => setting.timedBody view owner inner >>=
        aroundSeen (setting.projectDeadline view owner units) := by
  rw [project]
  rfl

theorem project_operand_some (condition : ExpressionId) (fragments : List Fragment) :
    (operand (some condition) fragments).project setting view =
      inSequence (projections setting view fragments) >>=
        aroundSeen (setting.projectGuarded condition) := by
  rw [project]
  congr 1
  funext seen
  cases seen <;> rfl

end Fragment

/-- Whether the work succeeds must not depend on what was seen. -/
theorem Setting.accompanies_aroundSeen {setting : Setting} {seen : Option Behaviour}
    {others : ActorId → Option Behaviour} {work : Behaviour → Attempt Behaviour}
    {works : ActorId → Behaviour → Attempt Behaviour}
    (seenToo : ∀ actor ∈ setting.lifelines, SeenToo seen (others actor))
    (each : ∀ inner (inners : ActorId → Behaviour), setting.Accompanies (fun _ _ => True)
      (work inner) fun actor => works actor (inners actor)) :
    setting.Accompanies SeenToo (aroundSeen work seen)
      fun actor => aroundSeen (works actor) (others actor) := by
  cases seen with
  | none =>
      exact accompanies_pure fun _ _ other _ => seenToo_none other
  | some inner =>
      have nonempty : Nonempty Behaviour := ⟨.skip⟩
      have allSeen : ∀ actor ∈ setting.lifelines, ∃ inner, others actor = some inner :=
        fun actor isLifeline => (seenToo actor isLifeline).exists_eq_some
      choose! inners isInner using allSeen
      refine ((each inner inners).bind fun behaviour behaviours _ => ?_).congr
        fun actor isLifeline => congrArg (aroundSeen (works actor)) (isInner actor isLifeline)
      refine accompanies_pure fun actor _ other done => ?_
      cases done
      exact fun _ => rfl

namespace Fragment

/-- The actor sees something of the fragment only where all lifelines do. -/
def JoinedBy (setting : Setting) (actor : ActorId) (fragment : Fragment) : Prop :=
  setting.Accompanies SeenToo (fragment.project setting (.lifeline actor))
    fun other => fragment.project setting (.lifeline other)

variable {setting : Setting} {bystander : ActorId}

private theorem joinedBy_of_unseen {fragment : Fragment}
    (unseen : fragment.project setting (.lifeline bystander) = pure none) :
    fragment.JoinedBy setting bystander := by
  rw [JoinedBy, unseen]
  exact Setting.accompanies_pure fun _ _ other _ => seenToo_none other

theorem JoinedBy.deferred {content : Unit → Fragment}
    (joined : (content ()).JoinedBy setting bystander) :
    (Fragment.deferred content).JoinedBy setting bystander := by
  unfold JoinedBy at joined ⊢
  simp only [project]
  exact joined

private theorem joinedBy_unresolved (nonempty : setting.lifelines ≠ []) (fault : Fault) :
    (Fragment.unresolved fault).JoinedBy setting bystander := by
  unfold JoinedBy
  simp only [project]
  exact Setting.accompanies_same (fun _ seen => seen) nonempty _

private theorem joinedBy_until (nonempty : setting.lifelines ≠ []) (id : FragmentId)
    (intra : MessageSet) (body : Fragment) :
    (Fragment.until id intra body).JoinedBy setting bystander := by
  unfold JoinedBy
  simp only [project]
  exact Setting.accompanies_same (fun _ seen => seen) nonempty _

theorem JoinedBy.loop {body : Fragment} (joined : body.JoinedBy setting bystander)
    (nonempty : setting.lifelines ≠ []) (bound : Option Bound) :
    (Fragment.loop bound body).JoinedBy setting bystander := by
  unfold JoinedBy
  simp only [project_loop]
  refine joined.bind fun seen others seenToo =>
    Setting.accompanies_aroundSeen seenToo fun inner inners => ?_
  refine Setting.accompanies_same_bind nonempty fun loads => ?_
  refine Setting.accompanies_same_bind nonempty fun header => ?_
  exact Setting.accompanies_pure fun _ _ _ _ => trivial

theorem JoinedBy.critical {body : Fragment} (joined : body.JoinedBy setting bystander)
    (nonempty : setting.lifelines ≠ []) (id : FragmentId) :
    (Fragment.critical id body).JoinedBy setting bystander := by
  unfold JoinedBy
  simp only [project_critical]
  refine joined.bind fun seen others seenToo =>
    Setting.accompanies_aroundSeen seenToo fun inner inners => ?_
  exact Setting.accompanies_same (fun _ => trivial) nonempty _

/-- Someone else's timer passes on what is inside. -/
theorem timedBody_of_notFor {view : Viewpoint} {owner : ActorId}
    (other : view.isFor owner = false) (body : Option Behaviour) :
    setting.timedBody view owner body = pure body := by
  cases body with
  | none =>
      rw [Setting.timedBody, other]
      rfl
  | some behaviour =>
      rfl

/-- A timer shows something of a body of which something is seen. -/
theorem seenToo_timedBody {view : Viewpoint} {owner : ActorId} {inner seen : Option Behaviour}
    {work : Behaviour → Attempt Behaviour}
    (done : (setting.timedBody view owner inner >>= aroundSeen work).result = .ok seen) :
    SeenToo inner seen := by
  obtain ⟨timed, isTimed, last⟩ := Attempt.result_bind_eq_ok_iff.mp done
  intro isSome
  obtain ⟨behaviour, rfl⟩ := Option.isSome_iff_exists.mp isSome
  cases isTimed
  obtain ⟨_, _, last⟩ := Attempt.result_bind_eq_ok_iff.mp last
  cases last
  rfl

theorem JoinedBy.duration {body : Fragment} (joined : body.JoinedBy setting bystander)
    {owner : ActorId} (other : bystander ≠ owner) (bound : Bound) :
    (Fragment.duration owner bound body).JoinedBy setting bystander := by
  have notFor : (Viewpoint.lifeline bystander).isFor owner = false := decide_eq_false other
  unfold JoinedBy
  simp only [project_duration]
  refine joined.bind fun seen others seenToo => ?_
  have own : aroundSeen (setting.projectDuration (.lifeline bystander) owner bound) seen =
      pure seen := by
    cases seen with
    | none =>
        rfl
    | some inner =>
        simp only [aroundSeen, Setting.projectDuration, notFor]
        rfl
  rw [timedBody_of_notFor notFor, pure_bind, own]
  exact Setting.accompanies_pure fun actor isLifeline _ done isSome =>
    seenToo_timedBody done (seenToo actor isLifeline isSome)

/-- Among several lifelines, someone else's deadline is a remark that names its owner. -/
theorem projectDeadline_of_notFor {view : Viewpoint} {owner : ActorId} {units : ExpressionId}
    (several : 2 ≤ setting.lifelines.length) (notFor : view.isFor owner = false)
    (body : Behaviour) :
    setting.projectDeadline view owner units body = do
      let found ← setting.specification.actor owner
      return .remarked ("deadline on " ++ found.name) body := by
  have many : ¬ setting.interaction.lifelines.length ≤ 1 := Nat.not_le.mpr several
  simp only [Setting.projectDeadline, Specification.deadlineHeader, notFor, many]
  cases setting.specification.actor owner <;> rfl

theorem JoinedBy.deadline {body : Fragment} (joined : body.JoinedBy setting bystander)
    {owner : ActorId} (several : 2 ≤ setting.lifelines.length)
    (distinct : setting.lifelines.Nodup) (other : bystander ≠ owner) (units : ExpressionId) :
    (Fragment.deadline owner units body).JoinedBy setting bystander := by
  have notFor : (Viewpoint.lifeline bystander).isFor owner = false := decide_eq_false other
  unfold JoinedBy
  simp only [project_deadline]
  refine joined.bind fun seen others seenToo => ?_
  rw [timedBody_of_notFor notFor, pure_bind]
  intro results done
  have covered : ∀ actor ∈ setting.lifelines, SeenToo seen (results actor) :=
    fun actor isLifeline isSome =>
      seenToo_timedBody (done actor isLifeline) (seenToo actor isLifeline isSome)
  cases seen with
  | none =>
      exact ⟨none, rfl, covered⟩
  | some inner =>
      -- A lifeline that does not own the deadline has looked up its owner as well.
      obtain ⟨witness, isLifeline, apart⟩ := exists_mem_ne several distinct owner
      have witnessNotFor : (Viewpoint.lifeline witness).isFor owner = false :=
        decide_eq_false apart
      obtain ⟨behaviour, isSome⟩ := (seenToo witness isLifeline).exists_eq_some
      have theirs : (setting.timedBody (.lifeline witness) owner (others witness) >>=
          aroundSeen (setting.projectDeadline (.lifeline witness) owner units)).result =
            .ok (results witness) := done witness isLifeline
      rw [timedBody_of_notFor witnessNotFor, pure_bind, isSome, aroundSeen,
        projectDeadline_of_notFor several witnessNotFor] at theirs
      obtain ⟨_, remarked, _⟩ := Attempt.result_bind_eq_ok_iff.mp theirs
      obtain ⟨found, isFound, _⟩ := Attempt.result_bind_eq_ok_iff.mp remarked
      have isFound : setting.specification.actor owner = .ok found := isFound
      refine ⟨some (.remarked ("deadline on " ++ found.name) inner), ?_,
        fun actor isLifeline _ => covered actor isLifeline rfl⟩
      rw [aroundSeen, projectDeadline_of_notFor several notFor, isFound]
      rfl

/-- Several fragments in turn. -/
theorem accompanies_inTurn {fragments : List Fragment}
    (each : ∀ fragment ∈ fragments, fragment.JoinedBy setting bystander) :
    setting.Accompanies (List.Forall₂ SeenToo)
      (inTurn (projections setting (.lifeline bystander) fragments))
      fun actor => inTurn (projections setting (.lifeline actor) fragments) := by
  simp only [inTurn_projections]
  exact Setting.accompanies_mapM each

private theorem exists_isSome_of_forall₂ {seen others : List (Option Behaviour)}
    (related : List.Forall₂ SeenToo seen others) (someone : ∃ part ∈ seen, part.isSome = true) :
    ∃ part ∈ others, part.isSome = true := by
  obtain ⟨part, isPart, isSome⟩ := someone
  obtain ⟨other, isOther, seenToo⟩ := exists_right_of_mem related isPart
  exact ⟨other, isOther, seenToo isSome⟩

private theorem joinedBy_par {operands : List Fragment} (nonempty : setting.lifelines ≠ [])
    (each : ∀ operand ∈ operands, operand.JoinedBy setting bystander) (id : FragmentId) :
    (Fragment.par id operands).JoinedBy setting bystander := by
  unfold JoinedBy
  simp only [project]
  refine (accompanies_inTurn each).bind fun arms others related => ?_
  have sameMeeting : ∀ actor, setting.meetsAt (.lifeline actor) .par =
      setting.meetsAt (.lifeline bystander) .par := fun _ => rfl
  cases meets : setting.meetsAt (.lifeline bystander) .par with
  | true =>
      simp only [Setting.projectPar, sameMeeting, meets, if_true]
      refine Setting.accompanies_same_bind nonempty fun enter => ?_
      refine Setting.accompanies_same_bind nonempty fun leave => ?_
      refine Setting.accompanies_pure fun _ _ _ done => ?_
      cases done
      exact fun _ => rfl
  | false =>
      simp only [Setting.projectPar, sameMeeting, meets, Bool.false_eq_true, if_false]
      by_cases nothing : arms.all Option.isNone = true
      · rw [if_pos nothing]
        exact Setting.accompanies_pure fun _ _ other _ => seenToo_none other
      · rw [if_neg nothing]
        refine Setting.accompanies_pure fun actor isLifeline _ done _ => ?_
        have someone : ∃ part ∈ arms, part.isSome = true := by
          simpa [Option.isSome_iff_ne_none] using nothing
        have someoneElse := exists_isSome_of_forall₂ (related actor isLifeline) someone
        have something : ¬ (others actor).all Option.isNone = true := by
          simpa [Option.isSome_iff_ne_none] using someoneElse
        rw [if_neg something] at done
        cases done
        rfl

private theorem seenToo_sequenceOf {parts others : List (Option Behaviour)}
    (related : List.Forall₂ SeenToo parts others) :
    SeenToo (sequenceOf parts) (sequenceOf others) := by
  intro isSome
  rw [Option.isSome_iff_ne_none, Ne, sequenceOf_eq_none_iff] at isSome ⊢
  simpa [Option.isSome_iff_ne_none] using
    exists_isSome_of_forall₂ related (by simpa [Option.isSome_iff_ne_none] using isSome)

/-- Several fragments in sequence. -/
theorem accompanies_inSequence {fragments : List Fragment}
    (each : ∀ fragment ∈ fragments, fragment.JoinedBy setting bystander) :
    setting.Accompanies SeenToo
      (inSequence (projections setting (.lifeline bystander) fragments))
      fun actor => inSequence (projections setting (.lifeline actor) fragments) := by
  refine (accompanies_inTurn each).bind fun parts others related => ?_
  refine Setting.accompanies_pure fun actor isLifeline _ done => ?_
  cases done
  exact seenToo_sequenceOf (related actor isLifeline)

private theorem joinedBy_operand {fragments : List Fragment} (nonempty : setting.lifelines ≠ [])
    (each : ∀ fragment ∈ fragments, fragment.JoinedBy setting bystander)
    (guard : Option ExpressionId) :
    (Fragment.operand guard fragments).JoinedBy setting bystander := by
  have sequence := accompanies_inSequence each
  cases guard with
  | none =>
      unfold JoinedBy
      simp only [project_operand_none]
      exact sequence
  | some condition =>
      unfold JoinedBy
      simp only [project_operand_some]
      refine sequence.bind fun seen others seenToo =>
        Setting.accompanies_aroundSeen seenToo fun inner inners => ?_
      refine Setting.accompanies_same_bind nonempty fun loads => ?_
      refine Setting.accompanies_same_bind nonempty fun term => ?_
      exact Setting.accompanies_pure fun _ _ _ _ => trivial

/-- Arms of one operand: they have the same guard, and are relevant on the right if on the
left. -/
def ArmToo (one other : Setting.Arm) : Prop :=
  one.guard = other.guard ∧ (one.relevant = true → other.relevant = true)

private theorem filterMap_guard_of_armToo {arms others : List Setting.Arm}
    (related : List.Forall₂ ArmToo arms others) :
    arms.filterMap Setting.Arm.guard = others.filterMap Setting.Arm.guard := by
  induction related with
  | nil =>
      rfl
  | cons head _ inductionHypothesis =>
      rw [List.filterMap_cons, List.filterMap_cons, head.1, inductionHypothesis]

theorem JoinedBy.arm {operand : Fragment} (nonempty : setting.lifelines ≠ [])
    (joined : operand.JoinedBy setting bystander) (guard : Option ExpressionId) :
    setting.Accompanies ArmToo
      (setting.projectArm guard fun _ => operand.project setting (.lifeline bystander))
      fun actor => setting.projectArm guard fun _ =>
        operand.project setting (.lifeline actor) := by
  refine joined.bind fun seen others seenToo => ?_
  cases guard with
  | none =>
      refine Setting.accompanies_pure fun actor isLifeline _ done => ?_
      cases done
      exact ⟨rfl, seenToo actor isLifeline⟩
  | some condition =>
      refine Setting.accompanies_same_bind nonempty fun term => ?_
      refine Setting.accompanies_pure fun actor isLifeline _ done => ?_
      cases done
      exact ⟨rfl, seenToo actor isLifeline⟩

private theorem joinedBy_branch {operands : List Fragment} (nonempty : setting.lifelines ≠ [])
    (each : ∀ operand ∈ operands, operand.unguarded.JoinedBy setting bystander)
    (kind : BranchKind) : (Fragment.branch kind operands).JoinedBy setting bystander := by
  have arms : setting.Accompanies (List.Forall₂ ArmToo)
      ((operandProjections setting (.lifeline bystander) operands).mapM
        fun operand => setting.projectArm operand.1 operand.2)
      fun actor => (operandProjections setting (.lifeline actor) operands).mapM
        fun operand => setting.projectArm operand.1 operand.2 := by
    have nonemptyArm : Nonempty Setting.Arm := ⟨⟨none, false, .skip⟩⟩
    simp only [operandProjections_eq_map, List.mapM_map]
    exact Setting.accompanies_mapM fun operand isOperand =>
      (each operand isOperand).arm nonempty operand.guard
  unfold JoinedBy
  simp only [project]
  refine arms.bind fun own others related => ?_
  by_cases relevant : own.any Setting.Arm.relevant = true
  · have relevantToo : ∀ actor ∈ setting.lifelines,
        (others actor).any Setting.Arm.relevant = true := by
      intro actor isLifeline
      obtain ⟨arm, isArm, isRelevant⟩ := List.any_eq_true.mp relevant
      obtain ⟨other, isOther, armToo⟩ := exists_right_of_mem (related actor isLifeline) isArm
      exact List.any_eq_true.mpr ⟨other, isOther, armToo.2 isRelevant⟩
    have sameGuards : ∀ actor ∈ setting.lifelines,
        (others actor).filterMap Setting.Arm.guard = own.filterMap Setting.Arm.guard :=
      fun actor isLifeline => (filterMap_guard_of_armToo (related actor isLifeline)).symm
    have loaded : setting.Accompanies SeenToo
        (do
          let loads ← setting.loadsOf (own.filterMap Setting.Arm.guard)
          return some (.performAll loads
            (Setting.chooseAmong kind (own.map Setting.Arm.behaviour))))
        fun actor => do
          let loads ← setting.loadsOf (own.filterMap Setting.Arm.guard)
          return some (.performAll loads
            (Setting.chooseAmong kind ((others actor).map Setting.Arm.behaviour))) := by
      refine Setting.accompanies_same_bind nonempty fun loads => ?_
      refine Setting.accompanies_pure fun _ _ _ done => ?_
      cases done
      exact fun _ => rfl
    rw [Setting.projectBranch, if_pos relevant]
    refine loaded.congr fun actor isLifeline => ?_
    rw [Setting.projectBranch, if_pos (relevantToo actor isLifeline),
      sameGuards actor isLifeline]
  · rw [Setting.projectBranch, if_neg relevant]
    exact Setting.accompanies_pure fun _ _ other _ => seenToo_none other

end Fragment

namespace Setting

variable {setting : Setting} {bystander : ActorId}

/-- What stands behind the guard of an operand is joined if all fragments are. -/
private theorem joinedBy_branchOperand {follow : FragmentId → Fragment}
    (nonempty : setting.lifelines ≠ [])
    (followed : ∀ child, (follow child).JoinedBy setting bystander)
    (plain : ∀ child, (follow child).unguarded = follow child) (place : FragmentId) :
    (setting.interaction.branchOperand follow place).unguarded.JoinedBy setting bystander := by
  unfold Diagram.branchOperand
  split
  · refine Fragment.joinedBy_operand nonempty ?_ none
    intro fragment isMapped
    obtain ⟨child, _, rfl⟩ := List.mem_map.mp isMapped
    exact followed child
  · rw [plain]
    exact followed place

/-- An actor that no entry of the table names sees something only where all lifelines do. -/
theorem joinedBy_unfoldFragment (several : 2 ≤ setting.lifelines.length)
    (distinct : setting.lifelines.Nodup)
    (unnamed : ∀ entry ∈ setting.interaction.fragments, bystander ∉ entry.actors)
    (limit : Nat) (place : FragmentId) :
    (setting.interaction.unfoldFragment limit place).JoinedBy setting bystander := by
  have nonempty : setting.lifelines ≠ [] := List.ne_nil_of_length_pos (by omega)
  induction limit generalizing place with
  | zero =>
      exact Fragment.joinedBy_unresolved nonempty _
  | succ limit inductionHypothesis =>
      have later : ∀ child, (Fragment.deferred fun _ =>
          setting.interaction.unfoldFragment limit child).JoinedBy setting bystander := by
        intro child
        apply Fragment.JoinedBy.deferred
        exact inductionHypothesis child
      have laterMapped : ∀ (children : List FragmentId), ∀ fragment ∈ children.map (fun child =>
          Fragment.deferred fun _ => setting.interaction.unfoldFragment limit child),
          fragment.JoinedBy setting bystander := by
        intro children fragment isMapped
        obtain ⟨child, _, rfl⟩ := List.mem_map.mp isMapped
        exact later child
      rw [Diagram.unfoldFragment]
      cases looked : entryAt setting.interaction.fragments place.index with
      | error fault =>
          exact Fragment.joinedBy_unresolved nonempty fault
      | ok entry =>
          have apart := unnamed entry (Array.mem_of_getElem? (entryAt_eq_ok_iff.mp looked))
          cases entry with
          | message | wait | deadlock | create =>
              simp only [FragmentEntry.actors, List.mem_cons, List.not_mem_nil, not_or] at apart
              apply Fragment.joinedBy_of_unseen
              simp [Fragment.project, Viewpoint.isFor, apart]
          | loop bound body =>
              exact (later body).loop nonempty bound
          | branch kind operands =>
              refine Fragment.joinedBy_branch nonempty ?_ kind
              intro operand isMapped
              obtain ⟨child, _, rfl⟩ := List.mem_map.mp isMapped
              exact joinedBy_branchOperand nonempty later (fun _ => rfl) child
          | par operands =>
              exact Fragment.joinedBy_par nonempty (laterMapped operands) place
          | duration owner bound body =>
              exact (later body).duration (by simpa [FragmentEntry.actors] using apart) bound
          | deadline owner units body =>
              exact (later body).deadline several distinct
                (by simpa [FragmentEntry.actors] using apart) units
          | «until» intra body =>
              exact Fragment.joinedBy_until nonempty place intra _
          | critical body =>
              exact (later body).critical nonempty place
          | operand guard fragments =>
              exact Fragment.joinedBy_operand nonempty (laterMapped fragments) guard

end Setting

end SequenceChart
