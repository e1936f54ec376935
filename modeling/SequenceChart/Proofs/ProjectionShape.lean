import SequenceChart.Projection
import SequenceChart.Proofs.Completion

/-!
# The shape of projections

What a projection can come to, fragment by fragment: `Fragment.Sees` relates a
fragment to what a viewpoint sees of it, with one case for every way in which
the parts of a fragment are put together.  Every result of a projection is in
this relation, so properties of projections are shown by going through its
cases, and no proof has to follow the computation again.
-/

namespace SequenceChart

namespace Fragment

/-- The guard with which a fragment stands in a branch. -/
def guard : Fragment → Option ExpressionId
  | .operand guard _ => guard
  | _ => none

def unguarded : Fragment → Fragment
  | .operand _ fragments => .operand none fragments
  | fragment => fragment

@[simp]
theorem inTurn_projections (setting : Setting) (view : Viewpoint)
    (fragments : List Fragment) :
    inTurn (projections setting view fragments) = fragments.mapM (project setting view) := by
  induction fragments with
  | nil =>
      rfl
  | cons fragment rest inductionHypothesis =>
      rw [inTurn] at inductionHypothesis
      simp only [inTurn, projections, List.mapM_cons, inductionHypothesis]

/-- An operand without guard is the sequence of its fragments. -/
@[simp]
theorem project_operand_none (setting : Setting) (view : Viewpoint)
    (fragments : List Fragment) :
    (operand none fragments).project setting view =
      inSequence (projections setting view fragments) := by
  rw [project, ← bind_pure (inSequence (projections setting view fragments))]
  rw [bind_assoc]
  congr 1
  funext seen
  cases seen <;> rfl

/-- What goes over the operands of a branch, with one equation for operands and one for
fragments that stand for an operand, adds something for each of them. -/
theorem eq_foldr_arms {β : Type} {collect : List Fragment → β} {add : Fragment → β → β}
    (ofOperand : ∀ guard fragments rest, collect (.operand guard fragments :: rest) =
      add (.operand guard fragments) (collect rest))
    (ofOther : ∀ fragment rest, (∀ guard fragments, fragment = .operand guard fragments → False) →
      fragment.guard = none → fragment.unguarded = fragment →
      collect (fragment :: rest) = add fragment (collect rest))
    (operands : List Fragment) : collect operands = operands.foldr add (collect []) := by
  induction operands with
  | nil =>
      rfl
  | cons operand rest inductionHypothesis =>
      rw [List.foldr_cons, ← inductionHypothesis]
      cases operand with
      | operand guard fragments =>
          exact ofOperand guard fragments rest
      | _ =>
          exact ofOther _ rest (by rintro _ _ ⟨⟩) rfl rfl

/-- The operands of a branch are what stands behind their guards. -/
@[simp]
theorem operandProjections_eq_map (setting : Setting) (view : Viewpoint)
    (operands : List Fragment) :
    operandProjections setting view operands = operands.map fun operand =>
      (operand.guard, fun _ => operand.unguarded.project setting view) := by
  rw [List.map_eq_foldr]
  refine eq_foldr_arms ?_ ?_ operands
  · intro guard fragments rest
    rw [operandProjections, unguarded, project_operand_none]
    rfl
  · intro fragment rest isOther noGuard same
    rw [operandProjections.eq_3 _ _ _ _ isOther, noGuard, same]

/-- Induction over fragments and what stands behind their guards in a branch. -/
@[elab_as_elim]
theorem inductionOn {motive : Fragment → Prop} (fragment : Fragment)
    (message : ∀ content, motive (.message content))
    (wait : ∀ actor units, motive (.wait actor units))
    (deadlock : ∀ actor, motive (.deadlock actor))
    (create : ∀ id actor created, motive (.create id actor created))
    (loop : ∀ bound body, motive body → motive (.loop bound body))
    (branch : ∀ kind operands, (∀ operand ∈ operands, motive operand.unguarded) →
      motive (.branch kind operands))
    (par : ∀ id operands, (∀ operand ∈ operands, motive operand) →
      motive (.par id operands))
    (duration : ∀ owner bound body, motive body → motive (.duration owner bound body))
    (deadline : ∀ owner units body, motive body → motive (.deadline owner units body))
    («until» : ∀ id intra body, motive body → motive (.until id intra body))
    (critical : ∀ id body, motive body → motive (.critical id body))
    (operand : ∀ guard fragments, (∀ fragment ∈ fragments, motive fragment) →
      motive (.operand guard fragments))
    (deferred : ∀ content, motive (content ()) → motive (.deferred content))
    (unresolved : ∀ fault, motive (.unresolved fault)) :
    motive fragment := by
  -- an operand without its guard is no part of the fragment, so it is carried along
  suffices both : motive fragment ∧ motive fragment.unguarded from both.1
  refine @Fragment.rec (fun whole => motive whole ∧ motive whole.unguarded)
    (fun parts => ∀ part ∈ parts, motive part ∧ motive part.unguarded)
    ?_ ?_ ?_ ?_ ?_ ?_ ?_ ?_ ?_ ?_ ?_ ?_ ?_ ?_ ?_ ?_ fragment
  · exact fun content => ⟨message content, message content⟩
  · exact fun actor units => ⟨wait actor units, wait actor units⟩
  · exact fun actor => ⟨deadlock actor, deadlock actor⟩
  · exact fun id actor created => ⟨create id actor created, create id actor created⟩
  · intro bound body bodyHolds
    have whole := loop bound body bodyHolds.1
    exact ⟨whole, whole⟩
  · intro kind operands operandsHold
    have whole := branch kind operands fun part member => (operandsHold part member).2
    exact ⟨whole, whole⟩
  · intro id operands operandsHold
    have whole := par id operands fun part member => (operandsHold part member).1
    exact ⟨whole, whole⟩
  · intro owner bound body bodyHolds
    have whole := duration owner bound body bodyHolds.1
    exact ⟨whole, whole⟩
  · intro owner units body bodyHolds
    have whole := deadline owner units body bodyHolds.1
    exact ⟨whole, whole⟩
  · intro id intra body bodyHolds
    have whole := «until» id intra body bodyHolds.1
    exact ⟨whole, whole⟩
  · intro id body bodyHolds
    have whole := critical id body bodyHolds.1
    exact ⟨whole, whole⟩
  · intro guard fragments partsHold
    have each := fun part member => (partsHold part member).1
    exact ⟨operand guard fragments each, operand none fragments each⟩
  · intro content contentHolds
    have whole := deferred content (contentHolds ()).1
    exact ⟨whole, whole⟩
  · exact fun fault => ⟨unresolved fault, unresolved fault⟩
  · simp
  · intro head tail headHolds tailHolds part member
    rcases List.mem_cons.mp member with rfl | later
    · exact headHolds
    · exact tailHolds part later

/-! ## What is seen -/

def sequenceOf (seen : List (Option Behaviour)) : Option Behaviour :=
  let parts := seen.filterMap id
  if parts.isEmpty then none else some (.sequence parts)

def IsArm (setting : Setting) (guard : Option ExpressionId) (body : Option Behaviour)
    (arm : Setting.Arm) : Prop :=
  match guard with
  | none => arm = ⟨none, body.isSome, body.getD .skip⟩
  | some condition => ∃ term, setting.termOf condition = .ok term ∧
      arm = ⟨some condition, body.isSome, .guarded term (body.getD .skip).enclose⟩

/-- What is put around the arms of a par fragment at which lifelines meet. -/
def metArms (enter leave : Event) (arms : List (Option Behaviour)) : Behaviour :=
  let behaviours := arms.map fun arm => arm.getD .skip
  let body := Behaviour.combine .interleaving behaviours
  .sequence [.idle (.perform enter (if behaviours.length ≤ 1 then body.grouped else body)),
    .idle (.perform leave .skip)]

/-- `fragment.Sees setting view seen` means that `seen` is what `view` sees of
`fragment`.  Lists of fragments are given together with what is seen of each. -/
inductive Sees (setting : Setting) : Viewpoint → Fragment → Option Behaviour → Prop
  | message {view : Viewpoint} {content : Message} {event : Event} {storing : Bool}
      {stores loads : List Event} :
      (view.isFor content.sender || view.isFor content.receiver) = true →
      setting.messageEvent content = .ok event →
      view.storesFor setting.specification content = .ok storing →
      (setting.specification.stores (if storing then content.bindings else [])).result =
        .ok stores →
      (setting.loadsOf content.values).result = .ok loads →
      Sees setting view (.message content) (some (.performAll loads
        (.idle (.perform event (.performAll stores .skip)))))
  | otherMessage {view : Viewpoint} {content : Message} :
      (view.isFor content.sender || view.isFor content.receiver) = false →
      Sees setting view (.message content) none
  | wait {view : Viewpoint} {actor : ActorId} {units : ExpressionId} {loads : List Event}
      {term : Term} :
      view.isFor actor = true →
      (setting.loadsOf [units]).result = .ok loads →
      setting.termOf units = .ok term →
      Sees setting view (.wait actor units)
        (some (.performAll loads (.applied "WAIT" [.value term])))
  | otherWait {view : Viewpoint} {actor : ActorId} (units : ExpressionId) :
      view.isFor actor = false →
      Sees setting view (.wait actor units) none
  | deadlock {view : Viewpoint} {actor : ActorId} :
      view.isFor actor = true →
      Sees setting view (.deadlock actor) (some .stop)
  | otherDeadlock {view : Viewpoint} {actor : ActorId} :
      view.isFor actor = false →
      Sees setting view (.deadlock actor) none
  | create {view : Viewpoint} (id : FragmentId) {actor created : ActorId} :
      (view.isFor actor || view.isFor created) = true →
      Sees setting view (.create id actor created)
        (some (.annotated .stop "unsupported: lifeline creation"))
  | otherCreate {view : Viewpoint} (id : FragmentId) {actor created : ActorId} :
      (view.isFor actor || view.isFor created) = false →
      Sees setting view (.create id actor created) none
  | loop {view : Viewpoint} {bound : Option Bound} {body : Fragment} {inner : Behaviour}
      {loads : List Event} {header : Header} :
      Sees setting view body (some inner) →
      (setting.loadsOf (bound.toList.flatMap Bound.sides)).result = .ok loads →
      setting.specification.loopHeader setting.interaction.toDiagram bound = .ok header →
      Sees setting view (.loop bound body)
        (some (.performAll loads (header.around inner)))
  | otherLoop {view : Viewpoint} (bound : Option Bound) {body : Fragment} :
      Sees setting view body none →
      Sees setting view (.loop bound body) none
  | branch {view : Viewpoint} (kind : BranchKind)
      {parts : List (Fragment × Option Behaviour × Setting.Arm)} {loads : List Event} :
      (∀ part ∈ parts, Sees setting view part.1.unguarded part.2.1) →
      (∀ part ∈ parts, IsArm setting part.1.guard part.2.1 part.2.2) →
      (∃ part ∈ parts, part.2.1.isSome = true) →
      (setting.loadsOf (parts.filterMap fun part => part.1.guard)).result = .ok loads →
      Sees setting view (.branch kind (parts.map Prod.fst))
        (some (.performAll loads
          (Setting.chooseAmong kind (parts.map fun part => part.2.2.behaviour))))
  | otherBranch {view : Viewpoint} (kind : BranchKind) {operands : List Fragment} :
      (∀ operand ∈ operands, Sees setting view operand.unguarded none) →
      Sees setting view (.branch kind operands) none
  | metPar {view : Viewpoint} {id : FragmentId} {parts : List (Fragment × Option Behaviour)}
      {enter leave : Event} :
      (∀ part ∈ parts, Sees setting view part.1 part.2) →
      setting.meetsAt view .par = true →
      setting.pars.event .enter id = .ok enter →
      setting.pars.event .leave id = .ok leave →
      Sees setting view (.par id (parts.map Prod.fst))
        (some (metArms enter leave (parts.map Prod.snd)))
  | par {view : Viewpoint} (id : FragmentId) {parts : List (Fragment × Option Behaviour)} :
      (∀ part ∈ parts, Sees setting view part.1 part.2) →
      setting.meetsAt view .par = false →
      (∃ part ∈ parts, part.2.isSome = true) →
      Sees setting view (.par id (parts.map Prod.fst))
        (some (.combine .interleaving (parts.map fun part => part.2.getD .skip)))
  | otherPar {view : Viewpoint} (id : FragmentId) {operands : List Fragment} :
      (∀ operand ∈ operands, Sees setting view operand none) →
      setting.meetsAt view .par = false →
      Sees setting view (.par id operands) none
  | duration {view : Viewpoint} {owner : ActorId} {bound : Bound} {body : Fragment}
      {inner : Option Behaviour} {loads : List Event} {header : Header} :
      Sees setting view body inner →
      view.isFor owner = true →
      (setting.loadsOf bound.sides).result = .ok loads →
      setting.specification.durationHeader setting.interaction.toDiagram bound = .ok header →
      Sees setting view (.duration owner bound body)
        (some (.performAll loads (header.around (inner.getD .skip))))
  | otherDuration {view : Viewpoint} {owner : ActorId} (bound : Bound) {body : Fragment}
      {seen : Option Behaviour} :
      Sees setting view body seen →
      view.isFor owner = false →
      Sees setting view (.duration owner bound body) seen
  | deadline {view : Viewpoint} {owner : ActorId} {units : ExpressionId} {body : Fragment}
      {inner : Option Behaviour} {loads : List Event} {term : Term} :
      Sees setting view body inner →
      (inner.isSome || view.isFor owner) = true →
      (view.isFor owner || decide (setting.lifelines.length ≤ 1)) = true →
      (setting.loadsOf [units]).result = .ok loads →
      setting.termOf units = .ok term →
      Sees setting view (.deadline owner units body)
        (some (.performAll loads (.wrapped "Deadline" [.value term] (inner.getD .skip))))
  | remarkedDeadline {view : Viewpoint} {owner : ActorId} (units : ExpressionId)
      {body : Fragment} {inner : Behaviour} {found : Actor} :
      Sees setting view body (some inner) →
      (view.isFor owner || decide (setting.lifelines.length ≤ 1)) = false →
      setting.specification.actor owner = .ok found →
      Sees setting view (.deadline owner units body)
        (some (.remarked ("deadline on " ++ found.name) inner))
  | otherDeadline {view : Viewpoint} {owner : ActorId} (units : ExpressionId)
      {body : Fragment} :
      Sees setting view body none →
      view.isFor owner = false →
      Sees setting view (.deadline owner units body) none
  | metUntil {view : Viewpoint} {id : FragmentId} (intra : MessageSet) (body : Fragment)
      {enter leave : Event} :
      setting.meetsAt view .until = true →
      setting.untils.event .enter id = .ok enter →
      setting.untils.event .leave id = .ok leave →
      Sees setting view (.until id intra body)
        (some (.idle (.performAll [enter, leave] .skip)))
  | until {view : Viewpoint} (id : FragmentId) (intra : MessageSet) {body : Fragment}
      {inner : Option Behaviour} {internal : List String} :
      setting.meetsAt view .until = false →
      Sees setting .until body inner →
      setting.internalChannels = .ok internal →
      Sees setting view (.until id intra body)
        (some ((untilHeader intra internal).around (inner.getD .skip)))
  | critical {view : Viewpoint} (id : FragmentId) {body : Fragment} {inner : Behaviour} :
      Sees setting view body (some inner) →
      Sees setting view (.critical id body)
        (some (.annotated .stop "unsupported: critical region"))
  | otherCritical {view : Viewpoint} (id : FragmentId) {body : Fragment} :
      Sees setting view body none →
      Sees setting view (.critical id body) none
  | operand {view : Viewpoint} {parts : List (Fragment × Option Behaviour)} :
      (∀ part ∈ parts, Sees setting view part.1 part.2) →
      Sees setting view (.operand none (parts.map Prod.fst))
        (sequenceOf (parts.map Prod.snd))
  | guardedOperand {view : Viewpoint} {condition : ExpressionId}
      {parts : List (Fragment × Option Behaviour)} {body : Behaviour} {loads : List Event}
      {term : Term} :
      (∀ part ∈ parts, Sees setting view part.1 part.2) →
      sequenceOf (parts.map Prod.snd) = some body →
      (setting.loadsOf [condition]).result = .ok loads →
      setting.termOf condition = .ok term →
      Sees setting view (.operand (some condition) (parts.map Prod.fst))
        (some (.performAll loads (.guarded term body.enclose)))
  | otherOperand {view : Viewpoint} (condition : ExpressionId) {fragments : List Fragment} :
      (∀ fragment ∈ fragments, Sees setting view fragment none) →
      Sees setting view (.operand (some condition) fragments) none
  | deferred {view : Viewpoint} {content : Unit → Fragment} {seen : Option Behaviour} :
      Sees setting view (content ()) seen →
      Sees setting view (.deferred content) seen

/-! ## Results of projections -/

variable {setting : Setting} {view : Viewpoint}

/-- Projections of a list, each with its fragment. -/
theorem exists_parts {fragments : List Fragment} {seen : List (Option Behaviour)}
    (done : (inTurn (projections setting view fragments)).result = .ok seen) :
    ∃ parts : List (Fragment × Option Behaviour),
      parts.map Prod.fst = fragments ∧ parts.map Prod.snd = seen ∧
        ∀ part ∈ parts, (part.1.project setting view).result = .ok part.2 := by
  rw [inTurn_projections, Attempt.result_mapM, mapM_eq_ok_iff] at done
  refine ⟨fragments.zip seen, ?_, ?_, ?_⟩
  · exact List.map_fst_zip (Nat.le_of_eq done.length_eq)
  · exact List.map_snd_zip (Nat.le_of_eq done.length_eq.symm)
  · rintro ⟨fragment, behaviour⟩ member
    exact List.forall₂_zip done member

theorem result_inSequence_eq_ok_iff {projections : List Projection}
    {seen : Option Behaviour} :
    (inSequence projections).result = .ok seen ↔
      ∃ parts, (inTurn projections).result = .ok parts ∧ sequenceOf parts = seen := by
  rw [inSequence, Attempt.result_bind_eq_ok_iff]
  constructor
  · rintro ⟨parts, done, last⟩
    cases last
    exact ⟨parts, done, rfl⟩
  · rintro ⟨parts, done, rfl⟩
    exact ⟨parts, done, rfl⟩

theorem sequenceOf_eq_none_iff {seen : List (Option Behaviour)} :
    sequenceOf seen = none ↔ ∀ part ∈ seen, part = none := by
  simp [sequenceOf, List.filterMap_eq_nil_iff]

/-- What a message becomes: its event between the loads and the stores. -/
theorem projectMessage_eq_ok {content : Message} {behaviour : Behaviour}
    (done : (setting.projectMessage view content).result = .ok behaviour) :
    ∃ event storing stores loads, setting.messageEvent content = .ok event ∧
      view.storesFor setting.specification content = .ok storing ∧
      (setting.specification.stores (if storing then content.bindings else [])).result =
        .ok stores ∧
      (setting.loadsOf content.values).result = .ok loads ∧
      behaviour = .performAll loads (.idle (.perform event (.performAll stores .skip))) := by
  obtain ⟨event, eventDone, rest⟩ := Attempt.result_bind_eq_ok_iff.mp done
  obtain ⟨storing, storingDone, rest⟩ := Attempt.result_bind_eq_ok_iff.mp rest
  refine ⟨event, storing, ?_⟩
  cases storing with
  | true =>
      obtain ⟨stores, storesDone, rest⟩ := Attempt.result_bind_eq_ok_iff.mp rest
      obtain ⟨loads, loadsDone, last⟩ := Attempt.result_bind_eq_ok_iff.mp rest
      cases last
      exact ⟨stores, loads, eventDone, storingDone, storesDone, loadsDone, rfl⟩
  | false =>
      obtain ⟨stores, storesDone, rest⟩ := Attempt.result_bind_eq_ok_iff.mp rest
      cases storesDone
      obtain ⟨loads, loadsDone, last⟩ := Attempt.result_bind_eq_ok_iff.mp rest
      cases last
      exact ⟨[], loads, eventDone, storingDone, rfl, loadsDone, rfl⟩

private theorem sees_projectMessage {content : Message} {behaviour : Behaviour}
    (involved : (view.isFor content.sender || view.isFor content.receiver) = true)
    (done : (setting.projectMessage view content).result = .ok behaviour) :
    Sees setting view (.message content) (some behaviour) := by
  obtain ⟨event, storing, stores, loads, eventDone, storingDone, storesDone, loadsDone, rfl⟩ :=
    projectMessage_eq_ok done
  exact .message involved eventDone storingDone storesDone loadsDone

/-- What the timer of a fragment encloses: its owner always has something. -/
theorem timedBody_eq_ok {owner : ActorId} {body timed : Option Behaviour}
    (done : (setting.timedBody view owner body).result = .ok timed) :
    timed = if view.isFor owner then some (body.getD .skip) else body := by
  cases body with
  | some behaviour =>
      cases done
      split <;> rfl
  | none =>
      rw [Setting.timedBody] at done
      split at done
      · rename_i own
        obtain ⟨found, _, last⟩ := Attempt.result_bind_eq_ok_iff.mp done
        cases last
        rw [if_pos own]
        rfl
      · rename_i other
        cases done
        rw [if_neg other]

private theorem isArm_of_result {guard : Option ExpressionId} {operand : Fragment}
    {arm : Setting.Arm}
    (done : (setting.projectArm guard fun _ => operand.project setting view).result =
      .ok arm) :
    ∃ body, (operand.project setting view).result = .ok body ∧
      IsArm setting guard body arm := by
  obtain ⟨body, bodyDone, rest⟩ := Attempt.result_bind_eq_ok_iff.mp done
  refine ⟨body, bodyDone, ?_⟩
  cases guard with
  | none =>
      cases rest
      exact rfl
  | some condition =>
      obtain ⟨term, found, last⟩ := Attempt.result_bind_eq_ok_iff.mp rest
      cases last
      exact ⟨term, found, rfl⟩

theorem IsArm.guard_eq {guard : Option ExpressionId} {body : Option Behaviour}
    {arm : Setting.Arm} (isArm : IsArm setting guard body arm) : arm.guard = guard := by
  cases guard with
  | none =>
      rw [show arm = _ from isArm]
  | some condition =>
      obtain ⟨_, _, rfl⟩ := isArm
      rfl

theorem IsArm.relevant_eq {guard : Option ExpressionId} {body : Option Behaviour}
    {arm : Setting.Arm} (isArm : IsArm setting guard body arm) :
    arm.relevant = body.isSome := by
  cases guard with
  | none =>
      rw [show arm = _ from isArm]
  | some condition =>
      obtain ⟨_, _, rfl⟩ := isArm
      rfl

private theorem sees_projectPar {id : FragmentId}
    {parts : List (Fragment × Option Behaviour)} {seen : Option Behaviour}
    (partsSeen : ∀ part ∈ parts, Sees setting view part.1 part.2)
    (done : (setting.projectPar view id (parts.map Prod.snd)).result = .ok seen) :
    Sees setting view (.par id (parts.map Prod.fst)) seen := by
  rw [Setting.projectPar] at done
  split at done
  · rename_i meets
    obtain ⟨enter, entered, rest⟩ := Attempt.result_bind_eq_ok_iff.mp done
    obtain ⟨leave, left, last⟩ := Attempt.result_bind_eq_ok_iff.mp rest
    cases last
    exact .metPar partsSeen meets entered left
  · rename_i alone
    split at done
    · rename_i irrelevant
      cases done
      refine .otherPar id ?_ (by simpa using alone)
      intro operand member
      obtain ⟨part, isPart, rfl⟩ := List.mem_map.mp member
      have unseen : part.2 = none := by
        simpa using List.all_eq_true.mp irrelevant part.2 (List.mem_map_of_mem isPart)
      exact unseen ▸ partsSeen part isPart
    · rename_i relevant
      cases done
      have someone : ∃ part ∈ parts, part.2.isSome = true := by
        simpa [Option.isSome_iff_ne_none] using relevant
      rw [List.map_map]
      exact .par id partsSeen (by simpa using alone) someone

private theorem sees_guarded {guard : Option ExpressionId}
    {parts : List (Fragment × Option Behaviour)} {seen : Option Behaviour}
    (partsSeen : ∀ part ∈ parts, Sees setting view part.1 part.2)
    (done : (match sequenceOf (parts.map Prod.snd), guard with
      | none, _ => pure none
      | some body, none => pure (some body)
      | some body, some condition => do
          let behaviour ← setting.projectGuarded condition body
          return some behaviour : Attempt (Option Behaviour)).result = .ok seen) :
    Sees setting view (.operand guard (parts.map Prod.fst)) seen := by
  cases guard with
  | none =>
      have same : seen = sequenceOf (parts.map Prod.snd) := by
        cases body : sequenceOf (parts.map Prod.snd) with
        | none =>
            rw [body] at done
            cases done
            rfl
        | some behaviour =>
            rw [body] at done
            cases done
            rfl
      rw [same]
      exact .operand partsSeen
  | some condition =>
      cases body : sequenceOf (parts.map Prod.snd) with
      | none =>
          rw [body] at done
          cases done
          refine .otherOperand condition ?_
          intro fragment member
          obtain ⟨part, isPart, rfl⟩ := List.mem_map.mp member
          have unseen := sequenceOf_eq_none_iff.mp body part.2 (List.mem_map_of_mem isPart)
          exact unseen ▸ partsSeen part isPart
      | some behaviour =>
          rw [body] at done
          obtain ⟨_, guardedDone, last⟩ := Attempt.result_bind_eq_ok_iff.mp done
          cases last
          obtain ⟨loads, loaded, rest⟩ := Attempt.result_bind_eq_ok_iff.mp guardedDone
          obtain ⟨term, found, last⟩ := Attempt.result_bind_eq_ok_iff.mp rest
          cases last
          exact .guardedOperand partsSeen body loaded found

/-- The arms of a branch, each with its operand and what is seen of it. -/
private theorem exists_armParts {operands : List Fragment} {arms : List Setting.Arm}
    (done : ((operandProjections setting view operands).mapM fun operand =>
      setting.projectArm operand.1 operand.2).result = .ok arms) :
    ∃ parts : List (Fragment × Option Behaviour × Setting.Arm),
      parts.map Prod.fst = operands ∧ parts.map (fun part => part.2.2) = arms ∧
        (∀ part ∈ parts, (part.1.unguarded.project setting view).result = .ok part.2.1) ∧
        ∀ part ∈ parts, IsArm setting part.1.guard part.2.1 part.2.2 := by
  rw [operandProjections_eq_map, List.mapM_map, Attempt.result_mapM, mapM_eq_ok_iff] at done
  induction done with
  | nil =>
      exact ⟨[], rfl, rfl, by simp, by simp⟩
  | @cons operand arm rest others armDone _ inductionHypothesis =>
      obtain ⟨parts, rfl, rfl, partsDone, areArms⟩ := inductionHypothesis
      obtain ⟨body, bodyDone, isArm⟩ := isArm_of_result armDone
      refine ⟨(operand, body, arm) :: parts, rfl, rfl, ?_, ?_⟩
      · exact List.forall_mem_cons.mpr ⟨bodyDone, partsDone⟩
      · exact List.forall_mem_cons.mpr ⟨isArm, areArms⟩

private theorem filterMap_guard_eq
    {parts : List (Fragment × Option Behaviour × Setting.Arm)}
    (areArms : ∀ part ∈ parts, IsArm setting part.1.guard part.2.1 part.2.2) :
    (parts.map fun part => part.2.2).filterMap Setting.Arm.guard =
      parts.filterMap fun part => part.1.guard := by
  rw [List.filterMap_map]
  apply List.filterMap_congr
  intro part member
  exact (areArms part member).guard_eq

private theorem sees_projectBranch {kind : BranchKind}
    {parts : List (Fragment × Option Behaviour × Setting.Arm)} {seen : Option Behaviour}
    (partsSeen : ∀ part ∈ parts, Sees setting view part.1.unguarded part.2.1)
    (areArms : ∀ part ∈ parts, IsArm setting part.1.guard part.2.1 part.2.2)
    (done : (setting.projectBranch kind (parts.map fun part => part.2.2)).result =
      .ok seen) :
    Sees setting view (.branch kind (parts.map Prod.fst)) seen := by
  rw [Setting.projectBranch] at done
  split at done
  · rename_i relevant
    obtain ⟨loads, loaded, last⟩ := Attempt.result_bind_eq_ok_iff.mp done
    cases last
    rw [filterMap_guard_eq areArms] at loaded
    have someone : ∃ part ∈ parts, part.2.1.isSome = true := by
      obtain ⟨arm, isMapped, armRelevant⟩ := List.any_eq_true.mp relevant
      obtain ⟨part, isPart, rfl⟩ := List.mem_map.mp isMapped
      exact ⟨part, isPart, (areArms part isPart).relevant_eq ▸ armRelevant⟩
    rw [List.map_map]
    exact .branch kind partsSeen areArms someone loaded
  · rename_i irrelevant
    cases done
    refine .otherBranch kind ?_
    intro operand member
    obtain ⟨part, isPart, rfl⟩ := List.mem_map.mp member
    have unseen : part.2.1 = none := by
      by_contra someSeen
      apply irrelevant
      refine List.any_eq_true.mpr ⟨part.2.2, List.mem_map_of_mem isPart, ?_⟩
      rw [(areArms part isPart).relevant_eq]
      exact Option.isSome_iff_ne_none.mpr someSeen
    exact unseen ▸ partsSeen part isPart

private theorem sees_projectDeadline {owner : ActorId} {units : ExpressionId}
    {body : Fragment} {inner : Option Behaviour} {behaviour : Behaviour}
    (innerSeen : Sees setting view body inner)
    (relevant : (inner.isSome || view.isFor owner) = true)
    (done : (setting.projectDeadline view owner units (inner.getD .skip)).result =
      .ok behaviour) :
    Sees setting view (.deadline owner units body) (some behaviour) := by
  obtain ⟨header, headed, rest⟩ := Attempt.result_bind_eq_ok_iff.mp done
  rw [Attempt.result_liftM, Specification.deadlineHeader] at headed
  split at headed
  · rename_i enforced
    obtain ⟨term, found, last⟩ := bind_eq_ok_iff.mp headed
    cases last
    obtain ⟨loads, loaded, last⟩ := Attempt.result_bind_eq_ok_iff.mp rest
    cases last
    exact .deadline innerSeen relevant enforced loaded found
  · rename_i unenforced
    obtain ⟨found, present, last⟩ := bind_eq_ok_iff.mp headed
    cases last
    cases rest
    have other : (view.isFor owner || decide (setting.lifelines.length ≤ 1)) = false :=
      Bool.eq_false_iff.mpr unenforced
    cases inner with
    | none =>
        simp only [Option.isSome_none, Bool.false_or] at relevant
        simp [relevant] at other
    | some shown =>
        exact .remarkedDeadline units innerSeen other present

/-- Every result of the projection of the fragment is what the viewpoint sees. -/
def Followed (setting : Setting) (view : Viewpoint) (fragment : Fragment) : Prop :=
  ∀ seen, (fragment.project setting view).result = .ok seen → Sees setting view fragment seen

private theorem followed_message (content : Message) :
    Followed setting view (.message content) := by
  intro seen done
  rw [project] at done
  split at done
  · rename_i involved
    obtain ⟨behaviour, projected, last⟩ := Attempt.result_bind_eq_ok_iff.mp done
    cases last
    exact sees_projectMessage involved projected
  · rename_i uninvolved
    cases done
    exact .otherMessage (by simpa using uninvolved)

private theorem followed_wait (actor : ActorId) (units : ExpressionId) :
    Followed setting view (.wait actor units) := by
  intro seen done
  rw [project] at done
  split at done
  · rename_i own
    obtain ⟨loads, loaded, rest⟩ := Attempt.result_bind_eq_ok_iff.mp done
    obtain ⟨term, found, last⟩ := Attempt.result_bind_eq_ok_iff.mp rest
    cases last
    exact .wait own loaded found
  · rename_i other
    cases done
    exact .otherWait units (by simpa using other)

private theorem followed_deadlock (actor : ActorId) :
    Followed setting view (.deadlock actor) := by
  intro seen done
  cases done
  by_cases own : view.isFor actor = true
  · rw [if_pos own]
    exact .deadlock own
  · rw [if_neg own]
    exact .otherDeadlock (by simpa using own)

private theorem followed_create (id : FragmentId) (actor created : ActorId) :
    Followed setting view (.create id actor created) := by
  intro seen done
  rw [project] at done
  split at done
  · rename_i involved
    cases done
    exact .create id involved
  · rename_i uninvolved
    cases done
    exact .otherCreate id (by simpa using uninvolved)

private theorem followed_loop (bound : Option Bound) {body : Fragment}
    (ofBody : Followed setting view body) : Followed setting view (.loop bound body) := by
  intro seen done
  obtain ⟨inner, innerDone, rest⟩ := Attempt.result_bind_eq_ok_iff.mp done
  have innerSeen := ofBody inner innerDone
  cases inner with
  | none =>
      cases rest
      exact .otherLoop bound innerSeen
  | some behaviour =>
      obtain ⟨looped, loopDone, last⟩ := Attempt.result_bind_eq_ok_iff.mp rest
      cases last
      obtain ⟨loads, loaded, rest⟩ := Attempt.result_bind_eq_ok_iff.mp loopDone
      obtain ⟨header, headed, last⟩ := Attempt.result_bind_eq_ok_iff.mp rest
      cases last
      exact .loop innerSeen loaded headed

private theorem followed_branch (kind : BranchKind) {operands : List Fragment}
    (ofOperands : ∀ operand ∈ operands, Followed setting view operand.unguarded) :
    Followed setting view (.branch kind operands) := by
  intro seen done
  obtain ⟨arms, armsDone, rest⟩ := Attempt.result_bind_eq_ok_iff.mp done
  obtain ⟨parts, rfl, rfl, partsDone, areArms⟩ := exists_armParts armsDone
  have partsSeen : ∀ part ∈ parts, Sees setting view part.1.unguarded part.2.1 :=
    fun part member => ofOperands part.1 (List.mem_map_of_mem member) part.2.1
      (partsDone part member)
  exact sees_projectBranch partsSeen areArms rest

/-- Projections that are done one after the other are what is seen of each part. -/
private theorem exists_followedParts {fragments : List Fragment} {several : List (Option Behaviour)}
    (ofFragments : ∀ fragment ∈ fragments, Followed setting view fragment)
    (done : (inTurn (projections setting view fragments)).result = .ok several) :
    ∃ parts : List (Fragment × Option Behaviour),
      parts.map Prod.fst = fragments ∧ parts.map Prod.snd = several ∧
        ∀ part ∈ parts, Sees setting view part.1 part.2 := by
  obtain ⟨parts, rfl, rfl, partsDone⟩ := exists_parts done
  refine ⟨parts, rfl, rfl, ?_⟩
  intro part member
  exact ofFragments part.1 (List.mem_map_of_mem member) part.2 (partsDone part member)

private theorem followed_par (id : FragmentId) {operands : List Fragment}
    (ofOperands : ∀ operand ∈ operands, Followed setting view operand) :
    Followed setting view (.par id operands) := by
  intro seen done
  obtain ⟨arms, armsDone, rest⟩ := Attempt.result_bind_eq_ok_iff.mp done
  obtain ⟨parts, rfl, rfl, partsSeen⟩ := exists_followedParts ofOperands armsDone
  exact sees_projectPar partsSeen rest

private theorem followed_operand (guard : Option ExpressionId) {fragments : List Fragment}
    (ofFragments : ∀ fragment ∈ fragments, Followed setting view fragment) :
    Followed setting view (.operand guard fragments) := by
  intro seen done
  obtain ⟨body, bodyDone, rest⟩ := Attempt.result_bind_eq_ok_iff.mp done
  obtain ⟨several, severalDone, rfl⟩ := result_inSequence_eq_ok_iff.mp bodyDone
  obtain ⟨parts, rfl, rfl, partsSeen⟩ := exists_followedParts ofFragments severalDone
  exact sees_guarded partsSeen rest

private theorem followed_duration (owner : ActorId) (bound : Bound) {body : Fragment}
    (ofBody : Followed setting view body) :
    Followed setting view (.duration owner bound body) := by
  intro seen done
  obtain ⟨inner, innerDone, rest⟩ := Attempt.result_bind_eq_ok_iff.mp done
  obtain ⟨timed, timedDone, rest⟩ := Attempt.result_bind_eq_ok_iff.mp rest
  have innerSeen := ofBody inner innerDone
  have timedEq := timedBody_eq_ok timedDone
  by_cases own : view.isFor owner = true
  · rw [if_pos own] at timedEq
    cases timedEq
    obtain ⟨behaviour, durationDone, last⟩ := Attempt.result_bind_eq_ok_iff.mp rest
    cases last
    rw [Setting.projectDuration, if_pos own] at durationDone
    obtain ⟨loads, loaded, rest⟩ := Attempt.result_bind_eq_ok_iff.mp durationDone
    obtain ⟨header, headed, last⟩ := Attempt.result_bind_eq_ok_iff.mp rest
    cases last
    exact .duration innerSeen own loaded headed
  · rw [if_neg own] at timedEq
    cases timedEq
    have same : seen = inner := by
      cases inner with
      | none =>
          cases rest
          rfl
      | some behaviour =>
          obtain ⟨_, durationDone, last⟩ := Attempt.result_bind_eq_ok_iff.mp rest
          rw [Setting.projectDuration, if_neg own] at durationDone
          cases durationDone
          cases last
          rfl
    rw [same]
    exact .otherDuration bound innerSeen (by simpa using own)

private theorem followed_deadline (owner : ActorId) (units : ExpressionId) {body : Fragment}
    (ofBody : Followed setting view body) :
    Followed setting view (.deadline owner units body) := by
  intro seen done
  obtain ⟨inner, innerDone, rest⟩ := Attempt.result_bind_eq_ok_iff.mp done
  obtain ⟨timed, timedDone, rest⟩ := Attempt.result_bind_eq_ok_iff.mp rest
  have innerSeen := ofBody inner innerDone
  have timedEq := timedBody_eq_ok timedDone
  by_cases relevant : (inner.isSome || view.isFor owner) = true
  · have enclosed : timed = some (inner.getD .skip) := by
      cases inner with
      | none =>
          rw [Option.isSome_none, Bool.false_or] at relevant
          rw [timedEq, if_pos relevant]
      | some shown =>
          rw [timedEq]
          split <;> rfl
    rw [enclosed] at rest
    obtain ⟨behaviour, deadlineDone, last⟩ := Attempt.result_bind_eq_ok_iff.mp rest
    cases last
    exact sees_projectDeadline innerSeen relevant deadlineDone
  · rw [Bool.not_eq_true, Bool.or_eq_false_iff, Option.isSome_eq_false_iff,
      Option.isNone_iff_eq_none] at relevant
    obtain ⟨rfl, other⟩ := relevant
    rw [other] at timedEq
    cases timedEq
    cases rest
    exact .otherDeadline units innerSeen other

private theorem followed_until (id : FragmentId) (intra : MessageSet) {body : Fragment}
    (ofBody : Followed setting .until body) :
    Followed setting view (.until id intra body) := by
  intro seen done
  rw [project] at done
  split at done
  · rename_i meets
    obtain ⟨behaviour, met, last⟩ := Attempt.result_bind_eq_ok_iff.mp done
    cases last
    obtain ⟨enter, entered, rest⟩ := bind_eq_ok_iff.mp met
    obtain ⟨leave, left, last⟩ := bind_eq_ok_iff.mp rest
    cases last
    exact .metUntil intra body meets entered left
  · rename_i alone
    obtain ⟨inner, innerDone, rest⟩ := Attempt.result_bind_eq_ok_iff.mp done
    obtain ⟨behaviour, untilDone, last⟩ := Attempt.result_bind_eq_ok_iff.mp rest
    cases last
    obtain ⟨internal, channels, last⟩ := Attempt.result_bind_eq_ok_iff.mp untilDone
    cases last
    exact .until id intra (by simpa using alone) (ofBody inner innerDone) channels

private theorem followed_critical (id : FragmentId) {body : Fragment}
    (ofBody : Followed setting view body) : Followed setting view (.critical id body) := by
  intro seen done
  obtain ⟨inner, innerDone, rest⟩ := Attempt.result_bind_eq_ok_iff.mp done
  have innerSeen := ofBody inner innerDone
  cases inner with
  | none =>
      cases rest
      exact .otherCritical id innerSeen
  | some behaviour =>
      cases rest
      exact .critical id innerSeen

private theorem followed (fragment : Fragment) : Followed setting view fragment := by
  induction fragment using inductionOn generalizing view with
  | message content =>
      exact followed_message content
  | wait actor units =>
      exact followed_wait actor units
  | deadlock actor =>
      exact followed_deadlock actor
  | create id actor created =>
      exact followed_create id actor created
  | loop bound body inductionHypothesis =>
      exact followed_loop bound inductionHypothesis
  | branch kind operands inductionHypothesis =>
      exact followed_branch kind fun operand member => inductionHypothesis operand member
  | par id operands inductionHypothesis =>
      exact followed_par id fun operand member => inductionHypothesis operand member
  | duration owner bound body inductionHypothesis =>
      exact followed_duration owner bound inductionHypothesis
  | deadline owner units body inductionHypothesis =>
      exact followed_deadline owner units inductionHypothesis
  | «until» id intra body inductionHypothesis =>
      exact followed_until id intra inductionHypothesis
  | critical id body inductionHypothesis =>
      exact followed_critical id inductionHypothesis
  | operand guard fragments inductionHypothesis =>
      exact followed_operand guard fun fragment member => inductionHypothesis fragment member
  | deferred content inductionHypothesis =>
      exact fun seen done => .deferred (inductionHypothesis seen done)
  | unresolved fault =>
      rintro seen ⟨⟩

/-- Every result of a projection is what the viewpoint sees. -/
theorem sees_of_result {fragment : Fragment} {seen : Option Behaviour}
    (done : (fragment.project setting view).result = .ok seen) :
    Sees setting view fragment seen :=
  followed fragment seen done

/-! ## Uniqueness -/

theorem IsArm.unique {guard : Option ExpressionId} {body : Option Behaviour}
    {arm other : Setting.Arm} (isArm : IsArm setting guard body arm)
    (again : IsArm setting guard body other) : arm = other := by
  cases guard with
  | none =>
      exact Eq.trans isArm (Eq.symm again)
  | some condition =>
      obtain ⟨term, found, rfl⟩ := isArm
      obtain ⟨_, foundAgain, rfl⟩ := again
      cases found.symm.trans foundAgain
      rfl

/-- Lists with the same fragments are the same if what goes with a fragment is
determined by it. -/
private theorem parts_unique {α : Type} (goesWith : Fragment → α → Prop)
    {parts others : List (Fragment × α)}
    (unique : ∀ part ∈ parts, ∀ other, goesWith part.1 other → part.2 = other)
    (othersGo : ∀ other ∈ others, goesWith other.1 other.2)
    (same : parts.map Prod.fst = others.map Prod.fst) : parts = others := by
  induction parts generalizing others with
  | nil =>
      exact (List.map_eq_nil_iff.mp same.symm).symm
  | cons part rest inductionHypothesis =>
      cases others with
      | nil =>
          cases same
      | cons other others =>
          obtain ⟨sameFirst, sameRest⟩ := List.cons.inj same
          have second : part.2 = other.2 :=
            unique part List.mem_cons_self other.2
              (sameFirst ▸ othersGo other List.mem_cons_self)
          have first : part = other := Prod.ext sameFirst second
          have later := inductionHypothesis
            (fun item member => unique item (List.mem_cons_of_mem part member))
            (fun item member => othersGo item (List.mem_cons_of_mem other member)) sameRest
          rw [first, later]

/-- The viewpoint sees one thing only of the fragment. -/
def Determined (setting : Setting) (view : Viewpoint) (fragment : Fragment) : Prop :=
  ∀ seen other, Sees setting view fragment seen → Sees setting view fragment other →
    seen = other

private theorem determined_message (content : Message) :
    Determined setting view (.message content) := by
  intro seen other sees again
  cases sees with
  | message involved eventDone storingDone storesDone loadsDone =>
      cases again with
      | message _ eventAgain storingAgain storesAgain loadsAgain =>
          cases eventDone.symm.trans eventAgain
          cases storingDone.symm.trans storingAgain
          cases storesDone.symm.trans storesAgain
          cases loadsDone.symm.trans loadsAgain
          rfl
      | otherMessage uninvolved =>
          cases involved.symm.trans uninvolved
  | otherMessage uninvolved =>
      cases again with
      | message involved =>
          cases involved.symm.trans uninvolved
      | otherMessage =>
          rfl

private theorem determined_wait (actor : ActorId) (units : ExpressionId) :
    Determined setting view (.wait actor units) := by
  intro seen other sees again
  cases sees with
  | wait own loaded found =>
      cases again with
      | wait _ loadedAgain foundAgain =>
          cases loaded.symm.trans loadedAgain
          cases found.symm.trans foundAgain
          rfl
      | otherWait _ notOwn =>
          cases own.symm.trans notOwn
  | otherWait _ notOwn =>
      cases again with
      | wait own =>
          cases own.symm.trans notOwn
      | otherWait =>
          rfl

private theorem determined_deadlock (actor : ActorId) :
    Determined setting view (.deadlock actor) := by
  intro seen other sees again
  cases sees with
  | deadlock own =>
      cases again with
      | deadlock =>
          rfl
      | otherDeadlock notOwn =>
          cases own.symm.trans notOwn
  | otherDeadlock notOwn =>
      cases again with
      | deadlock own =>
          cases own.symm.trans notOwn
      | otherDeadlock =>
          rfl

private theorem determined_create (id : FragmentId) (actor created : ActorId) :
    Determined setting view (.create id actor created) := by
  intro seen other sees again
  cases sees with
  | create _ involved =>
      cases again with
      | create =>
          rfl
      | otherCreate _ uninvolved =>
          cases involved.symm.trans uninvolved
  | otherCreate _ uninvolved =>
      cases again with
      | create _ involved =>
          cases involved.symm.trans uninvolved
      | otherCreate =>
          rfl

private theorem determined_loop (bound : Option Bound) {body : Fragment}
    (ofBody : Determined setting view body) : Determined setting view (.loop bound body) := by
  intro seen other sees again
  cases sees with
  | loop innerSeen loaded headed =>
      cases again with
      | loop innerAgain loadedAgain headedAgain =>
          cases ofBody _ _ innerSeen innerAgain
          cases loaded.symm.trans loadedAgain
          cases headed.symm.trans headedAgain
          rfl
      | otherLoop _ unseen =>
          cases ofBody _ _ innerSeen unseen
  | otherLoop _ unseen =>
      cases again with
      | loop innerAgain =>
          cases ofBody _ _ unseen innerAgain
      | otherLoop =>
          rfl

section Parts

variable {α : Type} (inside : Fragment → Fragment) (shown : α → Option Behaviour)
  {parts : List (Fragment × α)}

/-- Nothing is seen of parts of which the viewpoint can see nothing. -/
private theorem shown_eq_none
    (determined : ∀ fragment ∈ parts.map Prod.fst, Determined setting view (inside fragment))
    (partsSeen : ∀ part ∈ parts, Sees setting view (inside part.1) (shown part.2))
    (unseen : ∀ fragment ∈ parts.map Prod.fst, Sees setting view (inside fragment) none) :
    ∀ part ∈ parts, shown part.2 = none := by
  intro part isPart
  have isFragment : part.1 ∈ parts.map Prod.fst := List.mem_map_of_mem isPart
  exact determined part.1 isFragment _ _ (partsSeen part isPart) (unseen part.1 isFragment)

private theorem not_unseen
    (determined : ∀ fragment ∈ parts.map Prod.fst, Determined setting view (inside fragment))
    (partsSeen : ∀ part ∈ parts, Sees setting view (inside part.1) (shown part.2))
    (someone : ∃ part ∈ parts, (shown part.2).isSome = true) :
    ¬ ∀ fragment ∈ parts.map Prod.fst, Sees setting view (inside fragment) none := by
  intro unseen
  obtain ⟨part, isPart, relevant⟩ := someone
  rw [shown_eq_none inside shown determined partsSeen unseen part isPart] at relevant
  cases relevant

end Parts

/-- What is seen of each part is determined by the fragments. -/
private theorem seenParts_unique {parts others : List (Fragment × Option Behaviour)}
    (determined : ∀ fragment ∈ parts.map Prod.fst, Determined setting view fragment)
    (partsSeen : ∀ part ∈ parts, Sees setting view part.1 part.2)
    (othersSeen : ∀ part ∈ others, Sees setting view part.1 part.2)
    (same : parts.map Prod.fst = others.map Prod.fst) : parts = others := by
  refine parts_unique (Sees setting view) ?_ othersSeen same
  intro part member other otherSeen
  exact determined part.1 (List.mem_map_of_mem member) _ _ (partsSeen part member) otherSeen

private theorem determined_branch (kind : BranchKind) {operands : List Fragment}
    (ofOperands : ∀ operand ∈ operands, Determined setting view operand.unguarded) :
    Determined setting view (.branch kind operands) := by
  intro seen other sees again
  cases sees with
  | @branch _ _ parts loads partsSeen areArms someone loaded =>
      generalize operandsEq : parts.map Prod.fst = operands at again
      cases again with
      | @branch _ _ others _ othersSeen othersArms _ loadedAgain =>
          have same : parts = others := by
            refine parts_unique (fun operand pair => Sees setting view operand.unguarded pair.1 ∧
              IsArm setting operand.guard pair.1 pair.2) ?_ ?_ operandsEq
            · rintro part member ⟨body, arm⟩ ⟨bodySeen, isArm⟩
              have bodies : part.2.1 = body := ofOperands part.1 (List.mem_map_of_mem member) _ _
                (partsSeen part member) bodySeen
              exact Prod.ext bodies ((areArms part member).unique (bodies ▸ isArm))
            · exact fun part member => ⟨othersSeen part member, othersArms part member⟩
          subst same
          cases loaded.symm.trans loadedAgain
          rfl
      | otherBranch _ unseen =>
          subst operandsEq
          exact absurd unseen (not_unseen unguarded Prod.fst ofOperands partsSeen someone)
  | otherBranch _ unseen =>
      cases again with
      | branch _ othersSeen _ someone _ =>
          exact absurd unseen (not_unseen unguarded Prod.fst ofOperands othersSeen someone)
      | otherBranch =>
          rfl

private theorem determined_par (place : FragmentId) {operands : List Fragment}
    (ofOperands : ∀ operand ∈ operands, Determined setting view operand) :
    Determined setting view (.par place operands) := by
  intro seen other sees again
  cases sees with
  | @metPar _ _ parts _ _ partsSeen meets entered left =>
      generalize operandsEq : parts.map Prod.fst = operands at again
      cases again with
      | metPar othersSeen _ enteredAgain leftAgain =>
          cases seenParts_unique ofOperands partsSeen othersSeen operandsEq
          cases entered.symm.trans enteredAgain
          cases left.symm.trans leftAgain
          rfl
      | par _ _ apart | otherPar _ _ apart =>
          cases meets.symm.trans apart
  | @par _ _ parts partsSeen apart someone =>
      generalize operandsEq : parts.map Prod.fst = operands at again
      cases again with
      | metPar _ meets =>
          cases meets.symm.trans apart
      | par _ othersSeen =>
          cases seenParts_unique ofOperands partsSeen othersSeen operandsEq
          rfl
      | otherPar _ unseen =>
          subst operandsEq
          exact absurd unseen (not_unseen id id ofOperands partsSeen someone)
  | otherPar _ unseen apart =>
      cases again with
      | metPar _ meets =>
          cases meets.symm.trans apart
      | par _ othersSeen _ someone =>
          exact absurd unseen (not_unseen id id ofOperands othersSeen someone)
      | otherPar =>
          rfl

private theorem determined_duration (owner : ActorId) (bound : Bound) {body : Fragment}
    (ofBody : Determined setting view body) :
    Determined setting view (.duration owner bound body) := by
  intro seen other sees again
  cases sees with
  | duration innerSeen own loaded headed =>
      cases again with
      | duration innerAgain _ loadedAgain headedAgain =>
          cases ofBody _ _ innerSeen innerAgain
          cases loaded.symm.trans loadedAgain
          cases headed.symm.trans headedAgain
          rfl
      | otherDuration _ _ notOwn =>
          cases own.symm.trans notOwn
  | otherDuration _ innerSeen notOwn =>
      cases again with
      | duration _ own =>
          cases own.symm.trans notOwn
      | otherDuration _ innerAgain =>
          exact ofBody _ _ innerSeen innerAgain

private theorem determined_deadline (owner : ActorId) (units : ExpressionId) {body : Fragment}
    (ofBody : Determined setting view body) :
    Determined setting view (.deadline owner units body) := by
  intro seen other sees again
  cases sees with
  | deadline innerSeen relevant enforced loaded found =>
      cases again with
      | deadline innerAgain _ _ loadedAgain foundAgain =>
          cases ofBody _ _ innerSeen innerAgain
          cases loaded.symm.trans loadedAgain
          cases found.symm.trans foundAgain
          rfl
      | remarkedDeadline _ _ unenforced =>
          cases enforced.symm.trans unenforced
      | otherDeadline _ unseen notOwn =>
          cases ofBody _ _ innerSeen unseen
          cases relevant.symm.trans notOwn
  | remarkedDeadline _ innerSeen unenforced found =>
      cases again with
      | deadline _ _ enforced =>
          cases enforced.symm.trans unenforced
      | remarkedDeadline _ innerAgain _ foundAgain =>
          cases ofBody _ _ innerSeen innerAgain
          cases found.symm.trans foundAgain
          rfl
      | otherDeadline _ unseen =>
          cases ofBody _ _ innerSeen unseen
  | otherDeadline _ unseen notOwn =>
      cases again with
      | deadline innerAgain relevant =>
          cases ofBody _ _ unseen innerAgain
          cases relevant.symm.trans notOwn
      | remarkedDeadline _ innerAgain =>
          cases ofBody _ _ unseen innerAgain
      | otherDeadline =>
          rfl

private theorem determined_until (id : FragmentId) (intra : MessageSet) {body : Fragment}
    (ofBody : Determined setting .until body) :
    Determined setting view (.until id intra body) := by
  intro seen other sees again
  cases sees with
  | metUntil _ _ meets entered left =>
      cases again with
      | metUntil _ _ _ enteredAgain leftAgain =>
          cases entered.symm.trans enteredAgain
          cases left.symm.trans leftAgain
          rfl
      | «until» _ _ apart =>
          cases meets.symm.trans apart
  | «until» _ _ apart innerSeen channels =>
      cases again with
      | metUntil _ _ meets =>
          cases meets.symm.trans apart
      | «until» _ _ _ innerAgain channelsAgain =>
          cases ofBody _ _ innerSeen innerAgain
          cases channels.symm.trans channelsAgain
          rfl

private theorem determined_critical (id : FragmentId) {body : Fragment}
    (ofBody : Determined setting view body) : Determined setting view (.critical id body) := by
  intro seen other sees again
  cases sees with
  | critical _ innerSeen =>
      cases again with
      | critical =>
          rfl
      | otherCritical _ unseen =>
          cases ofBody _ _ innerSeen unseen
  | otherCritical _ unseen =>
      cases again with
      | critical _ innerAgain =>
          cases ofBody _ _ unseen innerAgain
      | otherCritical =>
          rfl

private theorem determined_operand (guard : Option ExpressionId) {fragments : List Fragment}
    (ofFragments : ∀ fragment ∈ fragments, Determined setting view fragment) :
    Determined setting view (.operand guard fragments) := by
  intro seen other sees again
  cases sees with
  | @operand _ parts partsSeen =>
      generalize fragmentsEq : parts.map Prod.fst = fragments at again
      cases again with
      | operand othersSeen =>
          rw [seenParts_unique ofFragments partsSeen othersSeen fragmentsEq]
  | @guardedOperand _ _ parts _ _ _ partsSeen bodyDone loaded found =>
      generalize fragmentsEq : parts.map Prod.fst = fragments at again
      cases again with
      | guardedOperand othersSeen bodyAgain loadedAgain foundAgain =>
          cases seenParts_unique ofFragments partsSeen othersSeen fragmentsEq
          cases bodyDone.symm.trans bodyAgain
          cases loaded.symm.trans loadedAgain
          cases found.symm.trans foundAgain
          rfl
      | otherOperand _ unseen =>
          subst fragmentsEq
          have nothing := sequenceOf_eq_none_iff.mpr (List.forall_mem_map.mpr
            (shown_eq_none id id ofFragments partsSeen unseen))
          cases bodyDone.symm.trans nothing
  | otherOperand _ unseen =>
      cases again with
      | guardedOperand othersSeen bodyAgain =>
          have nothing := sequenceOf_eq_none_iff.mpr (List.forall_mem_map.mpr
            (shown_eq_none id id ofFragments othersSeen unseen))
          cases bodyAgain.symm.trans nothing
      | otherOperand =>
          rfl

private theorem determined (fragment : Fragment) : Determined setting view fragment := by
  induction fragment using inductionOn generalizing view with
  | message content =>
      exact determined_message content
  | wait actor units =>
      exact determined_wait actor units
  | deadlock actor =>
      exact determined_deadlock actor
  | create id actor created =>
      exact determined_create id actor created
  | loop bound body inductionHypothesis =>
      exact determined_loop bound inductionHypothesis
  | branch kind operands inductionHypothesis =>
      exact determined_branch kind fun operand member => inductionHypothesis operand member
  | par id operands inductionHypothesis =>
      exact determined_par id fun operand member => inductionHypothesis operand member
  | duration owner bound body inductionHypothesis =>
      exact determined_duration owner bound inductionHypothesis
  | deadline owner units body inductionHypothesis =>
      exact determined_deadline owner units inductionHypothesis
  | «until» id intra body inductionHypothesis =>
      exact determined_until id intra inductionHypothesis
  | critical id body inductionHypothesis =>
      exact determined_critical id inductionHypothesis
  | operand guard fragments inductionHypothesis =>
      exact determined_operand guard fun fragment member => inductionHypothesis fragment member
  | deferred content inductionHypothesis =>
      rintro seen other ⟨⟩ ⟨⟩
      rename_i innerSeen innerAgain
      exact inductionHypothesis _ _ innerSeen innerAgain
  | unresolved fault =>
      rintro seen other ⟨⟩

/-- A viewpoint sees one thing only of a fragment. -/
theorem Sees.unique {fragment : Fragment} {seen other : Option Behaviour}
    (sees : fragment.Sees setting view seen) (again : fragment.Sees setting view other) :
    seen = other :=
  determined fragment seen other sees again

end Fragment

end SequenceChart
