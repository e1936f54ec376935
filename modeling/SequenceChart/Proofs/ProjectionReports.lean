import SequenceChart.Proofs.ProjectionShape
import SequenceChart.Proofs.ProjectionSuccess
import SequenceChart.Proofs.Reports

/-!
# Reports of projections

A projection makes no reports of its own but for lifeline creations and critical
regions.  All else that it reports comes from the parts of a fragment, and it
always goes through all of them: a critical region reports what is in its body
even though it shows nothing of it.

`Fragment.IsMadeOf` says this of one fragment and its parts, together with what
makes the fragment relevant.  There is one lemma for every kind of fragment.
-/

namespace SequenceChart

open Attempt

namespace Specification

variable (specification : Specification)

private theorem silent_memoryOf (id : VariableId) : (specification.memoryOf id).Silent := by
  refine Silent.bind (reportsOnly_liftM _) fun found => ?_
  cases found.owner with
  | some owner =>
      exact Silent.bind (reportsOnly_liftM _) fun _ => reportsOnly_pure _
  | none =>
      exact Silent.bind (reportsOnly_log _ _) fun _ => reportsOnly_pure _

private theorem silent_accessTo (access : String → String → Event) (id : VariableId) :
    (specification.accessTo access id).Silent := by
  refine Silent.bind (reportsOnly_liftM _) fun _ => ?_
  exact Silent.bind (specification.silent_memoryOf id) fun _ => reportsOnly_pure _

private theorem silent_loads (ids : List VariableId) : (specification.loads ids).Silent :=
  reportsOnly_mapM fun id _ => specification.silent_accessTo .load id

private theorem silent_stores (ids : List VariableId) : (specification.stores ids).Silent :=
  reportsOnly_mapM fun id _ => specification.silent_accessTo .store id

end Specification

namespace Setting

variable (setting : Setting) (view : Viewpoint)

private theorem silent_loadsOf (ids : List ExpressionId) : (setting.loadsOf ids).Silent :=
  Silent.bind (reportsOnly_liftM _) fun read => setting.specification.silent_loads read

private theorem silent_projectMessage (message : Message) :
    (setting.projectMessage view message).Silent := by
  refine Silent.bind (reportsOnly_liftM _) fun _ => ?_
  refine Silent.bind (reportsOnly_liftM _) fun storing => ?_
  cases storing with
  | true =>
      refine Silent.bind (setting.specification.silent_stores _) fun _ => ?_
      exact Silent.bind (setting.silent_loadsOf _) fun _ => reportsOnly_pure _
  | false =>
      refine Silent.bind (reportsOnly_pure _) fun _ => ?_
      exact Silent.bind (setting.silent_loadsOf _) fun _ => reportsOnly_pure _

private theorem silent_projectGuarded (guard : ExpressionId) (body : Behaviour) :
    (setting.projectGuarded guard body).Silent := by
  refine Silent.bind (setting.silent_loadsOf _) fun _ => ?_
  exact Silent.bind (reportsOnly_liftM _) fun _ => reportsOnly_pure _

private theorem silent_projectLoop (bound : Option Bound) (body : Behaviour) :
    (setting.projectLoop bound body).Silent := by
  refine Silent.bind (setting.silent_loadsOf _) fun _ => ?_
  exact Silent.bind (reportsOnly_liftM _) fun _ => reportsOnly_pure _

private theorem silent_timedBody (owner : ActorId) (body : Option Behaviour) :
    (setting.timedBody view owner body).Silent := by
  cases body with
  | some behaviour =>
      exact reportsOnly_pure _
  | none =>
      rw [timedBody]
      split
      · refine Silent.bind (reportsOnly_liftM _) fun _ => ?_
        exact Silent.bind (reportsOnly_log _ _) fun _ => reportsOnly_pure _
      · exact reportsOnly_pure _

private theorem silent_projectDuration (owner : ActorId) (bound : Bound) (body : Behaviour) :
    (setting.projectDuration view owner bound body).Silent := by
  rw [projectDuration]
  split
  · refine Silent.bind (setting.silent_loadsOf _) fun _ => ?_
    exact Silent.bind (reportsOnly_liftM _) fun _ => reportsOnly_pure _
  · exact reportsOnly_pure _

private theorem silent_projectDeadline (owner : ActorId) (units : ExpressionId) (body : Behaviour) :
    (setting.projectDeadline view owner units body).Silent := by
  refine Silent.bind (reportsOnly_liftM _) fun header => ?_
  cases header with
  | call function arguments =>
      exact Silent.bind (setting.silent_loadsOf _) fun _ => reportsOnly_pure _
  | remark text =>
      exact reportsOnly_pure _

private theorem silent_projectPar (id : FragmentId) (arms : List (Option Behaviour)) :
    (setting.projectPar view id arms).Silent := by
  rw [projectPar]
  split
  · refine Silent.bind (reportsOnly_liftM _) fun _ => ?_
    exact Silent.bind (reportsOnly_liftM _) fun _ => reportsOnly_pure _
  · split <;> exact reportsOnly_pure _

private theorem silent_projectUntil (intra : MessageSet) (body : Option Behaviour) :
    (setting.projectUntil intra body).Silent :=
  Silent.bind (reportsOnly_liftM _) fun _ => reportsOnly_pure _

private theorem silent_projectBranch (kind : BranchKind) (arms : List Arm) :
    (setting.projectBranch kind arms).Silent := by
  rw [projectBranch]
  split
  · exact Silent.bind (setting.silent_loadsOf _) fun _ => reportsOnly_pure _
  · exact reportsOnly_pure _

def warning (fragment : FragmentId) (what : String) : Report :=
  .fragment setting.id fragment setting.interaction.name (setting.interaction.location fragment)
    (what ++ " is not supported, generating STOP") .warning

private theorem reports_unsupported (fragment : FragmentId) (what : String) :
    (setting.unsupported fragment what).reports = [setting.warning fragment what] :=
  rfl

end Setting

namespace Fragment

/-- The projection of a fragment goes through the given parts, each for its viewpoint.
It comes to something if the fragment is relevant of its own or one of the parts is.
It makes the reports of the parts, and a report of its own if it comes to something. -/
structure IsMadeOf (setting : Setting) (view : Viewpoint) (fragment : Fragment)
    (own : Bool) (report : Option Report) (parts : List (Viewpoint × Fragment)) : Prop where
  completes : ∀ {seen}, (fragment.project setting view).result = .ok seen →
    ∀ part ∈ parts, ∃ inner, (part.2.project setting part.1).result = .ok inner
  relevant : ∀ {seen}, (fragment.project setting view).result = .ok seen →
    (seen.isSome = true ↔ own = true ∨ ∃ part ∈ parts, ∃ inner,
      (part.2.project setting part.1).result = .ok (some inner))
  reported : ∀ {seen}, (fragment.project setting view).result = .ok seen → ∀ content,
    content ∈ (fragment.project setting view).reports ↔
      (seen.isSome = true ∧ report = some content) ∨
        ∃ part ∈ parts, content ∈ (part.2.project setting part.1).reports

variable {setting : Setting} {view : Viewpoint}

/-- A fragment without parts, which makes no reports. -/
theorem isMadeOf_leaf {fragment : Fragment} {own : Bool}
    (silent : (fragment.project setting view).Silent)
    (relevant : ∀ {seen}, (fragment.project setting view).result = .ok seen →
      seen.isSome = own) :
    fragment.IsMadeOf setting view own none [] := by
  refine ⟨by simp, ?_, ?_⟩
  · intro seen done
    simp [relevant done]
  · intro seen _ content
    simp [silent.reports_eq]

/-- A fragment around one part, for which silent work remains to be done. -/
theorem isMadeOf_around {fragment body : Fragment} {inside : Viewpoint} {own : Bool}
    {rest : Option Behaviour → Attempt (Option Behaviour)}
    (projected : fragment.project setting view = body.project setting inside >>= rest)
    (silent : ∀ inner, (rest inner).Silent)
    (relevant : ∀ {inner seen}, (rest inner).result = .ok seen →
      (seen.isSome = true ↔ own = true ∨ inner.isSome = true)) :
    fragment.IsMadeOf setting view own none [(inside, body)] := by
  constructor
  · intro seen done part member
    cases List.mem_singleton.mp member
    rw [projected] at done
    obtain ⟨inner, innerDone, _⟩ := result_bind_eq_ok_iff.mp done
    exact ⟨inner, innerDone⟩
  · intro seen done
    rw [projected] at done
    obtain ⟨inner, innerDone, restDone⟩ := result_bind_eq_ok_iff.mp done
    rw [relevant restDone, Option.isSome_iff_exists]
    simp [innerDone]
  · intro seen _ content
    rw [projected, reports_bind_of_silent silent]
    simp

/-- A fragment around several parts, on each of which and on all of which silent work
remains to be done. -/
theorem isMadeOf_parts {α : Type} {fragment : Fragment} {items : List Fragment}
    {part : Fragment → Fragment} {finish : Fragment → Option Behaviour → Attempt α}
    {isRelevant : α → Bool} {rest : List α → Attempt (Option Behaviour)} {own : Bool}
    (projected : fragment.project setting view =
      items.mapM (fun item => (part item).project setting view >>= finish item) >>= rest)
    (finishSilent : ∀ item inner, (finish item inner).Silent)
    (finishRelevant : ∀ {item inner value}, (finish item inner).result = .ok value →
      isRelevant value = inner.isSome)
    (restSilent : ∀ values, (rest values).Silent)
    (restRelevant : ∀ {values seen}, (rest values).result = .ok seen →
      (seen.isSome = true ↔ own = true ∨ ∃ value ∈ values, isRelevant value = true)) :
    fragment.IsMadeOf setting view own none (items.map fun item => (view, part item)) := by
  have each : ∀ {seen}, (fragment.project setting view).result = .ok seen →
      ∃ values, (items.mapM fun item =>
          (part item).project setting view >>= finish item).result = .ok values ∧
        (rest values).result = .ok seen ∧
        List.Forall₂ (fun item value => ∃ inner,
          ((part item).project setting view).result = .ok inner ∧
            isRelevant value = inner.isSome) items values := by
    intro seen done
    rw [projected] at done
    obtain ⟨values, valuesDone, restDone⟩ := result_bind_eq_ok_iff.mp done
    refine ⟨values, valuesDone, restDone, ?_⟩
    rw [result_mapM, mapM_eq_ok_iff] at valuesDone
    refine valuesDone.imp fun item value itemDone => ?_
    obtain ⟨inner, innerDone, finishDone⟩ := result_bind_eq_ok_iff.mp itemDone
    exact ⟨inner, innerDone, finishRelevant finishDone⟩
  constructor
  · intro seen done
    obtain ⟨values, _, _, related⟩ := each done
    rw [List.forall_mem_map]
    intro item member
    obtain ⟨_, _, inner, innerDone, _⟩ := exists_right_of_mem related member
    exact ⟨inner, innerDone⟩
  · intro seen done
    obtain ⟨values, _, restDone, related⟩ := each done
    rw [restRelevant restDone]
    simp only [List.mem_map, exists_exists_and_eq_and]
    refine or_congr_right ⟨?_, ?_⟩
    · rintro ⟨value, member, isTrue⟩
      obtain ⟨item, isItem, inner, innerDone, same⟩ := exists_left_of_mem related member
      rw [same, Option.isSome_iff_exists] at isTrue
      obtain ⟨behaviour, rfl⟩ := isTrue
      exact ⟨item, isItem, behaviour, innerDone⟩
    · rintro ⟨item, isItem, behaviour, itemDone⟩
      obtain ⟨value, member, inner, innerDone, same⟩ := exists_right_of_mem related isItem
      cases itemDone.symm.trans innerDone
      exact ⟨value, member, same⟩
  · intro seen done content
    obtain ⟨values, valuesDone, _, _⟩ := each done
    rw [projected, reports_bind_of_silent restSilent, reports_mapM valuesDone]
    simp only [reports_bind_of_silent (finishSilent _), List.mem_flatMap, List.mem_map,
      exists_exists_and_eq_and, reduceCtorEq, and_false, false_or]

/-! ## Kinds of fragments -/

theorem isMadeOf_message (content : Message) :
    (message content).IsMadeOf setting view
      (view.isFor content.sender || view.isFor content.receiver) none [] := by
  apply isMadeOf_leaf
  · rw [project]
    split
    · exact Silent.bind (setting.silent_projectMessage view content) fun _ =>
        reportsOnly_pure _
    · exact reportsOnly_pure _
  · intro seen done
    rw [project] at done
    split at done
    · rename_i involved
      obtain ⟨_, _, last⟩ := result_bind_eq_ok_iff.mp done
      cases last
      exact involved.symm
    · rename_i uninvolved
      cases done
      exact (Bool.eq_false_iff.mpr uninvolved).symm

theorem isMadeOf_wait (actor : ActorId) (units : ExpressionId) :
    (wait actor units).IsMadeOf setting view (view.isFor actor) none [] := by
  apply isMadeOf_leaf
  · rw [project]
    split
    · refine Silent.bind (setting.silent_loadsOf _) fun _ => ?_
      exact Silent.bind (reportsOnly_liftM _) fun _ => reportsOnly_pure _
    · exact reportsOnly_pure _
  · intro seen done
    rw [project] at done
    split at done
    · rename_i involved
      obtain ⟨_, _, afterLoads⟩ := result_bind_eq_ok_iff.mp done
      obtain ⟨_, _, last⟩ := result_bind_eq_ok_iff.mp afterLoads
      cases last
      exact involved.symm
    · rename_i uninvolved
      cases done
      exact (Bool.eq_false_iff.mpr uninvolved).symm

theorem isMadeOf_deadlock (actor : ActorId) :
    (deadlock actor).IsMadeOf setting view (view.isFor actor) none [] := by
  apply isMadeOf_leaf
  · rw [project]
    exact reportsOnly_pure _
  · intro seen done
    rw [project] at done
    cases done
    cases view.isFor actor <;> rfl

theorem isMadeOf_create (id : FragmentId) (actor created : ActorId) :
    (create id actor created).IsMadeOf setting view
      (view.isFor actor || view.isFor created)
      (some (setting.warning id "lifeline creation")) [] := by
  by_cases involved : (view.isFor actor || view.isFor created) = true
  · have projected : (create id actor created).project setting view = do
        let behaviour ← setting.unsupported id "lifeline creation"
        return some behaviour := by
      rw [project, if_pos involved]
    refine ⟨by simp, ?_, ?_⟩
    · intro seen done
      rw [projected] at done
      obtain ⟨_, _, last⟩ := result_bind_eq_ok_iff.mp done
      cases last
      simp [involved]
    · intro seen done content
      rw [projected] at done ⊢
      obtain ⟨_, _, last⟩ := result_bind_eq_ok_iff.mp done
      cases last
      rw [reports_bind_of_silent fun _ => reportsOnly_pure _, setting.reports_unsupported]
      simp [eq_comm]
  · have projected : (create id actor created).project setting view = return none := by
      rw [project, if_neg involved]
    refine ⟨by simp, ?_, ?_⟩
    · intro seen done
      rw [projected] at done
      cases done
      simpa using involved
    · intro seen done content
      rw [projected] at done ⊢
      cases done
      simp

theorem isMadeOf_loop (bound : Option Bound) (body : Fragment) :
    (loop bound body).IsMadeOf setting view false none [(view, body)] := by
  apply isMadeOf_around (by rw [project])
  · intro inner
    cases inner with
    | none =>
        exact reportsOnly_pure _
    | some behaviour =>
        exact Silent.bind (setting.silent_projectLoop bound behaviour) fun _ =>
          reportsOnly_pure _
  · intro inner seen done
    cases inner with
    | none =>
        cases done
        simp
    | some behaviour =>
        obtain ⟨_, _, last⟩ := result_bind_eq_ok_iff.mp done
        cases last
        simp

private theorem isSome_timed {owner : ActorId} {inner timed : Option Behaviour}
    (done : (setting.timedBody view owner inner).result = .ok timed) :
    timed.isSome = true ↔ view.isFor owner = true ∨ inner.isSome = true := by
  rw [timedBody_eq_ok done]
  by_cases own : view.isFor owner = true <;> simp [own]

/-- A timer around its body, once it is known what the timer makes of a body. -/
private theorem isMadeOf_timer {fragment body : Fragment} {owner : ActorId}
    {work : Behaviour → Attempt Behaviour} (silent : ∀ timed, (work timed).Silent)
    (projected : fragment.project setting view = do
      let inner ← body.project setting view
      match ← setting.timedBody view owner inner with
      | none => return none
      | some timed =>
          let behaviour ← work timed
          return some behaviour) :
    fragment.IsMadeOf setting view (view.isFor owner) none [(view, body)] := by
  apply isMadeOf_around projected
  · intro inner
    refine Silent.bind (setting.silent_timedBody view owner inner) fun timed => ?_
    cases timed with
    | none =>
        exact reportsOnly_pure _
    | some behaviour =>
        exact Silent.bind (silent behaviour) fun _ => reportsOnly_pure _
  · intro inner seen done
    obtain ⟨timed, timedDone, rest⟩ := result_bind_eq_ok_iff.mp done
    rw [← isSome_timed timedDone]
    cases timed with
    | none =>
        cases rest
        exact Iff.rfl
    | some behaviour =>
        obtain ⟨_, _, last⟩ := result_bind_eq_ok_iff.mp rest
        cases last
        exact Iff.rfl

theorem isMadeOf_duration (owner : ActorId) (bound : Bound) (body : Fragment) :
    (duration owner bound body).IsMadeOf setting view (view.isFor owner) none
      [(view, body)] :=
  isMadeOf_timer (setting.silent_projectDuration view owner bound) (project.eq_def _ _ _)

theorem isMadeOf_deadline (owner : ActorId) (units : ExpressionId) (body : Fragment) :
    (deadline owner units body).IsMadeOf setting view (view.isFor owner) none
      [(view, body)] :=
  isMadeOf_timer (setting.silent_projectDeadline view owner units) (project.eq_def _ _ _)

/-- The process that runs until bodies looks into them, and lifelines do not. -/
theorem isMadeOf_until (id : FragmentId) (intra : MessageSet) (body : Fragment) :
    («until» id intra body).IsMadeOf setting view true none
      (if setting.meetsAt view .until then [] else [(.until, body)]) := by
  by_cases met : setting.meetsAt view .until = true
  · rw [if_pos met]
    apply isMadeOf_leaf
    · rw [project, if_pos met]
      exact Silent.bind (reportsOnly_liftM _) fun _ => reportsOnly_pure _
    · intro seen done
      rw [project, if_pos met] at done
      obtain ⟨_, _, last⟩ := result_bind_eq_ok_iff.mp done
      cases last
      rfl
  · rw [if_neg met]
    apply isMadeOf_around (by rw [project, if_neg met])
    · intro inner
      exact Silent.bind (setting.silent_projectUntil intra inner) fun _ => reportsOnly_pure _
    · intro inner seen done
      obtain ⟨_, _, last⟩ := result_bind_eq_ok_iff.mp done
      cases last
      simp

private theorem mem_of_lastPosition {α : Type} [DecidableEq α] {item : α} {items : List α}
    {position : Nat} (found : lastPosition item items = some position) : item ∈ items := by
  induction items generalizing position with
  | nil =>
      cases found
  | cons head rest inductionHypothesis =>
      rw [lastPosition] at found
      split at found
      · rename_i later laterFound
        exact List.mem_cons_of_mem head (inductionHypothesis laterFound)
      · split at found
        · rename_i same
          rw [same]
          exact List.mem_cons_self
        · cases found

/-- An until fragment at which lifelines meet is recorded if it could be rendered. -/
theorem recorded_of_result {id : FragmentId} {intra : MessageSet} {body : Fragment}
    {seen : Option Behaviour} (inside : id.index < setting.interaction.fragments.size)
    (done : ((«until» id intra body).project setting view).result = .ok seen)
    (met : setting.meetsAt view .until = true) : id ∈ setting.untils.fragments := by
  rw [project, if_pos met] at done
  obtain ⟨_, handshakeDone, _⟩ := result_bind_eq_ok_iff.mp done
  obtain ⟨_, enterDone, _⟩ := bind_eq_ok_iff.mp handshakeDone
  obtain ⟨number, numberDone, _⟩ := bind_eq_ok_iff.mp enterDone
  rw [setting.untils_eq] at numberDone ⊢
  exact mem_of_lastPosition ((Synchronisation.numberOf_eq_ok_iff inside).mp numberDone)

/-- A critical region is reported if there is something in it to be seen, behind all that
its body reports. -/
theorem isMadeOf_critical (id : FragmentId) (body : Fragment) :
    (critical id body).IsMadeOf setting view false
      (some (setting.warning id "critical region")) [(view, body)] := by
  constructor
  · intro seen done part member
    cases List.mem_singleton.mp member
    rw [project] at done
    obtain ⟨inner, innerDone, _⟩ := result_bind_eq_ok_iff.mp done
    exact ⟨inner, innerDone⟩
  · intro seen done
    rw [project] at done
    obtain ⟨inner, innerDone, rest⟩ := result_bind_eq_ok_iff.mp done
    cases inner with
    | none =>
        cases rest
        simp [innerDone]
    | some behaviour =>
        obtain ⟨_, _, last⟩ := result_bind_eq_ok_iff.mp rest
        cases last
        simp [innerDone]
  · intro seen done content
    rw [project] at done ⊢
    obtain ⟨inner, innerDone, rest⟩ := result_bind_eq_ok_iff.mp done
    rw [reports_bind_of_ok innerDone]
    cases inner with
    | none =>
        cases rest
        simp
    | some behaviour =>
        obtain ⟨_, _, last⟩ := result_bind_eq_ok_iff.mp rest
        cases last
        simp only [reports_bind_of_silent fun _ => reportsOnly_pure _,
          setting.reports_unsupported]
        simp [or_comm, eq_comm]

private theorem inTurn_eq_mapM (fragments : List Fragment) :
    inTurn (projections setting view fragments) =
      fragments.mapM fun fragment => fragment.project setting view >>= pure := by
  simp only [inTurn_projections, bind_pure]

theorem isMadeOf_par (id : FragmentId) (operands : List Fragment) :
    (par id operands).IsMadeOf setting view (setting.meetsAt view .par) none
      (operands.map fun operand => (view, operand)) := by
  apply isMadeOf_parts (by rw [project, inTurn_eq_mapM])
  · exact fun _ inner => reportsOnly_pure inner
  · intro part inner value done
    cases done
    rfl
  · exact setting.silent_projectPar view id
  · intro arms seen done
    rw [Setting.projectPar] at done
    split at done
    · rename_i met
      obtain ⟨_, _, afterEnter⟩ := result_bind_eq_ok_iff.mp done
      obtain ⟨_, _, last⟩ := result_bind_eq_ok_iff.mp afterEnter
      cases last
      simp [met]
    · rename_i unmet
      split at done
      · rename_i irrelevant
        cases done
        simpa [unmet] using irrelevant
      · rename_i relevant
        cases done
        simpa [unmet, Option.isSome_iff_ne_none] using relevant

/-- A sequence comes to something if one of its parts does. -/
theorem isSome_sequenceOf {seen : List (Option Behaviour)} :
    (sequenceOf seen).isSome = true ↔ ∃ part ∈ seen, part.isSome = true := by
  rw [Option.isSome_iff_ne_none, Ne, sequenceOf_eq_none_iff]
  simp [Option.isSome_iff_ne_none]

theorem isMadeOf_operand (guard : Option ExpressionId) (fragments : List Fragment) :
    (operand guard fragments).IsMadeOf setting view false none
      (fragments.map fun fragment => (view, fragment)) := by
  apply isMadeOf_parts (by rw [project, inSequence, bind_assoc, inTurn_eq_mapM])
  · exact fun _ inner => reportsOnly_pure inner
  · intro part inner value done
    cases done
    rfl
  · intro values
    refine Silent.bind (reportsOnly_pure _) fun body => ?_
    cases body with
    | none =>
        exact reportsOnly_pure _
    | some behaviour =>
        cases guard with
        | none =>
            exact reportsOnly_pure _
        | some condition =>
            exact Silent.bind (setting.silent_projectGuarded condition behaviour) fun _ =>
              reportsOnly_pure _
  · intro values seen done
    obtain ⟨body, bodyDone, rest⟩ := result_bind_eq_ok_iff.mp done
    have same : sequenceOf values = body := Except.ok.inj bodyDone
    rw [← isSome_sequenceOf, same]
    cases body with
    | none =>
        cases rest
        simp
    | some behaviour =>
        cases guard with
        | none =>
            cases rest
            simp
        | some condition =>
            obtain ⟨_, _, last⟩ := result_bind_eq_ok_iff.mp rest
            cases last
            simp

/-- What remains to be done for an operand of a branch once its body is projected. -/
private def armBehind (setting : Setting) (guard : Option ExpressionId)
    (body : Option Behaviour) : Attempt Setting.Arm :=
  setting.projectArm guard fun _ => pure body

private theorem silent_armBehind (guard : Option ExpressionId) (body : Option Behaviour) :
    (armBehind setting guard body).Silent := by
  refine Silent.bind (reportsOnly_pure _) fun inner => ?_
  cases guard with
  | none =>
      exact reportsOnly_pure _
  | some condition =>
      exact Silent.bind (reportsOnly_liftM _) fun _ => reportsOnly_pure _

private theorem relevant_armBehind {guard : Option ExpressionId} {body : Option Behaviour}
    {arm : Setting.Arm} (done : (armBehind setting guard body).result = .ok arm) :
    arm.relevant = body.isSome := by
  cases guard with
  | none =>
      cases done
      rfl
  | some condition =>
      obtain ⟨inner, innerDone, afterBody⟩ := result_bind_eq_ok_iff.mp done
      cases innerDone
      obtain ⟨_, _, last⟩ := result_bind_eq_ok_iff.mp afterBody
      cases last
      rfl

theorem isMadeOf_branch (kind : BranchKind) (operands : List Fragment) :
    (branch kind operands).IsMadeOf setting view false none
      (operands.map fun operand => (view, operand.unguarded)) := by
  have projected : (branch kind operands).project setting view =
      operands.mapM (fun operand => operand.unguarded.project setting view >>=
        armBehind setting operand.guard) >>= setting.projectBranch kind := by
    rw [project, operandProjections_eq_map, List.mapM_map]
    rfl
  apply isMadeOf_parts projected
  · exact fun operand => silent_armBehind operand.guard
  · exact relevant_armBehind
  · exact setting.silent_projectBranch kind
  · intro arms seen done
    rw [Setting.projectBranch] at done
    split at done
    · rename_i relevant
      obtain ⟨_, _, last⟩ := result_bind_eq_ok_iff.mp done
      cases last
      simpa using relevant
    · rename_i irrelevant
      cases done
      simpa using irrelevant

end Fragment

end SequenceChart
