import SequenceChart.Proofs.ProjectionShape
import SequenceChart.Proofs.WellFormed

/-!
# Projections that succeed

In a sound setting every projection of a sound fragment succeeds, whatever the
viewpoint.  Most of the work is lookups that stay inside their tables.  The one
fault that is not about a single lookup is a handshake without a number: a
lifeline only comes to fragments that were numbered before, because the search
for meetings and the projection go through the same fragments.
-/

namespace SequenceChart

namespace Specification

variable {specification : Specification}

theorem exists_actor {id : ActorId} (known : id.index < specification.actors.size) :
    ∃ found, specification.actor id = .ok found := by
  obtain ⟨found, done, _⟩ := exists_entryAt known
  exact ⟨found, done⟩

theorem exists_variableAt {id : VariableId} (known : id.index < specification.vars.size) :
    ∃ found, specification.variableAt id = .ok found := by
  obtain ⟨found, done, _⟩ := exists_entryAt known
  exact ⟨found, done⟩

theorem exists_directionOf {message : Message}
    (known : message.sender.index < specification.actors.size) :
    ∃ direction, specification.directionOf message = .ok direction :=
  exists_bind_eq_ok (exists_actor known) fun _ _ => ⟨_, rfl⟩

end Specification

namespace Expression

variable {specification : Specification}

theorem Sound.exists_term {expression : Expression}
    (sound : expression.Sound specification) :
    ∃ term, expression.term specification = .ok term := by
  induction sound with
  | natural value =>
      exact ⟨_, rfl⟩
  | truth value =>
      exact ⟨_, rfl⟩
  | var known =>
      exact exists_bind_eq_ok (Specification.exists_variableAt known) fun _ _ => ⟨_, rfl⟩
  | const known =>
      obtain ⟨found, done, _⟩ := exists_entryAt known
      exact exists_bind_eq_ok ⟨found, done⟩ fun _ _ => ⟨_, rfl⟩
  | unary operator _ inductionHypothesis =>
      exact exists_bind_eq_ok inductionHypothesis fun _ _ => ⟨_, rfl⟩
  | binary operator _ _ leftHypothesis rightHypothesis =>
      exact exists_bind_eq_ok leftHypothesis fun _ _ =>
        exists_bind_eq_ok rightHypothesis fun _ _ => ⟨_, rfl⟩
  | deferred _ inductionHypothesis =>
      exact inductionHypothesis

/-- A sound expression reads variables that exist. -/
theorem Sound.exists_reads {expression : Expression}
    (sound : expression.Sound specification) :
    ∃ read, expression.reads = .ok read ∧
      ∀ id ∈ read, id.index < specification.vars.size := by
  induction sound with
  | natural value =>
      exact ⟨[], rfl, by simp⟩
  | truth value =>
      exact ⟨[], rfl, by simp⟩
  | @var id known =>
      exact ⟨[id], rfl, by simpa using known⟩
  | const known =>
      exact ⟨[], rfl, by simp⟩
  | unary operator _ inductionHypothesis =>
      exact inductionHypothesis
  | binary operator _ _ leftHypothesis rightHypothesis =>
      obtain ⟨leftRead, leftDone, leftKnown⟩ := leftHypothesis
      obtain ⟨rightRead, rightDone, rightKnown⟩ := rightHypothesis
      refine ⟨leftRead ++ rightRead, ?_, ?_⟩
      · rw [reads, leftDone, rightDone]
        rfl
      · intro id member
        exact (List.mem_append.mp member).elim (leftKnown id) (rightKnown id)
  | deferred _ inductionHypothesis =>
      exact inductionHypothesis

theorem Sound.exists_isZero {expression : Expression}
    (sound : expression.Sound specification) :
    ∃ zero, expression.isZero = .ok zero := by
  induction sound with
  | deferred _ inductionHypothesis =>
      exact inductionHypothesis
  | _ =>
      exact ⟨_, rfl⟩

end Expression

theorem Viewpoint.exists_storesFor {specification : Specification} (view : Viewpoint)
    {content : Message} (known : content.receiver.index < specification.actors.size) :
    ∃ storing, view.storesFor specification content = .ok storing := by
  cases view with
  | lifeline own =>
      exact exists_bind_eq_ok (Specification.exists_actor known) fun _ _ => ⟨_, rfl⟩
  | sequential own =>
      exact ⟨_, rfl⟩
  | «until» =>
      exact ⟨_, rfl⟩

/-- The setting of a well-formed interaction in its specification, with the
owners of all variables known. -/
structure Setting.Sound (setting : Setting) : Prop where
  placed : setting.specification.interaction setting.id = .ok setting.interaction
  wellFormed : setting.interaction.toDiagram.WellFormed setting.specification
  ownersKnown : setting.specification.OwnersKnown
  searched : Fragment.listMeetings setting.body = .ok setting.meetings

/-- The notices that a projection may make: log records, and warnings about
fragments of the interaction at their places. -/
structure Setting.Admits (setting : Setting) (allowed : Notice → Prop) : Prop where
  logs : ∀ level text, allowed (.log level text)
  warnings : ∀ fragment message,
    allowed (.report (.fragment setting.id fragment setting.interaction.name
      (setting.interaction.location fragment) message .warning))

theorem Setting.admits_all (setting : Setting) : setting.Admits fun _ => True :=
  ⟨fun _ _ => trivial, fun _ _ => trivial⟩

namespace Setting

variable {setting : Setting} {allowed : Notice → Prop}

namespace Sound

theorem exists_termOf (sound : setting.Sound) {id : ExpressionId}
    (known : id.index < setting.interaction.expressions.size) :
    ∃ term, setting.termOf id = .ok term :=
  (sound.wellFormed.sound_expression known).exists_term

private theorem exists_readsOf (sound : setting.Sound) {ids : List ExpressionId}
    (known : ∀ id ∈ ids, id.index < setting.interaction.expressions.size) :
    ∃ read, setting.readsOf ids = .ok read ∧
      ∀ id ∈ read, id.index < setting.specification.vars.size := by
  exact exists_mapM_flatten fun id member =>
    (sound.wellFormed.sound_expression (known id member)).exists_reads

end Sound

end Setting

theorem mem_unseenOccurrences {α : Type} [DecidableEq α] {seen items : List α} {item : α} :
    item ∈ unseenOccurrences seen items ↔ item ∈ items ∧ item ∉ seen := by
  induction items generalizing seen with
  | nil =>
      simp [unseenOccurrences]
  | cons head rest inductionHypothesis =>
      rw [unseenOccurrences]
      split
      · rename_i known
        rw [inductionHypothesis, List.mem_cons]
        constructor
        · exact fun ⟨later, unseen⟩ => ⟨Or.inr later, unseen⟩
        · rintro ⟨rfl | later, unseen⟩
          · exact absurd known unseen
          · exact ⟨later, unseen⟩
      · rename_i unknown
        rw [List.mem_cons, inductionHypothesis, List.mem_cons, List.mem_cons]
        constructor
        · rintro (rfl | ⟨later, unseen⟩)
          · exact ⟨Or.inl rfl, unknown⟩
          · exact ⟨Or.inr later, fun known => unseen (Or.inr known)⟩
        · rintro ⟨rfl | later, unseen⟩
          · exact Or.inl rfl
          · by_cases same : item = head
            · exact Or.inl same
            · exact Or.inr ⟨later, fun known => known.elim same unseen⟩

theorem mem_firstOccurrences {α : Type} [DecidableEq α] {items : List α} {item : α} :
    item ∈ firstOccurrences items ↔ item ∈ items := by
  simp [firstOccurrences, mem_unseenOccurrences]

namespace Setting

variable {setting : Setting} {allowed : Notice → Prop}

namespace Sound

private theorem succeeds_memoryOf (sound : setting.Sound) (admits : setting.Admits allowed)
    {id : VariableId} (known : id.index < setting.specification.vars.size) :
    (setting.specification.memoryOf id).Succeeds allowed := by
  obtain ⟨found, done, member⟩ := exists_entryAt known
  refine Attempt.completes_lift_bind ⟨found, done⟩ ?_
  intro other same
  cases same.symm.trans done
  cases owned : found.owner with
  | some owner =>
      obtain ⟨interaction, placed, _⟩ :=
        exists_entryAt (sound.ownersKnown found member owner owned)
      exact Attempt.completes_lift_bind ⟨interaction, placed⟩ fun _ _ => trivial
  | none =>
      exact ⟨admits.logs _ _, trivial⟩

/-- Accesses to variables that exist can all be written. -/
theorem succeeds_accesses (sound : setting.Sound) (admits : setting.Admits allowed)
    (access : String → String → Event) {ids : List VariableId}
    (known : ∀ id ∈ ids, id.index < setting.specification.vars.size) :
    ((firstOccurrences ids).mapM (setting.specification.accessTo access)).Succeeds
      allowed := by
  apply Attempt.succeeds_mapM
  intro id member
  have idKnown := known id (mem_firstOccurrences.mp member)
  refine Attempt.completes_lift_bind (Specification.exists_variableAt idKnown) ?_
  intro found _
  exact (succeeds_memoryOf sound admits idKnown).bind fun _ => trivial

private theorem succeeds_loadsOf (sound : setting.Sound) (admits : setting.Admits allowed)
    {ids : List ExpressionId}
    (known : ∀ id ∈ ids, id.index < setting.interaction.expressions.size) :
    (setting.loadsOf ids).Succeeds allowed := by
  obtain ⟨read, done, readKnown⟩ := sound.exists_readsOf known
  refine Attempt.completes_lift_bind ⟨read, done⟩ ?_
  intro other same
  cases same.symm.trans done
  exact succeeds_accesses sound admits .load readKnown

theorem exists_memoryChannels (sound : setting.Sound) :
    ∃ channels, setting.specification.memoryChannels setting.id = .ok channels := by
  refine exists_bind_eq_ok ⟨_, sound.placed⟩ ?_
  intro interaction same
  cases same.symm.trans sound.placed
  refine exists_bind_eq_ok (exists_mapM_eq_ok ?_) fun _ _ => ⟨_, rfl⟩
  intro id member
  exact Specification.exists_variableAt (sound.wellFormed.localsKnown id member)

theorem exists_internalChannels (sound : setting.Sound) :
    ∃ channels, setting.internalChannels = .ok channels :=
  exists_bind_eq_ok sound.exists_memoryChannels fun _ _ => ⟨_, rfl⟩

end Sound

theorem Admits.succeeds_unsupported (admits : setting.Admits allowed) (fragment : FragmentId)
    (what : String) :
    (setting.unsupported fragment what).Succeeds allowed :=
  ⟨admits.logs _ _, admits.warnings _ _, trivial⟩

theorem Admits.succeeds_timedBody (admits : setting.Admits allowed) (view : Viewpoint)
    {owner : ActorId} (body : Option Behaviour)
    (known : owner.index < setting.specification.actors.size) :
    (setting.timedBody view owner body).Succeeds allowed := by
  cases body with
  | some behaviour =>
      exact trivial
  | none =>
      rw [timedBody]
      split
      · exact Attempt.completes_lift_bind (Specification.exists_actor known)
          fun _ _ => ⟨admits.logs _ _, trivial⟩
      · exact trivial

namespace Sound

private theorem exists_fieldOf (sound : setting.Sound) {content : Message}
    (valuesKnown : ∀ id ∈ content.values,
      id.index < setting.interaction.expressions.size)
    (bindingsKnown : ∀ id ∈ content.bindings,
      id.index < setting.specification.vars.size)
    {argument : Argument} (member : argument ∈ content.arguments) :
    ∃ field, setting.fieldOf argument = .ok field := by
  cases argument with
  | value expression =>
      have isValue : expression ∈ content.values :=
        List.mem_filterMap.mpr ⟨_, member, rfl⟩
      exact exists_bind_eq_ok (sound.exists_termOf (valuesKnown expression isValue))
        fun _ _ => ⟨_, rfl⟩
  | bind id =>
      have isBinding : id ∈ content.bindings :=
        List.mem_filterMap.mpr ⟨_, member, rfl⟩
      exact exists_bind_eq_ok
        (Specification.exists_variableAt (bindingsKnown id isBinding)) fun _ _ => ⟨_, rfl⟩
  | ignored =>
      exact ⟨_, rfl⟩

private theorem succeeds_projectMessage (sound : setting.Sound) (admits : setting.Admits allowed)
    (view : Viewpoint) {content : Message}
    (actorsKnown : ∀ actor ∈ [content.sender, content.receiver],
      actor.index < setting.specification.actors.size)
    (valuesKnown : ∀ id ∈ content.values,
      id.index < setting.interaction.expressions.size)
    (bindingsKnown : ∀ id ∈ content.bindings,
      id.index < setting.specification.vars.size) :
    (setting.projectMessage view content).Succeeds allowed := by
  have event : ∃ event, setting.messageEvent content = .ok event :=
    exists_bind_eq_ok
      (exists_mapM_eq_ok fun _ member =>
        sound.exists_fieldOf valuesKnown bindingsKnown member)
      fun _ _ => exists_bind_eq_ok
        (Specification.exists_directionOf (actorsKnown _ (by simp))) fun _ _ => ⟨_, rfl⟩
  refine Attempt.completes_lift_bind event fun _ _ => ?_
  refine Attempt.completes_lift_bind
    (view.exists_storesFor (actorsKnown _ (by simp))) fun storing _ => ?_
  cases storing with
  | false =>
      exact (sound.succeeds_loadsOf admits valuesKnown).bind fun _ => trivial
  | true =>
      exact (sound.succeeds_accesses admits .store bindingsKnown).bind fun _ =>
        (sound.succeeds_loadsOf admits valuesKnown).bind fun _ => trivial

private theorem succeeds_projectGuarded (sound : setting.Sound) (admits : setting.Admits allowed)
    {guard : ExpressionId} (body : Behaviour)
    (known : guard.index < setting.interaction.expressions.size) :
    (setting.projectGuarded guard body).Succeeds allowed :=
  (sound.succeeds_loadsOf admits (by simpa using known)).bind fun _ =>
    Attempt.completes_lift_bind (sound.exists_termOf known) fun _ _ => trivial

private theorem exists_loopHeader (sound : setting.Sound) {bound : Option Bound}
    (known : ∀ id ∈ bound.toList.flatMap Bound.sides,
      id.index < setting.interaction.expressions.size)
    (hasSides : ∀ limits, bound = some limits → limits.sides ≠ []) :
    ∃ header,
      setting.specification.loopHeader setting.interaction.toDiagram bound = .ok header := by
  match bound with
  | none =>
      exact ⟨_, rfl⟩
  | some ⟨none, none⟩ =>
      exact absurd rfl (hasSides _ rfl)
  | some ⟨some lower, none⟩ =>
      exact exists_bind_eq_ok (sound.exists_termOf (known lower (by simp [Bound.sides])))
        fun _ _ => ⟨_, rfl⟩
  | some ⟨none, some upper⟩ =>
      exact exists_bind_eq_ok (sound.exists_termOf (known upper (by simp [Bound.sides])))
        fun _ _ => ⟨_, rfl⟩
  | some ⟨some lower, some upper⟩ =>
      have lowerKnown := known lower (by simp [Bound.sides])
      have upperTerm := sound.exists_termOf (known upper (by simp [Bound.sides]))
      refine exists_bind_eq_ok (sound.wellFormed.sound_expression lowerKnown).exists_isZero ?_
      intro fromZero _
      cases fromZero with
      | true =>
          exact exists_bind_eq_ok upperTerm fun _ _ => ⟨_, rfl⟩
      | false =>
          exact exists_bind_eq_ok (sound.exists_termOf lowerKnown) fun _ _ =>
            exists_bind_eq_ok upperTerm fun _ _ => ⟨_, rfl⟩

private theorem succeeds_projectLoop (sound : setting.Sound) (admits : setting.Admits allowed)
    {bound : Option Bound} (body : Behaviour)
    (known : ∀ id ∈ bound.toList.flatMap Bound.sides,
      id.index < setting.interaction.expressions.size)
    (hasSides : ∀ limits, bound = some limits → limits.sides ≠ []) :
    (setting.projectLoop bound body).Succeeds allowed :=
  (sound.succeeds_loadsOf admits known).bind fun _ =>
    Attempt.completes_lift_bind (sound.exists_loopHeader known hasSides) fun _ _ => trivial

private theorem exists_durationHeader (sound : setting.Sound) {bound : Bound}
    (known : ∀ id ∈ bound.sides, id.index < setting.interaction.expressions.size) :
    ∃ header,
      setting.specification.durationHeader setting.interaction.toDiagram bound =
        .ok header := by
  match bound with
  | ⟨none, none⟩ =>
      exact ⟨_, rfl⟩
  | ⟨some lower, none⟩ =>
      exact exists_bind_eq_ok (sound.exists_termOf (known lower (by simp [Bound.sides])))
        fun _ _ => ⟨_, rfl⟩
  | ⟨none, some upper⟩ =>
      exact exists_bind_eq_ok (sound.exists_termOf (known upper (by simp [Bound.sides])))
        fun _ _ => ⟨_, rfl⟩
  | ⟨some lower, some upper⟩ =>
      exact exists_bind_eq_ok (sound.exists_termOf (known lower (by simp [Bound.sides])))
        fun _ _ => exists_bind_eq_ok
          (sound.exists_termOf (known upper (by simp [Bound.sides]))) fun _ _ => ⟨_, rfl⟩

private theorem succeeds_projectDuration (sound : setting.Sound) (admits : setting.Admits allowed)
    (view : Viewpoint) (owner : ActorId) {bound : Bound} (body : Behaviour)
    (known : ∀ id ∈ bound.sides, id.index < setting.interaction.expressions.size) :
    (setting.projectDuration view owner bound body).Succeeds allowed := by
  rw [projectDuration]
  split
  · exact (sound.succeeds_loadsOf admits known).bind fun _ =>
      Attempt.completes_lift_bind (sound.exists_durationHeader known) fun _ _ => trivial
  · exact trivial

private theorem exists_deadlineHeader (sound : setting.Sound) (view : Viewpoint) {owner : ActorId}
    {units : ExpressionId}
    (ownerKnown : owner.index < setting.specification.actors.size)
    (unitsKnown : units.index < setting.interaction.expressions.size) :
    ∃ header,
      setting.specification.deadlineHeader setting.interaction.toDiagram view owner units =
        .ok header := by
  rw [Specification.deadlineHeader]
  split
  · exact exists_bind_eq_ok (sound.exists_termOf unitsKnown) fun _ _ => ⟨_, rfl⟩
  · exact exists_bind_eq_ok (Specification.exists_actor ownerKnown) fun _ _ => ⟨_, rfl⟩

private theorem succeeds_projectDeadline (sound : setting.Sound) (admits : setting.Admits allowed)
    (view : Viewpoint) {owner : ActorId} {units : ExpressionId} (body : Behaviour)
    (ownerKnown : owner.index < setting.specification.actors.size)
    (unitsKnown : units.index < setting.interaction.expressions.size) :
    (setting.projectDeadline view owner units body).Succeeds allowed := by
  refine Attempt.completes_lift_bind
    (sound.exists_deadlineHeader view ownerKnown unitsKnown) ?_
  intro header _
  cases header with
  | call function arguments =>
      exact (sound.succeeds_loadsOf admits (by simpa using unitsKnown)).bind fun _ => trivial
  | remark text =>
      exact trivial

private theorem succeeds_projectUntil (sound : setting.Sound) (intra : MessageSet)
    (body : Option Behaviour) :
    (setting.projectUntil intra body).Succeeds allowed :=
  Attempt.completes_lift_bind sound.exists_internalChannels fun _ _ => trivial

/-- The arm of a branch has the guard of its operand. -/
theorem completes_projectArm (sound : setting.Sound) {guard : Option ExpressionId}
    {projection : Projection} (succeeds : (projection ()).Succeeds allowed)
    (known : ∀ id ∈ guard.toList, id.index < setting.interaction.expressions.size) :
    (setting.projectArm guard projection).Completes allowed fun arm => arm.guard = guard := by
  refine succeeds.bind fun body => ?_
  cases guard with
  | none =>
      exact rfl
  | some condition =>
      exact Attempt.completes_lift_bind (sound.exists_termOf (known condition (by simp)))
        fun _ _ => rfl

private theorem succeeds_projectBranch (sound : setting.Sound) (admits : setting.Admits allowed)
    (kind : BranchKind) {arms : List Arm}
    (known : ∀ arm ∈ arms, ∀ id ∈ arm.guard.toList,
      id.index < setting.interaction.expressions.size) :
    (setting.projectBranch kind arms).Succeeds allowed := by
  rw [projectBranch]
  split
  · refine (sound.succeeds_loadsOf admits ?_).bind fun _ => trivial
    intro id member
    obtain ⟨arm, isArm, guarded⟩ := List.mem_filterMap.mp member
    exact known arm isArm id (by simp [guarded])
  · exact trivial

end Sound

end Setting

theorem exists_lastPosition {α : Type} [DecidableEq α] {item : α} {items : List α}
    (member : item ∈ items) :
    ∃ position, lastPosition item items = some position := by
  induction items with
  | nil =>
      simp at member
  | cons head rest inductionHypothesis =>
      rw [lastPosition]
      split
      · exact ⟨_, rfl⟩
      · rename_i absent
        rcases List.mem_cons.mp member with rfl | later
        · exact ⟨0, if_pos rfl⟩
        · obtain ⟨position, found⟩ := inductionHypothesis later
          simp [absent] at found

/-- The number of a fragment of the table is its last place in the record. -/
theorem Synchronisation.numberOf_eq_ok_iff {synchronisation : Synchronisation}
    {fragment : FragmentId} {number : Nat}
    (inside : fragment.index < synchronisation.tableSize) :
    synchronisation.numberOf fragment = .ok number ↔
      lastPosition fragment synchronisation.fragments = some number := by
  rw [numberOf, numbers_eq, getElem?_numbering _ _ _ inside]
  cases lastPosition fragment synchronisation.fragments with
  | none =>
      simp
  | some position =>
      simp

def Meeting.StandsIn (diagram : Diagram) (meeting : Meeting) : Prop :=
  meeting.id.index < diagram.fragments.size ∧
    (meeting.kind = .until →
      ∃ intra child, diagram.fragments[meeting.id.index]? = some (.until intra child))

namespace Fragment

variable {specification : Specification} {diagram : Diagram}

/-- The meetings of a list are those of its fragments. -/
theorem listMeetings_eq (fragments : List Fragment) :
    listMeetings fragments =
      (do let parts ← fragments.mapM meetings; return parts.flatten) := by
  induction fragments with
  | nil =>
      rfl
  | cons fragment rest inductionHypothesis =>
      simp [listMeetings, inductionHypothesis]

/-- Fragments that each have meetings have meetings as a list. -/
theorem exists_listMeetings {fragments : List Fragment} {good : Meeting → Prop}
    (each : ∀ fragment ∈ fragments,
      ∃ found, fragment.meetings = .ok found ∧ ∀ meeting ∈ found, good meeting) :
    ∃ found, listMeetings fragments = .ok found ∧ ∀ meeting ∈ found, good meeting := by
  rw [listMeetings_eq]
  exact exists_mapM_flatten each

/-- A sound fragment has meetings, and they stand in the table. -/
theorem Sound.exists_meetings {fragment : Fragment}
    (sound : fragment.Sound specification diagram) :
    ∃ found, fragment.meetings = .ok found ∧ ∀ meeting ∈ found, meeting.StandsIn diagram := by
  induction sound with
  | message | wait | deadlock | create =>
      exact ⟨[], rfl, by simp⟩
  | loop _ _ _ inductionHypothesis =>
      exact inductionHypothesis
  | branch kind _ inductionHypothesis =>
      exact exists_listMeetings inductionHypothesis
  | @par id operands inside _ inductionHypothesis =>
      obtain ⟨inner, done, innerStand⟩ := exists_listMeetings inductionHypothesis
      refine ⟨⟨.par, id⟩ :: inner, ?_, ?_⟩
      · rw [meetings, done]
        rfl
      · intro meeting member
        rcases List.mem_cons.mp member with rfl | isInner
        · exact ⟨inside, by simp⟩
        · exact innerStand meeting isInner
  | duration _ _ _ inductionHypothesis =>
      exact inductionHypothesis
  | deadline _ _ _ inductionHypothesis =>
      exact inductionHypothesis
  | @«until» id intra body placed _ _ =>
      obtain ⟨child, present⟩ := placed
      refine ⟨[⟨.until, id⟩], rfl, ?_⟩
      intro meeting member
      cases List.mem_singleton.mp member
      obtain ⟨inside, _⟩ := Array.getElem?_eq_some_iff.mp present
      exact ⟨inside, fun _ => ⟨intra, child, present⟩⟩
  | critical id _ inductionHypothesis =>
      exact inductionHypothesis
  | operand _ _ inductionHypothesis =>
      exact exists_listMeetings inductionHypothesis
  | deferred _ inductionHypothesis =>
      exact inductionHypothesis

end Fragment

namespace Setting

/-- The synchronisation of a kind is the one of the recorded meetings. -/
theorem synchronisation_eq (setting : Setting) (kind : HandshakeKind) :
    setting.synchronisation kind =
      setting.interaction.synchronisation setting.meetings kind := by
  cases kind with
  | «until» =>
      exact setting.untils_eq
  | par =>
      exact setting.pars_eq

/-- A recorded meeting has a number. -/
theorem exists_numberOf {setting : Setting} {meeting : Meeting}
    (recorded : meeting ∈ setting.meetings)
    (inside : meeting.id.index < setting.interaction.fragments.size) :
    ∃ number, (setting.synchronisation meeting.kind).numberOf meeting.id = .ok number := by
  rw [synchronisation_eq]
  have member : meeting.id ∈
      (setting.interaction.synchronisation setting.meetings meeting.kind).fragments :=
    List.mem_map.mpr ⟨meeting, List.mem_filter.mpr ⟨recorded, by simp⟩, rfl⟩
  obtain ⟨position, found⟩ := exists_lastPosition member
  exact ⟨position, (Synchronisation.numberOf_eq_ok_iff inside).mpr found⟩

theorem exists_event {setting : Setting} {meeting : Meeting}
    (recorded : meeting ∈ setting.meetings)
    (inside : meeting.id.index < setting.interaction.fragments.size) (phase : Phase) :
    ∃ event, (setting.synchronisation meeting.kind).event phase meeting.id = .ok event :=
  exists_bind_eq_ok (exists_numberOf recorded inside) fun _ _ => ⟨_, rfl⟩

theorem synchronises_of_meetsAt {setting : Setting} {view : Viewpoint}
    {kind : HandshakeKind} (meets : setting.meetsAt view kind = true) :
    view.synchronises = true := by
  rw [meetsAt, Bool.and_eq_true] at meets
  exact meets.1

end Setting

/-! ## All fragments -/

namespace Fragment

variable {setting : Setting} {allowed : Notice → Prop}

/-- From a viewpoint that takes part in handshakes, all meetings of the fragment
are recorded. -/
def Numbered (setting : Setting) (view : Viewpoint) (fragment : Fragment) : Prop :=
  view.synchronises = true →
    ∃ found, fragment.meetings = .ok found ∧ ∀ meeting ∈ found, meeting ∈ setting.meetings

/-- Where all meetings of a list are recorded, so are those of its members. -/
theorem numbered_of_mem {view : Viewpoint} {fragments : List Fragment}
    (numbered : view.synchronises = true → ∃ found, listMeetings fragments = .ok found ∧
      ∀ meeting ∈ found, meeting ∈ setting.meetings) :
    ∀ fragment ∈ fragments, fragment.Numbered setting view := by
  intro fragment member synchronises
  obtain ⟨found, done, recorded⟩ := numbered synchronises
  rw [listMeetings_eq, bind_eq_ok_iff] at done
  obtain ⟨parts, partsDone, flat⟩ := done
  cases flat
  obtain ⟨part, isPart, partDone⟩ :=
    exists_right_of_mem (mapM_eq_ok_iff.mp partsDone) member
  exact ⟨part, partDone, fun meeting inPart =>
    recorded meeting (List.mem_flatten.mpr ⟨part, isPart, inPart⟩)⟩

theorem Numbered.unguarded {view : Viewpoint} {fragment : Fragment}
    (numbered : fragment.Numbered setting view) : fragment.unguarded.Numbered setting view := by
  cases fragment <;> exact numbered

/-- A par fragment is recorded if its meetings are, and so is all inside of it. -/
theorem Numbered.par {view : Viewpoint} {id : FragmentId} {operands : List Fragment}
    (numbered : (Fragment.par id operands).Numbered setting view) :
    (view.synchronises = true → ⟨.par, id⟩ ∈ setting.meetings) ∧
      ∀ operand ∈ operands, operand.Numbered setting view := by
  have recorded : view.synchronises = true →
      ⟨.par, id⟩ ∈ setting.meetings ∧ ∃ inner, listMeetings operands = .ok inner ∧
        ∀ meeting ∈ inner, meeting ∈ setting.meetings := by
    intro synchronises
    obtain ⟨found, done, foundRecorded⟩ := numbered synchronises
    obtain ⟨inner, innerDone, whole⟩ := bind_eq_ok_iff.mp done
    cases whole
    exact ⟨foundRecorded _ List.mem_cons_self, inner, innerDone,
      fun meeting member => foundRecorded meeting (List.mem_cons_of_mem _ member)⟩
  exact ⟨fun synchronises => (recorded synchronises).1,
    numbered_of_mem fun synchronises => (recorded synchronises).2⟩

theorem Numbered.until {view : Viewpoint} {id : FragmentId} {intra : MessageSet}
    {body : Fragment} (numbered : (Fragment.until id intra body).Numbered setting view)
    (synchronises : view.synchronises = true) : ⟨.until, id⟩ ∈ setting.meetings := by
  obtain ⟨found, done, recorded⟩ := numbered synchronises
  cases done
  exact recorded _ List.mem_cons_self

/-- Fragments whose projections succeed can be projected in sequence. -/
theorem succeeds_inSequence {view : Viewpoint} {fragments : List Fragment}
    (each : ∀ fragment ∈ fragments, (fragment.project setting view).Succeeds allowed) :
    (inSequence (projections setting view fragments)).Succeeds allowed := by
  rw [inSequence, inTurn_projections]
  exact (Attempt.succeeds_mapM each).bind fun _ => trivial

/-- What stands behind the guard of an operand is projected if the operand is. -/
theorem succeeds_unguarded {view : Viewpoint} {fragment : Fragment}
    (succeeds : (fragment.project setting view).Succeeds allowed) :
    (fragment.unguarded.project setting view).Succeeds allowed := by
  cases fragment with
  | operand guard fragments =>
      rw [unguarded, project_operand_none]
      rw [project, Attempt.Succeeds, Attempt.completes_bind] at succeeds
      exact succeeds.mono fun _ _ => trivial
  | _ =>
      exact succeeds

theorem Sound.guard_known {specification : Specification} {diagram : Diagram}
    {fragment : Fragment} (sound : fragment.Sound specification diagram) :
    ∀ id ∈ fragment.guard.toList, id.index < diagram.expressions.size := by
  cases sound with
  | operand guardKnown _ =>
      exact guardKnown
  | _ =>
      simp [guard]

end Fragment

namespace Setting.Sound

variable {setting : Setting} {allowed : Notice → Prop}

private theorem succeeds_operands (sound : setting.Sound) (admits : setting.Admits allowed)
    (view : Viewpoint) (kind : BranchKind) {operands : List Fragment}
    (operandsSound : ∀ operand ∈ operands,
      operand.Sound setting.specification setting.interaction.toDiagram)
    (each : ∀ operand ∈ operands, (operand.project setting view).Succeeds allowed) :
    ((Fragment.branch kind operands).project setting view).Succeeds allowed := by
  have arm : ∀ operand ∈ operands,
      (setting.projectArm operand.guard fun _ =>
        operand.unguarded.project setting view).Completes allowed fun arm =>
          arm.guard = operand.guard := by
    intro operand member
    exact sound.completes_projectArm (Fragment.succeeds_unguarded (each operand member))
      (operandsSound operand member).guard_known
  rw [Fragment.project, Fragment.operandProjections_eq_map, List.mapM_map]
  refine (Attempt.completes_mapM arm).bind fun arms armsGuarded => ?_
  apply sound.succeeds_projectBranch admits kind
  intro arm member
  obtain ⟨operand, isOperand, sameGuard⟩ := exists_left_of_mem armsGuarded member
  rw [sameGuard]
  exact (operandsSound operand isOperand).guard_known

private theorem succeeds_projectPar (view : Viewpoint) {id : FragmentId}
    (arms : List (Option Behaviour))
    (numbered : view.synchronises = true → ⟨.par, id⟩ ∈ setting.meetings)
    (inside : id.index < setting.interaction.fragments.size) :
    (setting.projectPar view id arms).Succeeds allowed := by
  rw [projectPar]
  split
  · rename_i meets
    have event := exists_event (numbered (synchronises_of_meetsAt meets)) inside
    exact Attempt.completes_lift_bind (event .enter) fun _ _ =>
      Attempt.completes_lift_bind (event .leave) fun _ _ => trivial
  · split
    · exact trivial
    · exact trivial

/-- In a sound setting, every sound fragment whose meetings are recorded can be
projected. -/
theorem succeeds_project (sound : setting.Sound) (admits : setting.Admits allowed)
    {fragment : Fragment}
    (fragmentSound : fragment.Sound setting.specification setting.interaction.toDiagram)
    {view : Viewpoint} (numbered : fragment.Numbered setting view) :
    (fragment.project setting view).Succeeds allowed := by
  induction fragmentSound generalizing view with
  | message _ actorsKnown valuesKnown bindingsKnown =>
      rw [Fragment.project]
      split
      · exact (sound.succeeds_projectMessage admits view actorsKnown valuesKnown
          bindingsKnown).bind fun _ => trivial
      · exact trivial
  | wait _ unitsKnown =>
      rw [Fragment.project]
      split
      · exact (sound.succeeds_loadsOf admits (by simpa using unitsKnown)).bind fun _ =>
          Attempt.completes_lift_bind (sound.exists_termOf unitsKnown) fun _ _ => trivial
      · exact trivial
  | deadlock _ =>
      exact trivial
  | create id _ =>
      rw [Fragment.project]
      split
      · exact (admits.succeeds_unsupported id _).bind fun _ => trivial
      · exact trivial
  | loop sidesKnown hasSides _ inductionHypothesis =>
      rw [Fragment.project]
      refine (inductionHypothesis numbered).bind fun body => ?_
      cases body with
      | none =>
          exact trivial
      | some inner =>
          exact (sound.succeeds_projectLoop admits inner sidesKnown hasSides).bind
            fun _ => trivial
  | branch kind operandsSound inductionHypothesis =>
      have eachNumbered := Fragment.numbered_of_mem numbered
      exact sound.succeeds_operands admits view kind operandsSound fun operand member =>
        inductionHypothesis operand member (eachNumbered operand member)
  | @par id operands inside _ inductionHypothesis =>
      obtain ⟨recorded, eachNumbered⟩ := numbered.par
      rw [Fragment.project, Fragment.inTurn_projections]
      refine (Attempt.succeeds_mapM fun operand member =>
        inductionHypothesis operand member (eachNumbered operand member)).bind fun arms => ?_
      exact succeeds_projectPar view arms recorded inside
  | duration ownerKnown sidesKnown _ inductionHypothesis =>
      rw [Fragment.project]
      refine (inductionHypothesis numbered).bind fun inner => ?_
      refine (admits.succeeds_timedBody view inner ownerKnown).bind fun timed => ?_
      cases timed with
      | none =>
          exact trivial
      | some body =>
          exact (sound.succeeds_projectDuration admits view _ body sidesKnown).bind
            fun _ => trivial
  | deadline ownerKnown unitsKnown _ inductionHypothesis =>
      rw [Fragment.project]
      refine (inductionHypothesis numbered).bind fun inner => ?_
      refine (admits.succeeds_timedBody view inner ownerKnown).bind fun timed => ?_
      cases timed with
      | none =>
          exact trivial
      | some body =>
          exact (sound.succeeds_projectDeadline admits view body ownerKnown unitsKnown).bind
            fun _ => trivial
  | @«until» id intra body placed _ inductionHypothesis =>
      rw [Fragment.project]
      split
      · rename_i meets
        obtain ⟨child, present⟩ := placed
        obtain ⟨inside, _⟩ := Array.getElem?_eq_some_iff.mp present
        have event := exists_event (numbered.until (synchronises_of_meetsAt meets)) inside
        exact Attempt.completes_lift_bind
          (exists_bind_eq_ok (event .enter) fun _ _ =>
            exists_bind_eq_ok (event .leave) fun _ _ => ⟨_, rfl⟩)
          fun _ _ => trivial
      · -- no handshakes take place inside of the body
        refine (inductionHypothesis (fun synchronises => ?_)).bind fun inner =>
          (sound.succeeds_projectUntil intra inner).bind fun _ => trivial
        cases synchronises
  | critical id _ inductionHypothesis =>
      rw [Fragment.project]
      refine (inductionHypothesis numbered).bind fun body => ?_
      cases body with
      | none =>
          exact trivial
      | some inner =>
          exact (admits.succeeds_unsupported id _).bind fun _ => trivial
  | @operand guard fragments guardKnown _ inductionHypothesis =>
      have eachNumbered := Fragment.numbered_of_mem numbered
      rw [Fragment.project]
      refine (Fragment.succeeds_inSequence fun fragment member =>
        inductionHypothesis fragment member (eachNumbered fragment member)).bind fun body => ?_
      cases body with
      | none =>
          exact trivial
      | some inner =>
          cases guard with
          | none =>
              exact trivial
          | some condition =>
              exact (sound.succeeds_projectGuarded admits inner
                (guardKnown condition (by simp))).bind fun _ => trivial
  | deferred _ inductionHypothesis =>
      exact inductionHypothesis numbered

theorem sound_body (sound : setting.Sound) :
    ∀ fragment ∈ setting.body,
      fragment.Sound setting.specification setting.interaction.toDiagram :=
  sound.wellFormed.sound_bodyFragments sound.wellFormed.fragmentsAcyclic

/-- What a viewpoint sees of the body can be worked out. -/
theorem succeeds_projectSequence (sound : setting.Sound) (admits : setting.Admits allowed)
    (view : Viewpoint) : (setting.projectSequence view setting.body).Succeeds allowed := by
  have numbered : ∀ fragment ∈ setting.body, fragment.Numbered setting view :=
    Fragment.numbered_of_mem fun _ =>
      ⟨setting.meetings, sound.searched, fun _ recorded => recorded⟩
  exact Fragment.succeeds_inSequence fun fragment member =>
    sound.succeeds_project admits (sound.sound_body fragment member) (numbered fragment member)

theorem succeeds_projectBody (sound : setting.Sound) (admits : setting.Admits allowed)
    (view : Viewpoint) : (setting.projectBody view).Succeeds allowed :=
  (sound.succeeds_projectSequence admits view).bind fun _ => trivial

end Setting.Sound

namespace Specification

variable {specification : Specification} {id : InteractionId} {setting : Setting}

/-- A setting is that of the interaction at its place, with its meetings. -/
theorem setting_eq_ok_iff :
    specification.setting id = .ok setting ↔
      ∃ interaction meetings, specification.interaction id = .ok interaction ∧
        Fragment.listMeetings interaction.bodyFragments = .ok meetings ∧
        setting = { specification, id, interaction, meetings } := by
  simp only [Specification.setting, bind_eq_ok_iff, pure_eq_ok_iff]
  constructor
  · rintro ⟨interaction, placed, meetings, searched, rfl⟩
    exact ⟨interaction, meetings, placed, searched, rfl⟩
  · rintro ⟨interaction, meetings, placed, searched, rfl⟩
    exact ⟨interaction, placed, meetings, searched, rfl⟩

/-- A closed interaction without cycles has a setting, whose meetings stand in its
table. -/
theorem exists_setting {interaction : Interaction}
    (placed : specification.interaction id = .ok interaction)
    (closed : interaction.toDiagram.Closed specification)
    (acyclic : interaction.toDiagram.FragmentsAcyclic) :
    ∃ meetings, Fragment.listMeetings interaction.bodyFragments = .ok meetings ∧
      (∀ meeting ∈ meetings, meeting.StandsIn interaction.toDiagram) ∧
      specification.setting id = .ok { specification, id, interaction, meetings } := by
  obtain ⟨meetings, searched, stand⟩ := Fragment.exists_listMeetings fun fragment member =>
    (closed.sound_bodyFragments acyclic fragment member).exists_meetings
  exact ⟨meetings, searched, stand,
    setting_eq_ok_iff.mpr ⟨interaction, meetings, placed, searched, rfl⟩⟩

end Specification

end SequenceChart
