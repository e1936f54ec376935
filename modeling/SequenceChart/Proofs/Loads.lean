import SequenceChart.Proofs.ProjectionSuccess

/-!
# Accesses to variables

An expression mentions variables, itself or through the expressions it refers to.
The loads in front of a process are exactly those of the variables that one of
its expressions mentions.
-/

namespace SequenceChart

namespace Diagram

/-- References lead from the expression to the variable. -/
def Mentions (diagram : Diagram) (id : ExpressionId) (read : VariableId) : Prop :=
  ∃ (reached : ExpressionId) (entry : ExpressionEntry),
    Relation.ReflTransGen diagram.ExpressionRefers id reached ∧
      diagram.expressions[reached.index]? = some entry ∧ read ∈ entry.reads

variable {diagram : Diagram} {read : VariableId}

/-- An expression mentions what it reads itself and what its operands mention. -/
theorem mentions_iff {id : ExpressionId} {entry : ExpressionEntry}
    (present : diagram.expressions[id.index]? = some entry) :
    diagram.Mentions id read ↔
      read ∈ entry.reads ∨ ∃ child ∈ entry.children, diagram.Mentions child read := by
  constructor
  · rintro ⟨reached, last, path, lastPresent, isRead⟩
    rcases path.cases_head with rfl | ⟨child, ⟨parent, parentPresent, isChild⟩, further⟩
    · cases present.symm.trans lastPresent
      exact Or.inl isRead
    · cases present.symm.trans parentPresent
      exact Or.inr ⟨child, isChild, reached, last, further, lastPresent, isRead⟩
  · rintro (isRead | ⟨child, isChild, reached, last, further, lastPresent, isRead⟩)
    · exact ⟨id, entry, .refl, present, isRead⟩
    · exact ⟨reached, last, .head ⟨entry, present, isChild⟩ further, lastPresent, isRead⟩

/-- The variables that an expression reads are those it mentions. -/
theorem mem_reads_iff {depth : Nat} {id : ExpressionId} {ids : List VariableId}
    (done : (diagram.unfoldExpression depth id).reads = .ok ids) :
    read ∈ ids ↔ diagram.Mentions id read := by
  induction depth generalizing id ids with
  | zero =>
      cases done
  | succ depth inductionHypothesis =>
      rw [unfoldExpression] at done
      cases found : entryAt diagram.expressions id.index with
      | error fault =>
          rw [found] at done
          cases done
      | ok entry =>
          rw [found] at done
          rw [mentions_iff (entryAt_eq_ok_iff.mp found)]
          cases entry with
          | natural | truth | var | const =>
              cases done
              simp [ExpressionEntry.reads, ExpressionEntry.children]
          | unary operator operand =>
              simpa [ExpressionEntry.reads, ExpressionEntry.children] using
                inductionHypothesis done
          | binary operator left right =>
              obtain ⟨leftRead, leftDone, rest⟩ := bind_eq_ok_iff.mp done
              obtain ⟨rightRead, rightDone, last⟩ := bind_eq_ok_iff.mp rest
              cases last
              simp [ExpressionEntry.reads, ExpressionEntry.children,
                inductionHypothesis leftDone, inductionHypothesis rightDone]

end Diagram

namespace Specification

variable {specification : Specification} {access : String → String → Event}
  {ids : List VariableId} {events : List Event}

def IsAccess (specification : Specification) (access : String → String → Event)
    (id : VariableId) (event : Event) : Prop :=
  ∃ found memory, specification.variableAt id = .ok found ∧
    (specification.memoryOf id).result = .ok memory ∧ event = access memory found.name

private theorem isAccess_of_result {id : VariableId} {event : Event}
    (done : (specification.accessTo access id).result = .ok event) :
    specification.IsAccess access id event := by
  obtain ⟨found, foundDone, rest⟩ := Attempt.result_bind_eq_ok_iff.mp done
  obtain ⟨memory, memoryDone, last⟩ := Attempt.result_bind_eq_ok_iff.mp rest
  cases last
  exact ⟨found, memory, foundDone, memoryDone, rfl⟩

variable (done : ((firstOccurrences ids).mapM (specification.accessTo access)).result =
  .ok events)
include done

/-- Every access of a list is to one of the variables. -/
theorem exists_accessed {event : Event} (member : event ∈ events) :
    ∃ id ∈ ids, specification.IsAccess access id event := by
  rw [Attempt.result_mapM, mapM_eq_ok_iff] at done
  obtain ⟨id, isFirst, eventDone⟩ := exists_left_of_mem done member
  exact ⟨id, mem_firstOccurrences.mp isFirst, isAccess_of_result eventDone⟩

/-- Every one of the variables is accessed. -/
theorem exists_access {id : VariableId} (member : id ∈ ids) :
    ∃ event ∈ events, specification.IsAccess access id event := by
  rw [Attempt.result_mapM, mapM_eq_ok_iff] at done
  obtain ⟨event, isEvent, eventDone⟩ :=
    exists_right_of_mem done (mem_firstOccurrences.mpr member)
  exact ⟨event, isEvent, isAccess_of_result eventDone⟩

end Specification

namespace Setting

variable {setting : Setting} {ids : List ExpressionId} {loads : List Event}

theorem mem_readsOf_iff {read : List VariableId} (done : setting.readsOf ids = .ok read)
    {id : VariableId} :
    id ∈ read ↔ ∃ expression ∈ ids, setting.interaction.toDiagram.Mentions expression id := by
  obtain ⟨parts, partsDone, last⟩ := bind_eq_ok_iff.mp done
  cases last
  rw [mapM_eq_ok_iff] at partsDone
  rw [List.mem_flatten]
  constructor
  · rintro ⟨part, isPart, inPart⟩
    obtain ⟨expression, isGiven, partDone⟩ := exists_left_of_mem partsDone isPart
    exact ⟨expression, isGiven, (Diagram.mem_reads_iff partDone).mp inPart⟩
  · rintro ⟨expression, isGiven, mentioned⟩
    obtain ⟨part, isPart, partDone⟩ := exists_right_of_mem partsDone isGiven
    exact ⟨part, isPart, (Diagram.mem_reads_iff partDone).mpr mentioned⟩

variable (done : (setting.loadsOf ids).result = .ok loads)
include done

/-- Only variables that are mentioned are loaded. -/
theorem exists_mentioned {event : Event} (member : event ∈ loads) :
    ∃ expression ∈ ids, ∃ id, setting.interaction.toDiagram.Mentions expression id ∧
      setting.specification.IsAccess .load id event := by
  obtain ⟨read, readDone, loadsDone⟩ := Attempt.result_bind_eq_ok_iff.mp done
  obtain ⟨id, isRead, isAccess⟩ := Specification.exists_accessed loadsDone member
  obtain ⟨expression, isGiven, mentioned⟩ := (mem_readsOf_iff readDone).mp isRead
  exact ⟨expression, isGiven, id, mentioned, isAccess⟩

/-- All variables that are mentioned are loaded. -/
theorem exists_load {expression : ExpressionId} (given : expression ∈ ids) {id : VariableId}
    (mentioned : setting.interaction.toDiagram.Mentions expression id) :
    ∃ event ∈ loads, setting.specification.IsAccess .load id event := by
  obtain ⟨read, readDone, loadsDone⟩ := Attempt.result_bind_eq_ok_iff.mp done
  exact Specification.exists_access loadsDone
    ((mem_readsOf_iff readDone).mpr ⟨expression, given, mentioned⟩)

end Setting

end SequenceChart
