import SequenceChart.Identifier

/-!
What is to be checked about the processes of a specification: that one
refines another, that one has a general good property, or that an interaction
and the target of its group belong together.
-/

namespace SequenceChart

/-- Anything that denotes a process in a property. -/
inductive Subject where
  | interaction (id : InteractionId)
  | target (group : GroupId)
  | script (id : ScriptId)
  deriving DecidableEq, Repr

def Subject.label : Subject → String
  | .interaction id => "Interaction(" ++ id.text ++ ")"
  | .target group => "Target(" ++ group.text ++ ")"
  | .script id => "Csp(" ++ id.text ++ ")"

/-- The semantic model in which a property is checked. -/
inductive SemanticModel where
  | trace
  | timed
  deriving DecidableEq, Repr

/-- Refinement in one direction or in both. -/
inductive RefinementOperator where
  | refines
  | equals
  deriving DecidableEq, Repr

/-- The left process refines, or equals, the right one. -/
structure Refinement where
  model : SemanticModel
  operator : RefinementOperator
  negated : Bool
  left : Subject
  right : Subject
  deriving DecidableEq, Repr

def Refinement.swapped (property : Refinement) : Refinement :=
  { property with left := property.right, right := property.left }

/-- General good properties of one process. -/
inductive CoreKind where
  | deterministic
  | deadlockFree
  | divergenceFree
  | timelockFree
  deriving DecidableEq, Repr

structure CoreProperty where
  kind : CoreKind
  model : SemanticModel
  negated : Bool
  subject : Subject
  deriving DecidableEq, Repr

/-- How an interaction relates to the target of its group. -/
inductive SequenceKind where
  /-- The interaction allows all that the target does. -/
  | holds
  /-- The target can do all that the interaction does. -/
  | observed
  deriving DecidableEq, Repr

/-- A property of an interaction and the target of its group. -/
structure SequenceProperty where
  kind : SequenceKind
  model : SemanticModel
  negated : Bool
  interaction : InteractionId
  deriving DecidableEq, Repr

inductive Property where
  | refinement (property : Refinement)
  | core (property : CoreProperty)
  | sequence (property : SequenceProperty)
  deriving DecidableEq, Repr

end SequenceChart
