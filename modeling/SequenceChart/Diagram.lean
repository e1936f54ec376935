import SequenceChart.Message
import SequenceChart.Notice
import SequenceChart.Term

/-!
A sequence diagram is given by two tables, one of fragments and one of
expressions, whose entries refer to one another by position, together with the
list of fragments that make up its body.  One entry may be referred to many
times.
-/

namespace SequenceChart

/-- A lower and an upper limit, each of which may be absent. -/
structure Bound where
  lower : Option ExpressionId
  upper : Option ExpressionId
  deriving DecidableEq, Repr

def Bound.sides (bound : Bound) : List ExpressionId :=
  bound.lower.toList ++ bound.upper.toList

/-- Who decides between the operands of a branch. -/
inductive BranchKind where
  /-- The surroundings decide. -/
  | alt
  /-- The model decides by itself. -/
  | xalt
  /-- The surroundings decide, and may skip the operands. -/
  | opt
  deriving DecidableEq, Repr

inductive FragmentEntry where
  | message (content : Message)
  | wait (actor : ActorId) (units : ExpressionId)
  | deadlock (actor : ActorId)
  | create (actor created : ActorId)
  | loop (bound : Option Bound) (body : FragmentId)
  | branch (kind : BranchKind) (operands : List FragmentId)
  | par (operands : List FragmentId)
  | duration (owner : ActorId) (bound : Bound) (body : FragmentId)
  | deadline (owner : ActorId) (units : ExpressionId) (body : FragmentId)
  | until (intra : MessageSet) (body : FragmentId)
  | critical (body : FragmentId)
  | operand (guard : Option ExpressionId) (fragments : List FragmentId)
  deriving DecidableEq, Repr

inductive ExpressionEntry where
  | natural (value : Nat)
  | truth (value : Bool)
  | var (variableId : VariableId)
  | const (constantId : ConstantId)
  | unary (operator : UnaryOperator) (operand : ExpressionId)
  | binary (operator : BinaryOperator) (left right : ExpressionId)
  deriving DecidableEq, Repr

structure Diagram where
  name : String
  body : List FragmentId
  lifelines : List ActorId
  /-- The variables that the memory of the interaction keeps. -/
  locals : List VariableId
  fragments : Array FragmentEntry
  expressions : Array ExpressionEntry
  /-- Where fragments stand in the source; a later entry replaces an earlier one. -/
  locations : List (FragmentId × SourceSpan)
  deriving DecidableEq, Repr

def Diagram.location (diagram : Diagram) (fragment : FragmentId) : Option SourceSpan :=
  diagram.locations.foldl
    (fun found entry => if entry.1 = fragment then some entry.2 else found)
    none

end SequenceChart
