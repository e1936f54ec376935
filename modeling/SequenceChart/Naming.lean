import SequenceChart.Expression
import SequenceChart.Specification

/-!
An expression refers to variables and constants by position; the printed term
names them.  Variables are printed under their own name, under which they are
loaded, and constants under their qualified name.
-/

namespace SequenceChart

def Expression.term (specification : Specification) : Expression → Except Fault Term
  | .natural value => .ok (.natural value)
  | .truth value => .ok (.truth value)
  | .var id => do
      let found ← specification.variableAt id
      return .name found.name
  | .const id => do
      let found ← specification.constantAt id
      return .name found.qualifiedName
  | .unary operator operand => do
      let inner ← operand.term specification
      return .unary operator inner
  | .binary operator left right => do
      let leftTerm ← left.term specification
      let rightTerm ← right.term specification
      return .binary operator leftTerm rightTerm
  | .deferred content => (content ()).term specification
  | .unresolved fault => .error fault

namespace Specification

def termOf (specification : Specification) (diagram : Diagram) (id : ExpressionId) :
    Except Fault Term :=
  (diagram.expression id).term specification

/-- The direction of a message: only what the world sends comes in. -/
def directionOf (specification : Specification) (message : Message) :
    Except Fault Direction := do
  let sender ← specification.actor message.sender
  return if sender.isWorld then .incoming else .outgoing

def untitled : String :=
  "Untitled_Group__"

/-- The namespace of a group.  An untitled group is named for its position and
the specification; a given name that could be mistaken for such a one is
marked. -/
def groupName (specification : Specification) (id : GroupId) : Except Fault String := do
  let found ← specification.group id
  return match found.name with
    | some name => if name.startsWith untitled then "A_" ++ name else name
    | none => untitled ++ toString id.index ++ "_" ++ specification.name

def lifelineName (specification : Specification) (id : ActorId) : Except Fault String := do
  let found ← specification.actor id
  return "Lifeline_" ++ found.name

end Specification

end SequenceChart
