import SequenceChart.Diagram
import SequenceChart.Fault

/-!
An expression is an entry of a diagram's table with everything it refers to.
References are followed only when they are needed: many paths may lead to one
entry, and a fault on the first of them makes all others irrelevant.  A
reference that leads nowhere becomes a leaf that holds the fault, which is
raised only if the expression is used.
-/

namespace SequenceChart

/-- Expressions as trees, of which parts may be deferred. -/
inductive Expression where
  | natural (value : Nat)
  | truth (value : Bool)
  | var (variableId : VariableId)
  | const (constantId : ConstantId)
  | unary (operator : UnaryOperator) (operand : Expression)
  | binary (operator : BinaryOperator) (left right : Expression)
  /-- An expression that is worked out when it is needed. -/
  | deferred (content : Unit → Expression)
  | unresolved (fault : Fault)

namespace Diagram

def unfoldExpression (diagram : Diagram) : Nat → ExpressionId → Expression
  | 0, _ => .unresolved .cyclicReference
  | depth + 1, id =>
      let later := fun operand =>
        Expression.deferred fun _ => diagram.unfoldExpression depth operand
      match entryAt diagram.expressions id.index with
      | .error fault => .unresolved fault
      | .ok (.natural value) => .natural value
      | .ok (.truth value) => .truth value
      | .ok (.var variableId) => .var variableId
      | .ok (.const constantId) => .const constantId
      | .ok (.unary operator operand) => .unary operator (later operand)
      | .ok (.binary operator left right) => .binary operator (later left) (later right)

/-- The expression at a position.  No chain of distinct entries is longer than
the table, so only references that lead back to themselves are cut off. -/
def expression (diagram : Diagram) (id : ExpressionId) : Expression :=
  diagram.unfoldExpression (diagram.expressions.size + 1) id

end Diagram

namespace Expression

def reads : Expression → Except Fault (List VariableId)
  | .natural _ => .ok []
  | .truth _ => .ok []
  | .var variableId => .ok [variableId]
  | .const _ => .ok []
  | .unary _ operand => operand.reads
  | .binary _ left right => do
      let leftReads ← left.reads
      let rightReads ← right.reads
      return leftReads ++ rightReads
  | .deferred content => (content ()).reads
  | .unresolved fault => .error fault

def isZero : Expression → Except Fault Bool
  | .natural value => .ok (value == 0)
  | .deferred content => (content ()).isZero
  | .unresolved fault => .error fault
  | _ => .ok false

end Expression

end SequenceChart
