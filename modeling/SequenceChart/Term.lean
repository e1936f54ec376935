/-!
Terms are expressions with names in place of references, ready to be printed.
Two unary operators never meet without a parenthesis, so that a pair of minus
signs does not start a comment.
-/

namespace SequenceChart

/-- Operators in front of one operand. -/
inductive UnaryOperator where
  | not
  | neg
  deriving DecidableEq, Repr

def UnaryOperator.symbol : UnaryOperator → String
  | .not => "not "
  | .neg => "-"

/-- Operators between two operands. -/
inductive BinaryOperator where
  | add
  | sub
  | mul
  | div
  | mod
  | eq
  | ne
  | lt
  | le
  | gt
  | ge
  | and
  | or
  deriving DecidableEq, Repr

def BinaryOperator.symbol : BinaryOperator → String
  | .add => "+"
  | .sub => "-"
  | .mul => "*"
  | .div => "/"
  | .mod => "%"
  | .eq => "=="
  | .ne => "!="
  | .lt => "<"
  | .le => "<="
  | .gt => ">"
  | .ge => ">="
  | .and => "and"
  | .or => "or"

/-- Expressions over natural numbers, truth values and names. -/
inductive Term where
  | natural (value : Nat)
  | truth (value : Bool)
  | name (identifier : String)
  | unary (operator : UnaryOperator) (operand : Term)
  | binary (operator : BinaryOperator) (left right : Term)
  deriving DecidableEq, Repr

namespace Term

def isUnary : Term → Bool
  | .unary _ _ => true
  | _ => false

def isCompound : Term → Bool
  | .unary _ _ => true
  | .binary _ _ _ => true
  | _ => false

/-- The printed term.  A binary operator is parenthesised when it stands under
another operator, a unary one when it stands under a unary one. -/
def render (nested : Bool) : Term → String
  | .natural value => toString value
  | .truth true => "true"
  | .truth false => "false"
  | .name identifier => identifier
  | .unary operator operand =>
      if operand.isUnary then
        operator.symbol ++ "(" ++ operand.render true ++ ")"
      else
        operator.symbol ++ operand.render true
  | .binary operator left right =>
      let body := left.render true ++ " " ++ operator.symbol ++ " " ++ right.render true
      if nested then "(" ++ body ++ ")" else body

def text (term : Term) : String :=
  term.render false

end Term

end SequenceChart
