/-!
The types of variables, as the sets of their values.
-/

namespace SequenceChart

/-- The type of a variable. -/
inductive ValueType where
  | nat
  | int
  | bool
  | named (name : String)
  deriving DecidableEq, Repr

/-- The set of values of the type.  Both numeric types are bounded by the
largest natural number of the model. -/
def ValueType.text : ValueType → String
  | .nat => "Nat"
  | .int => "\x7b-NatMax..NatMax\x7d"
  | .bool => "Bool"
  | .named name => name

end SequenceChart
