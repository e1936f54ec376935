/-!
The entities of a specification live in tables and refer to one another by
their position in the table that holds them.  An identifier remembers which
table it points into, so positions of different kinds never mix.
-/

namespace SequenceChart

/-- The tables whose entries are referred to by position. -/
inductive Table where
  | group
  | interaction
  | fragment
  | expression
  | actor
  | var
  | const
  | script
  deriving DecidableEq, Repr

def Table.label : Table → String
  | .group => "group"
  | .interaction => "interaction"
  | .fragment => "fragment"
  | .expression => "expr"
  | .actor => "actor"
  | .var => "var"
  | .const => "const"
  | .script => "csp"

/-- A position in one of the tables.  It may lie outside of the table. -/
structure TableId (table : Table) where
  index : Nat
  deriving DecidableEq, Repr

def TableId.text {table : Table} (id : TableId table) : String :=
  table.label ++ toString id.index

abbrev GroupId := TableId .group

abbrev InteractionId := TableId .interaction

abbrev FragmentId := TableId .fragment

abbrev ExpressionId := TableId .expression

abbrev ActorId := TableId .actor

abbrev VariableId := TableId .var

abbrev ConstantId := TableId .const

abbrev ScriptId := TableId .script

end SequenceChart
