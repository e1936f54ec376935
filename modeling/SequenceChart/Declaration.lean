import SequenceChart.Behaviour
import SequenceChart.Store

/-!
Generated files are made of declarations: channels, definitions, and modules
that group further declarations into a private and an exported part.
-/

namespace SequenceChart

/-- The definition of a process, which may depend on values and on a process
that is called `P` in the body. -/
structure Definition where
  name : String
  parameters : List String
  takesProcess : Bool
  body : Behaviour
  deriving DecidableEq, Repr

namespace Definition

def head (definition : Definition) : String :=
  application definition.name definition.parameters ++
    (if definition.takesProcess then "(P)" else "")

def text (definition : Definition) : String :=
  definition.head ++ " = " ++ definition.body.written

end Definition

/-- What stands in a file or a module. -/
inductive Declaration where
  | verbatim (text : String)
  /-- Channels with the type of their values, if they carry any. -/
  | channels (names : List String) (type : Option String)
  /-- A name for a set of events. -/
  | events (name : String) (set : EventSet)
  /-- A name for a value. -/
  | value (name : String) (term : Term)
  | definition (content : Definition)
  /-- The memory of an interaction. -/
  | store (content : Store)
  | module (name : String) (hidden exported : List Declaration)
  deriving Repr

namespace Declaration

/-- The definition of a process without parameters. -/
def process (name : String) (body : Behaviour) : Declaration :=
  .definition ⟨name, [], false, body⟩

mutual

def text : Declaration → String
  | .verbatim text => text
  | .channels names type =>
      "channel " ++ commaSeparated names ++
        (match type with
        | some type => " : " ++ type
        | none => "")
  | .events name set => name ++ " = " ++ set.text
  | .value name term => name ++ " = " ++ term.text
  | .definition content => content.text
  | .store content => content.text
  | .module name hidden exported =>
      "module " ++ name ++ "\n" ++ concatenate (itemTexts hidden) ++
        "exports\n" ++ concatenate (itemTexts exported) ++ "endmodule"

/-- The items of a module, indented and each followed by an end of line. -/
def itemTexts : List Declaration → List String
  | [] => []
  | item :: rest => (indent 1 item.text ++ "\n") :: itemTexts rest

end

end Declaration

end SequenceChart
