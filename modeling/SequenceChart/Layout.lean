import SequenceChart.Fault

/-!
Joining pieces of text, cutting text into lines, and shifting lines to the
right.  Everything here works on text alone.
-/

namespace SequenceChart

def appendAll (text : String) (pieces : List String) : String :=
  pieces.foldl (fun sofar piece => sofar ++ piece) text

/-- A text in front of all pieces can be set apart. -/
theorem appendAll_append (pieces : List String) (text more : String) :
    appendAll (text ++ more) pieces = text ++ appendAll more pieces := by
  induction pieces generalizing more with
  | nil =>
      rfl
  | cons piece rest inductionHypothesis =>
      simp only [appendAll, List.foldl_cons, String.append_assoc] at inductionHypothesis ⊢
      exact inductionHypothesis (more ++ piece)

def concatenate (pieces : List String) : String :=
  appendAll "" pieces

@[simp]
theorem concatenate_cons (piece : String) (rest : List String) :
    concatenate (piece :: rest) = piece ++ concatenate rest := by
  have apart := appendAll_append rest piece ""
  simpa [concatenate, appendAll] using apart

/-- The pieces with a separator between neighbours. -/
def joinWith (separator : String) : List String → String
  | [] => ""
  | piece :: rest => appendAll piece (rest.map fun next => separator ++ next)

@[simp]
theorem joinWith_cons_cons (separator piece next : String) (rest : List String) :
    joinWith separator (piece :: next :: rest) =
      piece ++ separator ++ joinWith separator (next :: rest) := by
  have apart :=
    appendAll_append (rest.map fun later => separator ++ later) (piece ++ separator) next
  simpa [joinWith, appendAll, String.append_assoc] using apart

/-- A list of pieces as it is written between brackets. -/
def commaSeparated (pieces : List String) : String :=
  joinWith ", " pieces

/-- A function with its arguments, or the bare function without arguments. -/
def application (function : String) (arguments : List String) : String :=
  if arguments.isEmpty then
    function
  else
    function ++ "(" ++ commaSeparated arguments ++ ")"

def qualified (space name : String) : String :=
  space ++ "::" ++ name

/-- A comment, which may stand wherever a blank may. -/
def comment (text : String) : String :=
  "\x7b- " ++ text ++ " -\x7d"

def inclusion (file : String) : String :=
  "include \"" ++ file ++ "\""

/-- The lines of a list of characters.  A line feed ends a line, together with
one carriage return right before it.  Nothing stands behind the last end of
line, so a text that ends in one has no empty last line. -/
def characterLines : List Char → List (List Char)
  | [] => []
  | '\n' :: rest => [] :: characterLines rest
  | '\r' :: '\n' :: rest => [] :: characterLines rest
  | character :: rest =>
      match characterLines rest with
      | [] => [[character]]
      | line :: others => (character :: line) :: others

def textLines (text : String) : List String :=
  (characterLines text.toList).map String.ofList

/-- A line moved right by two blanks a level; an empty line stays empty. -/
def indentLine (level : Nat) (line : String) : String :=
  if line.isEmpty then
    line
  else
    String.ofList (List.replicate (2 * level) ' ') ++ line

def indent (level : Nat) (text : String) : String :=
  joinWith "\n" ((textLines text).map (indentLine level))

def largestTextSize : Nat :=
  0x7fffffffffffffff

/-- Every line moved right by a level that callers choose.  The blanks in front
of a line have to fit into a text. -/
def indentBy (level : Nat) (text : String) : Except Fault String :=
  if largestTextSize < 2 * level && (textLines text).any (fun line => !line.isEmpty) then
    .error .textTooLong
  else
    .ok (indent level text)

/-- Local definitions, each indented, in front of the text that uses them. -/
def letWithin (definitions : List String) (body : String) : String :=
  "let\n" ++ joinWith "\n" (definitions.map (indent 1)) ++
    "\nwithin\n" ++ indent 1 body

end SequenceChart
