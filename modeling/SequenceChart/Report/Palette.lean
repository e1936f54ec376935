import SequenceChart.Notice

/-!
Reports may be coloured by escape sequences of a terminal.  Every change of
style first takes back the style before it.
-/

namespace SequenceChart

inductive Style where
  | plain
  /-- The title of a report without a place. -/
  | title (severity : Severity)
  /-- The word that starts a report with a place. -/
  | heading (severity : Severity)
  | strong
  /-- Marks in the source and the words beside them. -/
  | mark (severity : Severity)
  /-- Line numbers and the lines that frame the source. -/
  | frame
  deriving DecidableEq, Repr

def escapeSequence (code : String) : String :=
  "\x1b[" ++ code ++ "m"

def Style.codes : Style → String
  | .plain => ""
  | .title .error => escapeSequence "1" ++ escapeSequence "31"
  | .title .warning => escapeSequence "1" ++ escapeSequence "33"
  | .heading .error => escapeSequence "1" ++ escapeSequence "38;5;9"
  | .heading .warning => escapeSequence "1" ++ escapeSequence "38;5;11"
  | .strong => escapeSequence "1"
  | .mark .error => escapeSequence "31"
  | .mark .warning => escapeSequence "33"
  | .frame => escapeSequence "34"

/-- Whether reports are coloured at all. -/
structure Palette where
  coloured : Bool
  deriving DecidableEq, Repr

namespace Palette

def set (palette : Palette) (style : Style) : String :=
  if palette.coloured then escapeSequence "0" ++ style.codes else ""

def reset (palette : Palette) : String :=
  palette.set .plain

def paint (palette : Palette) (style : Style) (text : String) : String :=
  palette.set style ++ text ++ palette.reset

end Palette

end SequenceChart
