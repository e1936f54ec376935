import SequenceChart.Attempt
import SequenceChart.Report.Snippet

/-!
The desk collects reports as text.  It knows the source files that reports
point into, counts warnings, and reports every fragment at most once, however
often it is rendered.  How a place in a file is drawn is up to a renderer.  A
report whose place cannot be shown is a fault, and ends the attempt that made it.
-/

namespace SequenceChart

/-- How the place of a report is drawn. -/
structure Renderer where
  draw : Palette → SourceFile → SourceSpan → Severity → String → Except Fault String
  /-- Whether a place can be drawn does not depend on what is said about it. -/
  ignoresMessage : ∀ palette file place severity message text,
    draw palette file place severity message = .ok text →
      ∀ other another, ∃ drawn, draw palette file place other another = .ok drawn

def Snippet.renderer : Renderer where
  draw palette file place severity message :=
    let snippet : Snippet :=
      ⟨palette, severity, message, file.name, file.lines, place.start, place.stop⟩
    if snippet.hasRoom then .ok snippet.text else .error .offsetOverflow
  ignoresMessage := by
    intro palette file place severity message text done other another
    dsimp only at done
    split at done
    · rename_i room
      exact ⟨_, if_pos room⟩
    · cases done

/-- The state of report keeping. -/
structure Desk where
  files : Array SourceFile
  /-- The fragments that were reported, the latest first. -/
  reported : List (InteractionId × FragmentId)
  text : String
  warnings : Nat
  palette : Palette
  renderer : Renderer

namespace Desk

def empty (coloured : Bool) : Desk where
  files := #[]
  reported := []
  text := ""
  warnings := 0
  palette := ⟨coloured⟩
  renderer := Snippet.renderer

variable (desk : Desk)

def addFile (name content : String) : Desk × Nat :=
  ({ desk with files := desk.files.push ⟨name, content⟩ }, desk.files.size)

def generalText (title message : String) (severity : Severity) : String :=
  desk.palette.paint (.title severity) title ++ ": " ++ message ++ "\n"

/-- A report with a place, or in plain words if its file is unknown. -/
def locatedText (location : SourceSpan) (title message : String) (severity : Severity) :
    Except Fault String :=
  match desk.files[location.file]? with
  | none => .ok (title ++ ": " ++ message ++ "\n")
  | some file => desk.renderer.draw desk.palette file location severity message

/-- Add the text of a report, and count it if it is a warning. -/
def append (severity : Severity) (text : String) : Desk :=
  { desk with
    text := desk.text ++ text
    warnings := if severity = .warning then desk.warnings + 1 else desk.warnings }

def fragmentText (location : Option SourceSpan) (title message : String)
    (severity : Severity) : Except Fault String :=
  match location with
  | some place => desk.locatedText place title message severity
  | none => .ok (desk.generalText title message severity)

def receive : Report → Except Fault Desk
  | .general title message severity =>
      .ok (desk.append severity (desk.generalText title message severity))
  | .fragment interaction fragment interactionName location message severity =>
      if desk.reported.contains (interaction, fragment) then
        .ok desk
      else do
        let title := severity.title ++ " in interaction " ++ interactionName
        let text ← desk.fragmentText location title message severity
        let noted := { desk with reported := (interaction, fragment) :: desk.reported }
        return noted.append severity text

/-- Take in one notice, of which only reports matter. -/
def attend : Notice → Except Fault Desk
  | .log _ _ => .ok desk
  | .report content => desk.receive content

end Desk

/-- What became of an attempt: the notices up to its end, and either a fault or
the desk at the end and the value. -/
structure Outcome (α : Type) where
  notices : List Notice
  result : Except Fault (Desk × α)

namespace Desk

/-- Carry out an attempt while its notices are taken in, behind those that were
taken in already, the latest of them first.  A report that cannot be shown
breaks it off. -/
def followAfter {α : Type} (desk : Desk) (earlier : List Notice) : Attempt α → Outcome α
  | .finished result => ⟨earlier.reverse, result.map fun value => (desk, value)⟩
  | .noticing notice rest =>
      match desk.attend notice with
      | .ok later => later.followAfter (notice :: earlier) (rest ())
      | .error fault => ⟨(notice :: earlier).reverse, .error fault⟩

def follow {α : Type} (desk : Desk) (attempt : Attempt α) : Outcome α :=
  desk.followAfter [] attempt

end Desk

end SequenceChart
