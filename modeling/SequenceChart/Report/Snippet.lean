import SequenceChart.Layout
import SequenceChart.Report.Palette
import SequenceChart.Report.Source

/-!
A report with a place shows the lines around it, with a frame on the left and
marks below or beside the place.  A place on one line is underlined; a longer
one is bracketed, and its middle is left out if it has many lines.
-/

namespace SequenceChart

def repeated (count : Nat) (text : String) : String :=
  concatenate (List.replicate count text)

def totalWidth : List Glyph → Nat
  | [] => 0
  | glyph :: rest => glyph.width + totalWidth rest

/-- A glyph as it is shown; a tab is shown by blanks. -/
def Glyph.text (glyph : Glyph) : String :=
  if glyph.character = '\t' then
    repeated glyph.width " "
  else
    String.singleton glyph.character

/-- Whether a glyph has a byte in the stretch from `first` up to `last`. -/
def Glyph.overlaps (glyph : Glyph) (first last : Nat) : Bool :=
  glyph.start < last && first < glyph.stop

/-- A report's place in the lines of a file, and how to show it. -/
structure Snippet where
  palette : Palette
  severity : Severity
  message : String
  fileName : String
  lines : List SourceLine
  start : Nat
  stop : Nat
  deriving DecidableEq, Repr

namespace Snippet

variable (snippet : Snippet)

def firstLine : Nat :=
  lineIndex snippet.lines snippet.start

def lastLine : Nat :=
  lineIndex snippet.lines snippet.stop

def line (index : Nat) : SourceLine :=
  snippet.lines.getD index ⟨0, []⟩

def isSingle : Bool :=
  snippet.firstLine = snippet.lastLine

/-- Whether there is room for the place.  A place on one line takes a byte at
least, and the offset behind that byte has to exist. -/
def hasRoom : Bool :=
  !snippet.isSingle || snippet.start - (snippet.line snippet.firstLine).start < largestOffset

def numberWidth : Nat :=
  max (toString (snippet.firstLine + 1)).length (toString (snippet.lastLine + 1)).length

def marked (text : String) : String :=
  snippet.palette.paint (.mark snippet.severity) text

def margin : String :=
  repeated (snippet.numberWidth + 1) " "

def bar : String :=
  snippet.palette.paint .frame "│"

def numbered (index : Nat) : String :=
  let number := toString (index + 1)
  snippet.palette.paint .frame (repeated (snippet.numberWidth - number.length) " " ++ number) ++
    " " ++ snippet.bar

/-- Glyphs with marks around each run of chosen ones, piece by piece; `inside`
says whether a run is going on, and `shown` how a glyph is written. -/
def runPieces (chosen : Glyph → Bool) (shown : Glyph → String) :
    Bool → List Glyph → List String
  | inside, [] => [if inside then snippet.palette.reset else ""]
  | inside, glyph :: rest =>
      (if chosen glyph && !inside then
          snippet.palette.set (.mark snippet.severity)
        else if !chosen glyph && inside then
          snippet.palette.reset
        else
          "") ::
        shown glyph :: runPieces chosen shown (chosen glyph) rest

/-- Glyphs with marks around each run of chosen ones. -/
def runs (chosen : Glyph → Bool) (shown : Glyph → String) (glyphs : List Glyph) : String :=
  concatenate (snippet.runPieces chosen shown false glyphs)

def source (chosen : Glyph → Bool) (index : Nat) : String :=
  " " ++ snippet.runs chosen Glyph.text (snippet.line index).glyphs ++ "\n"

/-- How a glyph is underlined, or passed over on the way to the place. -/
def underline (first last : Nat) (glyph : Glyph) : String :=
  if glyph.overlaps first last then
    repeated glyph.width "^"
  else if glyph.start < last then
    repeated glyph.width " "
  else
    ""

/-- The line of the place with the message below it.  An empty place is shown
one byte long, and may lie behind the last character. -/
def singleLine : String :=
  let index := snippet.firstLine
  let shown := snippet.line index
  let first := snippet.start - shown.start
  let last := max (snippet.stop - shown.start) (first + 1)
  let size := byteLength shown.visible
  let behind : Glyph := ⟨' ', size, size + 1, 1⟩
  snippet.numbered index ++ snippet.source (fun glyph => glyph.overlaps first last) index ++
    snippet.margin ++ snippet.bar ++ " " ++
    snippet.runs (fun glyph => glyph.overlaps first last) (underline first last)
      (shown.glyphs ++ [behind]) ++
    (if snippet.message.isEmpty then "" else " " ++ snippet.marked snippet.message) ++ "\n"

/-- The line on which the place starts.  The bracket starts in front of the
line if only blanks precede the place, and below it otherwise. -/
def openingLine : String :=
  let index := snippet.firstLine
  let shown := snippet.line index
  let first := snippet.start - shown.start
  let text := snippet.source (fun glyph => first ≤ glyph.start) index
  if first ≤ shown.indentation then
    snippet.numbered index ++ " " ++ snippet.marked "╭" ++ text
  else
    let before := shown.glyphs.filter fun glyph => glyph.start < first + 1
    snippet.numbered index ++ "  " ++ text ++
      snippet.margin ++ snippet.bar ++ " " ++ snippet.marked "╭" ++
      snippet.marked (repeated (totalWidth before) "─" ++ "^") ++ "\n"

def closingLine : String :=
  let index := snippet.lastLine
  let shown := snippet.line index
  let last := snippet.stop - shown.start
  let before := shown.glyphs.filter fun glyph => glyph.start < last
  snippet.numbered index ++ " " ++ snippet.marked "│" ++
    snippet.source (fun glyph => glyph.stop ≤ last) index ++
    snippet.margin ++ snippet.bar ++ " " ++ snippet.marked "╰" ++
    snippet.marked (repeated (totalWidth before) "─" ++ "^" ++
      (if snippet.message.isEmpty then "" else " " ++ snippet.message)) ++ "\n"

def isReversed : Bool :=
  snippet.lastLine < snippet.firstLine

def innerLine (index : Nat) : String :=
  if snippet.isReversed then
    snippet.numbered index ++ "  " ++ snippet.source (fun _ => false) index
  else
    snippet.numbered index ++ " " ++ snippet.marked "│" ++ snippet.source (fun _ => true) index

def shownLine (index : Nat) : String :=
  if index = snippet.firstLine then
    snippet.openingLine
  else if index = snippet.lastLine then
    snippet.closingLine
  else
    snippet.innerLine index

/-- What stands for lines that are left out below a line. -/
def omission (above : Nat) : String :=
  snippet.margin ++ snippet.palette.paint .frame "·" ++
    (if above = snippet.firstLine then "  " else " " ++ snippet.marked "│") ++ "\n"

/-- The lines that are shown for their own sake, from top to bottom: both ends
of the place, the three lines below its start and the one above its end. -/
def shownIndices : List Nat :=
  if snippet.isReversed then
    [snippet.lastLine, snippet.firstLine]
  else
    let first := snippet.firstLine
    let last := snippet.lastLine
    (List.range' first (last + 1 - first)).filter fun index =>
      index - first ≤ 3 || last - index ≤ 1

/-- Shown lines one below the other.  A gap of one line is filled by that
line, a longer one is left out. -/
def stacked : List Nat → String
  | [] => ""
  | [only] => snippet.shownLine only
  | index :: next :: rest =>
      snippet.shownLine index ++
        (if next - index = 2 then
            snippet.innerLine (index + 1)
          else if 2 < next - index then
            snippet.omission index
          else
            "") ++
        stacked (next :: rest)

/-- The report: what it says, where the place is, and the source there. -/
def text : String :=
  snippet.palette.set (.heading snippet.severity) ++ snippet.severity.label ++
    snippet.palette.set .strong ++ ": " ++ snippet.message ++ snippet.palette.reset ++ "\n" ++
    snippet.margin ++ snippet.palette.paint .frame "┌─" ++ " " ++ snippet.fileName ++ ":" ++
    toString (snippet.firstLine + 1) ++ ":" ++
    toString ((snippet.line snippet.firstLine).column snippet.start) ++ "\n" ++
    snippet.margin ++ snippet.bar ++ (if snippet.isSingle then "" else "  ") ++ "\n" ++
    (if snippet.isSingle then snippet.singleLine else snippet.stacked snippet.shownIndices) ++ "\n"

end Snippet

end SequenceChart
