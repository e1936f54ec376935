import SequenceChart.Report.Width

/-!
A source file is cut into lines, and a line into characters that know where
they stand in the line, counted in bytes, and how wide they are.
-/

namespace SequenceChart

structure SourceFile where
  name : String
  content : String
  deriving DecidableEq, Repr

def largestOffset : Nat :=
  0xffffffffffffffff

/-- Cut characters behind every line feed.  The last piece may be empty. -/
def cutLines : List Char → List (List Char)
  | [] => [[]]
  | character :: rest =>
      if character = '\n' then
        [character] :: cutLines rest
      else
        match cutLines rest with
        | [] => [[character]]
        | line :: others => (character :: line) :: others

def byteLength : List Char → Nat
  | [] => 0
  | character :: rest => character.utf8Size + byteLength rest

/-- A line of a file: the byte at which it starts, and its characters together
with the end of the line. -/
structure SourceLine where
  start : Nat
  characters : List Char
  deriving DecidableEq, Repr

def linesFrom : Nat → List (List Char) → List SourceLine
  | _, [] => []
  | start, line :: rest => ⟨start, line⟩ :: linesFrom (start + byteLength line) rest

def SourceFile.lines (file : SourceFile) : List SourceLine :=
  linesFrom 0 (cutLines file.content.toList)

/-- The line of a byte, the last one that starts at or before it. -/
def lineIndex (lines : List SourceLine) (offset : Nat) : Nat :=
  (lines.filter fun line => line.start ≤ offset).length - 1

/-- A character at its place in a line: its bytes, from `start` up to `stop`,
and its columns. -/
structure Glyph where
  character : Char
  start : Nat
  stop : Nat
  width : Nat
  deriving DecidableEq, Repr

def glyphsFrom : Nat → Nat → List Char → List Glyph
  | _, _, [] => []
  | start, column, character :: rest =>
      let width := columnsOf column character
      let stop := start + character.utf8Size
      ⟨character, start, stop, width⟩ :: glyphsFrom stop (column + width) rest

def endsLine (character : Char) : Bool :=
  character = '\n' || character = '\r' || character = '\x00'

namespace SourceLine

def visible (line : SourceLine) : List Char :=
  (line.characters.reverse.dropWhile endsLine).reverse

def glyphs (line : SourceLine) : List Glyph :=
  glyphsFrom 0 0 line.visible

def indentation (line : SourceLine) : Nat :=
  byteLength (line.visible.takeWhile isBlank)

/-- The column of a byte, counted in whole characters from one. -/
def column (line : SourceLine) (offset : Nat) : Nat :=
  1 + ((glyphsFrom 0 0 line.characters).filter fun glyph =>
    line.start + glyph.stop ≤ offset).length

end SourceLine

end SequenceChart
