import SequenceChart.Report.WidthRanges

/-!
How many columns of a terminal a character takes, and which characters leave
a place blank.
-/

namespace SequenceChart

def inRanges (code : Nat) : List (Nat × Nat) → Bool
  | [] => false
  | (first, last) :: rest =>
      if code < first then false else code ≤ last || inRanges code rest

def isControl (code : Nat) : Bool :=
  code < 0x20 || (0x7f ≤ code && code < 0xa0)

/-- The columns of the character of a code point.  The first two cases are
Khmer letters that are drawn as several.  What has no column of its own has
none even where it counts as wide. -/
def codeWidth (code : Nat) : Nat :=
  if code = 0x17d8 then
    3
  else if code = 0x17a4 then
    2
  else if isControl code || inRanges code zeroWidthRanges then
    0
  else if inRanges code wideRanges then
    2
  else
    1

def tabStop : Nat :=
  4

/-- The columns a character takes when it starts at the given column.  A tab
reaches up to the next tab stop. -/
def columnsOf (column : Nat) (character : Char) : Nat :=
  if character = '\t' then
    tabStop - column % tabStop
  else
    codeWidth character.toNat

/-- Whether a character is blank: tabs, ends of lines and spaces of any kind. -/
def isBlank (character : Char) : Bool :=
  let code := character.toNat
  (0x09 ≤ code && code ≤ 0x0d) || code == 0x20 || code == 0x85 || code == 0xa0 ||
    code == 0x1680 || (0x2000 ≤ code && code ≤ 0x200a) || code == 0x2028 ||
    code == 0x2029 || code == 0x202f || code == 0x205f || code == 0x3000

end SequenceChart
