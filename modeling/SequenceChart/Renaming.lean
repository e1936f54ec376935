import SequenceChart.Layout

/-!
A renaming replaces channels of a process by others.  Its pairs are applied in
the order in which they were added, and repetitions are kept.
-/

namespace SequenceChart

/-- Pairs of an old channel and the new one. -/
structure Renaming where
  pairs : List (String × String)
  deriving DecidableEq, Repr

namespace Renaming

def add (clause : Renaming) (old new : String) : Renaming :=
  ⟨clause.pairs ++ [(old, new)]⟩

def isEmpty (clause : Renaming) : Bool :=
  clause.pairs.isEmpty

/-- The printed renaming, which is empty if nothing is renamed. -/
def text (clause : Renaming) : String :=
  if clause.isEmpty then
    ""
  else
    "[[ " ++ commaSeparated (clause.pairs.map fun pair => pair.1 ++ " <- " ++ pair.2) ++
      " ]]"

def applyTo (clause : Renaming) (process : String) : String :=
  if clause.isEmpty then
    process
  else
    process ++ " " ++ clause.text

end Renaming

end SequenceChart
