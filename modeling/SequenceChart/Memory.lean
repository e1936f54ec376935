import SequenceChart.Attempt
import SequenceChart.Declaration
import SequenceChart.Specification

/-!
Every interaction with variables has a memory module.  Processes read a
variable by a load and write it by a store; both name the memory of the
interaction that owns the variable.
-/

namespace SequenceChart

/-- The memory of variables that no interaction owns. -/
def orphanMemory : String :=
  "Memory_Orphan"

def memoryName (interactionName : String) : String :=
  "Memory_" ++ interactionName

/-- The items that are not among those seen before, each at its first place. -/
def unseenOccurrences {α : Type} [DecidableEq α] (seen : List α) : List α → List α
  | [] => []
  | item :: rest =>
      if item ∈ seen then
        unseenOccurrences seen rest
      else
        item :: unseenOccurrences (item :: seen) rest

/-- The list without repetitions, each item at its first place. -/
def firstOccurrences {α : Type} [DecidableEq α] (items : List α) : List α :=
  unseenOccurrences [] items

namespace Specification

variable (specification : Specification)

def memoryOf (id : VariableId) : Attempt String := do
  let found ← specification.variableAt id
  match found.owner with
  | some owner =>
      let interaction ← specification.interaction owner
      return memoryName interaction.name
  | none =>
      Attempt.log .warn ("variable `" ++ found.name ++
        "` is not scoped to an interaction, using " ++ orphanMemory)
      return orphanMemory

def accessTo (access : String → String → Event) (id : VariableId) : Attempt Event := do
  let found ← specification.variableAt id
  let memory ← specification.memoryOf id
  return access memory found.name

/-- The loads of the distinct variables of a list, in order. -/
def loads (ids : List VariableId) : Attempt (List Event) :=
  (firstOccurrences ids).mapM (specification.accessTo .load)

/-- The stores of the distinct variables of a list, in order. -/
def stores (ids : List VariableId) : Attempt (List Event) :=
  (firstOccurrences ids).mapM (specification.accessTo .store)

def cellChannels (memory name : String) : List String :=
  [qualified memory (getChannel name), qualified memory (setChannel name)]

def memoryChannels (id : InteractionId) : Except Fault (List String) := do
  let interaction ← specification.interaction id
  let kept ← interaction.locals.mapM specification.variableAt
  return kept.flatMap fun found =>
    cellChannels (memoryName interaction.name) found.name

def cellDeclaration (cell : Cell) : Declaration :=
  .channels [getChannel cell.name, setChannel cell.name] (some cell.type.text)

def memoryModule (id : InteractionId) : Except Fault (Option Declaration) := do
  let interaction ← specification.interaction id
  let kept ← interaction.locals.mapM specification.variableAt
  let cells := kept.map fun found => (⟨found.name, found.type⟩ : Cell)
  return if cells.isEmpty then
    none
  else
    some (.module (memoryName interaction.name) []
      (cells.map cellDeclaration ++ [.store ⟨cells⟩]))

end Specification

end SequenceChart
