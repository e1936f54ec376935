import SequenceChart.Event
import SequenceChart.ValueType

/-!
A store keeps the variables of one interaction.  It is a recursive process
whose parameters are the current values: for each variable it offers the
current value on one channel, and accepts a new one on another.
-/

namespace SequenceChart

/-- One variable of a store. -/
structure Cell where
  name : String
  type : ValueType
  deriving DecidableEq, Repr

/-- What a branch of the store does first. -/
inductive Access where
  /-- Offer the current value of a variable. -/
  | offer (name : String)
  /-- Accept a new value for a variable, bound to a name of its own. -/
  | accept (name binder : String)
  deriving DecidableEq, Repr

def Access.text : Access → String
  | .offer name => getChannel name ++ "!" ++ name
  | .accept name binder => setChannel name ++ "?" ++ binder

/-- A branch of the store: an access, and the arguments with which the store
goes on. -/
structure StoreBranch where
  access : Access
  arguments : List String
  deriving DecidableEq, Repr

/-- The variables of one interaction, in order. -/
structure Store where
  cells : List Cell
  deriving DecidableEq, Repr

namespace Store

def call (arguments : List String) : String :=
  application "Memory" arguments

/-- The names of the variables, which are the parameters of the store. -/
def parameters (store : Store) : List String :=
  store.cells.map Cell.name

/-- The name under which a new value of a variable arrives. -/
def arrival (name : String) : String :=
  name ++ "'"

def branchesAt (parameters : List String) (position : Nat) (name : String) :
    List StoreBranch :=
  [⟨.offer name, parameters⟩,
    ⟨.accept name (arrival name), parameters.set position (arrival name)⟩]

def branchesFrom (parameters : List String) : Nat → List String → List StoreBranch
  | _, [] => []
  | position, name :: rest =>
      branchesAt parameters position name ++ branchesFrom parameters (position + 1) rest

def branches (store : Store) : List StoreBranch :=
  branchesFrom store.parameters 0 store.parameters

def branchText (branch : StoreBranch) : String :=
  branch.access.text ++ " -> " ++ call branch.arguments

def definition (store : Store) : String :=
  call store.parameters ++ " =\n" ++
    indent 1 (joinWith "\n[] " (store.branches.map branchText))

/-- The choice of a first value where the type fixes none. -/
def choice (cell : Cell) : String :=
  match cell.type with
  | .named type => "|~| " ++ cell.name ++ " : " ++ type ++ " @ "
  | _ => ""

/-- The first value of a variable: zero, false, or a chosen one. -/
def initialValue (cell : Cell) : String :=
  match cell.type with
  | .nat => "0"
  | .int => "0"
  | .bool => "false"
  | .named _ => cell.name

def initialArguments (store : Store) : List String :=
  store.cells.map initialValue

def start (store : Store) : String :=
  concatenate (store.cells.map choice) ++ call store.initialArguments

/-- The definition of the started store, which hides the store process. -/
def text (store : Store) : String :=
  "Init =\n" ++ indent 1 (letWithin [store.definition] store.start)

end Store

end SequenceChart
