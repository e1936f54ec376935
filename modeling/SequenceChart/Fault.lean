import SequenceChart.Handshake
import SequenceChart.Identifier

/-!
A fault is a breach of what callers promise about a specification: references
stay inside their tables, loop bounds have a side, places in source files have
an end, texts have a size, and so on.  A fault ends the work that met it.  Looking
up a name that nobody has is no fault, and has an error type of its own.
-/

namespace SequenceChart

/-- The ways in which a specification can break its callers' promises. -/
inductive Fault where
  /-- A position outside of a table of the given length. -/
  | outOfRange (length index : Nat)
  /-- No actor has the name that was asked for. -/
  | missingActor
  /-- A second actor of the same name. -/
  | duplicateActor (name : String)
  /-- A loop bound with neither side. -/
  | emptyBound
  /-- A parallel composition of no participants. -/
  | noParticipants
  /-- A fragment that takes part in a handshake but was never numbered. -/
  | unrecorded (fragment : FragmentId) (kind : HandshakeKind)
  /-- A fragment that was numbered as an until fragment but is another one. -/
  | notUntil (fragment : FragmentId)
  /-- A lifeline composed behind the process that runs until bodies. -/
  | untilNotLast
  /-- A number taken from a smaller one. -/
  | subtractionOverflow
  /-- References that lead back to where they started. -/
  | cyclicReference
  /-- A place in a source file with no offset left behind its first byte. -/
  | offsetOverflow
  /-- A text longer than any text can be. -/
  | textTooLong
  deriving DecidableEq, Repr

def Fault.message : Fault → String
  | .outOfRange length index =>
      "index out of bounds: the len is " ++ toString length ++
        " but the index is " ++ toString index
  | .missingActor => "no entry found for key"
  | .duplicateActor name => "we already have an actor named " ++ name ++ "!"
  | .emptyBound => "loop bound without a lower or an upper side"
  | .noParticipants => "generalized parallel needs at least one process"
  | .unrecorded fragment kind =>
      fragment.text ++ " was not recorded as a " ++ kind.label ++
        " fragment when the context was built"
  | .notUntil fragment =>
      fragment.text ++ " was recorded as an until fragment but is not one"
  | .untilNotLast =>
      "internal error: entered unreachable code: " ++
        "the until process is always composed last"
  | .subtractionOverflow => "attempt to subtract with overflow"
  | .cyclicReference => "reference leads back to itself"
  | .offsetOverflow => "attempt to add with overflow"
  | .textTooLong => "capacity overflow"

def entryAt {α : Type} (entries : Array α) (index : Nat) : Except Fault α :=
  match entries[index]? with
  | some entry => .ok entry
  | none => .error (.outOfRange entries.size index)

def oneLess : Nat → Except Fault Nat
  | 0 => .error .subtractionOverflow
  | number + 1 => .ok number

/-- A name that was looked up and that nothing carries. -/
inductive LookupError where
  | unknownInteraction (name : String)
  | unknownGroup (name : String)
  deriving DecidableEq, Repr

def LookupError.message : LookupError → String
  | .unknownInteraction name => "no interaction named `" ++ name ++ "`"
  | .unknownGroup name => "no group named `" ++ name ++ "`"

end SequenceChart
