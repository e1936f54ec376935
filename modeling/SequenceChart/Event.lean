import SequenceChart.Handshake
import SequenceChart.Layout
import SequenceChart.Message
import SequenceChart.Term

/-!
The events that generated processes perform: messages with their fields,
accesses to the memory of an interaction, handshakes, and plain signals.
-/

namespace SequenceChart

inductive Field where
  | output (value : Term)
  | input (name : String)
  | ignored
  deriving DecidableEq, Repr

/-- The printed field, with the mark that separates it from what precedes. -/
def Field.text : Field → String
  | .output value =>
      if value.isCompound then
        ".(" ++ value.text ++ ")"
      else
        "." ++ value.text
  | .input name => "?" ++ name
  | .ignored => "?_"

/-- What a process may perform in one step. -/
inductive Event where
  /-- The exchange of a message. -/
  | message (content : Message) (direction : Direction) (fields : List Field)
  /-- Reading a variable out of a memory, under the variable's own name. -/
  | load (memory name : String)
  /-- Writing a variable back to a memory. -/
  | store (memory name : String)
  /-- Entering or leaving a numbered fragment together with the others. -/
  | handshake (kind : HandshakeKind) (number : Nat) (phase : Phase)
  /-- An event without fields. -/
  | signal (channel : String)
  deriving DecidableEq, Repr

def getChannel (name : String) : String :=
  "get_" ++ name

def setChannel (name : String) : String :=
  "set_" ++ name

def Event.text : Event → String
  | .message content direction fields =>
      content.eventName direction ++ concatenate (fields.map Field.text)
  | .load memory name => qualified memory (getChannel name) ++ "?" ++ name
  | .store memory name => qualified memory (setChannel name) ++ "!" ++ name
  | .handshake kind number phase =>
      kind.channel ++ "." ++ toString number ++ "." ++ phase.text
  | .signal channel => channel

/-- Events one after the other, each with the arrow that follows it. -/
def Event.leadText (events : List Event) : String :=
  concatenate (events.map fun event => event.text ++ " -> ")

/-- The channel on which time passes. -/
def tock : String :=
  "tock"

/-- The channel on which finished processes agree to end. -/
def finish : String :=
  "finish"

/-- The channel that stops the memory of an interaction. -/
def terminate : String :=
  "terminate"

inductive EventSet where
  /-- Every event on one of the channels. -/
  | productions (channels : List String)
  /-- The listed events. -/
  | members (events : List String)
  | everything
  /-- Every event outside of the set. -/
  | without (removed : EventSet)
  | named (name : String)
  deriving DecidableEq, Repr

def EventSet.text : EventSet → String
  | .productions channels =>
      if channels.isEmpty then
        "\x7b\x7d"
      else
        "\x7b| " ++ commaSeparated channels ++ " |\x7d"
  | .members events => "\x7b" ++ commaSeparated events ++ "\x7d"
  | .everything => "Events"
  | .without removed => application "diff" ["Events", removed.text]
  | .named name => name

/-- The events of a message set.  The set of all messages leaves the internal
channels out, since those carry no messages. -/
def MessageSet.events (internal : List String) : MessageSet → EventSet
  | .empty => .productions []
  | .every =>
      if internal.isEmpty then
        .everything
      else
        .without (.productions internal)
  | .topics chosen => .productions (chosen.map Topic.channel)

end SequenceChart
