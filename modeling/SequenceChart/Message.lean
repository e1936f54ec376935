import SequenceChart.Identifier

/-!
A message goes from one actor to another on the channel of its topic and
carries arguments: values that are sent, variables that receive a value, and
places whose value is ignored.
-/

namespace SequenceChart

/-- What a message is about. -/
inductive Topic where
  | event (channel : String)
  | operation (name : String)
  deriving DecidableEq, Repr

/-- The channel of a topic; an operation is called on a channel of its own. -/
def Topic.channel : Topic → String
  | .event channel => channel
  | .operation name => name ++ "Call"

inductive Argument where
  | value (expression : ExpressionId)
  | bind (variableId : VariableId)
  | ignored
  deriving DecidableEq, Repr

structure Message where
  sender : ActorId
  receiver : ActorId
  topic : Topic
  arguments : List Argument
  deriving DecidableEq, Repr

namespace Message

def values (message : Message) : List ExpressionId :=
  message.arguments.filterMap fun argument =>
    match argument with
    | .value expression => some expression
    | _ => none

def bindings (message : Message) : List VariableId :=
  message.arguments.filterMap fun argument =>
    match argument with
    | .bind variableId => some variableId
    | _ => none

end Message

/-- Whether a message enters the modelled system or is sent inside of it. -/
inductive Direction where
  | incoming
  | outgoing
  deriving DecidableEq, Repr

def Direction.text : Direction → String
  | .incoming => "in"
  | .outgoing => "out"

def Message.eventName (message : Message) (direction : Direction) : String :=
  message.topic.channel ++ "." ++ direction.text

inductive MessageSet where
  | empty
  | every
  | topics (chosen : List Topic)
  deriving DecidableEq, Repr

end SequenceChart
