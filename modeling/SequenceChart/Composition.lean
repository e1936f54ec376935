import SequenceChart.Memory
import SequenceChart.Meeting
import SequenceChart.Naming

/-!
The processes of the lifelines run in parallel, nested to the left.  A step
that joins a lifeline shares the events of the messages it exchanges with the
lifelines before it, time, termination and the handshakes.  Messages with the
world are performed by one lifeline alone.
-/

namespace SequenceChart

namespace Behaviour

/-- The steps of a composition.  The label of a step depends on the item just
before the joined one and on all items behind that. -/
def parallelSteps {α : Type} (name : α → Except Fault Behaviour)
    (label : α → List α → Except Fault EventSet) :
    List α → Except Fault (List (EventSet × Behaviour))
  | [] => .ok []
  | [_] => .ok []
  | current :: next :: rest => do
      let events ← label current (next :: rest)
      let joined ← name next
      let others ← parallelSteps name label (next :: rest)
      return (events, joined) :: others

/-- Items composed in parallel, of which there must be one at least. -/
def parallel {α : Type} (name : α → Except Fault Behaviour)
    (label : α → List α → Except Fault EventSet) : List α → Except Fault Behaviour
  | [] => .error .noParticipants
  | first :: rest => do
      let start ← name first
      let steps ← parallelSteps name label (first :: rest)
      return compose start steps

end Behaviour

/-- A message as the composition sees it: its ends, and its event. -/
structure Link where
  sender : ActorId
  receiver : ActorId
  eventName : String
  deriving DecidableEq, Repr

def Link.connects (link : Link) (others : List ActorId) (actor : ActorId) : Bool :=
  (others.contains link.sender && link.receiver = actor) ||
    (others.contains link.receiver && link.sender = actor)

def Specification.linkOf (specification : Specification) (message : Message) :
    Except Fault Link := do
  let direction ← specification.directionOf message
  return ⟨message.sender, message.receiver, message.eventName direction⟩

/-- A process that takes part in the composition. -/
inductive Participant where
  | lifeline (actor : ActorId)
  /-- The process that runs the bodies of until fragments. -/
  | untilProcess
  deriving DecidableEq, Repr

def untilProcessName : String :=
  "UntilSync"

namespace Setting

variable (setting : Setting)

/-- The links between lifelines and with the world, outside of until bodies. -/
def links : Except Fault (List Link) := do
  let messages ← Fragment.listMessages setting.body
  messages.mapM setting.specification.linkOf

/-- The processes that are composed; the until process comes last. -/
def participants : List Participant :=
  setting.lifelines.map .lifeline ++
    (if setting.untils.isRequired then [.untilProcess] else [])

def participantProcess : Participant → Except Fault Behaviour
  | .lifeline actor => do
      let name ← setting.specification.lifelineName actor
      return .named name
  | .untilProcess => .ok (.named untilProcessName)

/-- The label at which a lifeline joins those before it. -/
def lifelineLabel (links : List Link) (before : List ActorId) (actor : ActorId) : EventSet :=
  .productions
    (firstOccurrences ((links.filter fun link => link.connects before actor).map Link.eventName) ++
      [tock, finish] ++ setting.handshakeChannels)

/-- The lifelines up to the first place of one, that place included. -/
def lifelinesUpTo (actor : ActorId) : Except Fault (List ActorId) := do
  let last ← oneLess setting.lifelines.length
  let place := (setting.lifelines.idxOf? actor).getD last
  return setting.lifelines.take (place + 1)

/-- The label of a step, given the participant before the joined one and all
that follow. -/
def stepLabel (links : List Link) :
    Participant → List Participant → Except Fault EventSet
  | _, [] => .error (.outOfRange 0 0)
  | _, .untilProcess :: _ => .ok (.productions [HandshakeKind.until.channel, finish])
  | .lifeline current, .lifeline next :: _ => do
      let before ← setting.lifelinesUpTo current
      return setting.lifelineLabel links before next
  | .untilProcess, .lifeline _ :: _ => .error .untilNotLast

def composition : Except Fault Behaviour := do
  let links ← setting.links
  Behaviour.parallel setting.participantProcess (setting.stepLabel links)
    setting.participants

end Setting

end SequenceChart
