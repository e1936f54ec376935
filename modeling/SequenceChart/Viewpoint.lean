import SequenceChart.Specification

/-!
A fragment is rendered for somebody: for one of several lifelines, for the
whole interaction as one sequential process, or for the process that runs the
bodies of until fragments.
-/

namespace SequenceChart

/-- For whom a fragment is rendered. -/
inductive Viewpoint where
  /-- One lifeline among several. -/
  | lifeline (actor : ActorId)
  /-- The interaction as a whole, which has at most one lifeline. -/
  | sequential (actor : Option ActorId)
  /-- The body of an until fragment. -/
  | until
  deriving DecidableEq, Repr

namespace Viewpoint

/-- Whether what happens at an actor is seen from here. -/
def isFor (view : Viewpoint) (actor : ActorId) : Bool :=
  match view with
  | .lifeline own => own = actor
  | .sequential (some own) => own = actor
  | .sequential none => true
  | .until => true

/-- Whether handshakes are taken part in, as opposed to running the fragments
that they enclose. -/
def synchronises : Viewpoint → Bool
  | .lifeline _ => true
  | .sequential _ => false
  | .until => false

/-- Whether the values received by a message are written to memory here.
Among several lifelines the receiver does so, or the sender of a message that
leaves for the world. -/
def storesFor (specification : Specification) (message : Message) :
    Viewpoint → Except Fault Bool
  | .lifeline own => do
      let receiver ← specification.actor message.receiver
      return if receiver.isWorld then own = message.sender else own = message.receiver
  | .sequential _ => .ok true
  | .until => .ok true

end Viewpoint

end SequenceChart
