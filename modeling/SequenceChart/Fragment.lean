import SequenceChart.Diagram
import SequenceChart.Fault

/-!
A fragment is an entry of a diagram's table with everything it refers to.
References are followed only when they are visited: many paths may lead to one
entry, lifelines pass an until fragment without a look at its body, and a fault
ends a visit early.  A reference that leads nowhere becomes a leaf that holds
the fault, which is raised only if the fragment is visited.
-/

namespace SequenceChart

/-- Fragments as trees, of which parts may be deferred.  Those that are numbered
or reported remember their position in the table. -/
inductive Fragment where
  | message (content : Message)
  | wait (actor : ActorId) (units : ExpressionId)
  | deadlock (actor : ActorId)
  | create (id : FragmentId) (actor created : ActorId)
  | loop (bound : Option Bound) (body : Fragment)
  | branch (kind : BranchKind) (operands : List Fragment)
  | par (id : FragmentId) (operands : List Fragment)
  | duration (owner : ActorId) (bound : Bound) (body : Fragment)
  | deadline (owner : ActorId) (units : ExpressionId) (body : Fragment)
  | until (id : FragmentId) (intra : MessageSet) (body : Fragment)
  | critical (id : FragmentId) (body : Fragment)
  | operand (guard : Option ExpressionId) (fragments : List Fragment)
  /-- A fragment that is worked out when it is visited. -/
  | deferred (content : Unit → Fragment)
  | unresolved (fault : Fault)

namespace Diagram

/-- What stands at a place of a branch, given how references are followed: an
operand shows its guard, and every other fragment is what it refers to. -/
def branchOperand (diagram : Diagram) (follow : FragmentId → Fragment)
    (id : FragmentId) : Fragment :=
  match entryAt diagram.fragments id.index with
  | .ok (.operand guard fragments) => .operand guard (fragments.map follow)
  | _ => follow id

def unfoldFragment (diagram : Diagram) : Nat → FragmentId → Fragment
  | 0, _ => .unresolved .cyclicReference
  | depth + 1, id =>
      let later := fun child =>
        Fragment.deferred fun _ => diagram.unfoldFragment depth child
      match entryAt diagram.fragments id.index with
      | .error fault => .unresolved fault
      | .ok (.message content) => .message content
      | .ok (.wait actor units) => .wait actor units
      | .ok (.deadlock actor) => .deadlock actor
      | .ok (.create actor created) => .create id actor created
      | .ok (.loop bound body) => .loop bound (later body)
      | .ok (.branch kind operands) =>
          .branch kind (operands.map (diagram.branchOperand later))
      | .ok (.par operands) => .par id (operands.map later)
      | .ok (.duration owner bound body) => .duration owner bound (later body)
      | .ok (.deadline owner units body) => .deadline owner units (later body)
      | .ok (.until intra body) => .until id intra (later body)
      | .ok (.critical body) => .critical id (later body)
      | .ok (.operand guard fragments) => .operand guard (fragments.map later)

/-- The fragment at a position.  No chain of distinct entries is longer than
the table, so only references that lead back to themselves are cut off. -/
def fragment (diagram : Diagram) (id : FragmentId) : Fragment :=
  diagram.unfoldFragment (diagram.fragments.size + 1) id

def bodyFragments (diagram : Diagram) : List Fragment :=
  diagram.body.map diagram.fragment

end Diagram

mutual

/-- The messages that lifelines exchange themselves, in the order of the
diagram.  Messages in the body of an until fragment are not among them. -/
def Fragment.messages : Fragment → Except Fault (List Message)
  | .message content => .ok [content]
  | .wait _ _ => .ok []
  | .deadlock _ => .ok []
  | .create _ _ _ => .ok []
  | .loop _ body => body.messages
  | .branch _ operands => Fragment.listMessages operands
  | .par _ operands => Fragment.listMessages operands
  | .duration _ _ body => body.messages
  | .deadline _ _ body => body.messages
  | .until _ _ _ => .ok []
  | .critical _ body => body.messages
  | .operand _ fragments => Fragment.listMessages fragments
  | .deferred content => (content ()).messages
  | .unresolved fault => .error fault

def Fragment.listMessages : List Fragment → Except Fault (List Message)
  | [] => .ok []
  | fragment :: rest => do
      let first ← fragment.messages
      let others ← Fragment.listMessages rest
      return first ++ others

end

end SequenceChart
