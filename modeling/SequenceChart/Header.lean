import SequenceChart.Behaviour
import SequenceChart.Naming
import SequenceChart.Viewpoint

/-!
A header turns the bounds of a loop, a timer or an until fragment into the
library process that runs the body within these bounds.  Where nothing has to
be enforced, the header is a mere remark.
-/

namespace SequenceChart

/-- What is put around the body of a fragment. -/
inductive Header where
  | call (function : String) (arguments : List Operand)
  | remark (text : String)
  deriving DecidableEq, Repr

namespace Header

def text : Header → String
  | .call function arguments => application function (arguments.map Operand.text)
  | .remark text => comment text

/-- The body with the header around it, or in front of it. -/
def around (body : Behaviour) : Header → Behaviour
  | .call function arguments => .wrapped function arguments body
  | .remark text => .remarked text body

def callOn (function : String) (terms : List Term) : Header :=
  .call function (terms.map Operand.value)

end Header

namespace Specification

variable (specification : Specification) (diagram : Diagram)

/-- The header of a loop.  With both sides, a literal zero as the lower one
leaves only the upper side to count. -/
def loopHeader (bound : Option Bound) : Except Fault Header :=
  match bound with
  | none => .ok (.callOn "Loop" [])
  | some ⟨none, none⟩ => .error .emptyBound
  | some ⟨some lower, none⟩ => do
      let lowerTerm ← specification.termOf diagram lower
      return .callOn "BoundedLoopLower" [lowerTerm]
  | some ⟨none, some upper⟩ => do
      let upperTerm ← specification.termOf diagram upper
      return .callOn "BoundedLoop" [upperTerm]
  | some ⟨some lower, some upper⟩ => do
      let fromZero ← (diagram.expression lower).isZero
      if fromZero then
        let upperTerm ← specification.termOf diagram upper
        return .callOn "BoundedLoopUpper" [upperTerm]
      else
        let lowerTerm ← specification.termOf diagram lower
        let upperTerm ← specification.termOf diagram upper
        return .callOn "BoundedLoopRange" [lowerTerm, upperTerm]

def durationHeader (bound : Bound) : Except Fault Header :=
  match bound with
  | ⟨none, none⟩ => .ok (.remark "no bounds")
  | ⟨some lower, none⟩ => do
      let lowerTerm ← specification.termOf diagram lower
      return .callOn "DurationLower" [lowerTerm]
  | ⟨none, some upper⟩ => do
      let upperTerm ← specification.termOf diagram upper
      return .callOn "DurationUpper" [upperTerm]
  | ⟨some lower, some upper⟩ => do
      let lowerTerm ← specification.termOf diagram lower
      let upperTerm ← specification.termOf diagram upper
      return .callOn "DurationRange" [lowerTerm, upperTerm]

/-- The header of a deadline.  Its owner enforces it, and so does a single
lifeline; everyone else only takes note of it. -/
def deadlineHeader (view : Viewpoint) (owner : ActorId) (units : ExpressionId) :
    Except Fault Header :=
  if view.isFor owner || diagram.lifelines.length ≤ 1 then do
    let unitsTerm ← specification.termOf diagram units
    return .callOn "Deadline" [unitsTerm]
  else do
    let found ← specification.actor owner
    return .remark ("deadline on " ++ found.name)

end Specification

/-- The header of an until fragment: its events may happen until the body
takes over. -/
def untilHeader (intra : MessageSet) (internal : List String) : Header :=
  .call "AnyUntil" [.events (intra.events internal)]

end SequenceChart
