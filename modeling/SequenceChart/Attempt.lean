import SequenceChart.Fault
import SequenceChart.Notice

/-!
An attempt is a computation that makes notices and then either yields a value
or stops at a fault.  It pauses at every notice, so that whoever reads the
notices may break it off there; what it yields in the end cannot depend on who
reads them.
-/

namespace SequenceChart

/-- A computation that pauses at its notices. -/
inductive Attempt (α : Type) where
  /-- The end, with a value or a fault. -/
  | finished (result : Except Fault α)
  /-- A notice, and all that comes after it. -/
  | noticing (notice : Notice) (rest : Unit → Attempt α)

namespace Attempt

/-- The notices of an attempt that is not broken off. -/
def notices {α : Type} : Attempt α → List Notice
  | .finished _ => []
  | .noticing notice rest => notice :: (rest ()).notices

/-- What an attempt comes to if it is not broken off. -/
def result {α : Type} : Attempt α → Except Fault α
  | .finished result => result
  | .noticing _ rest => (rest ()).result

/-- Carry on with the value of an attempt, unless it meets a fault. -/
def andThen {α β : Type} (next : α → Attempt β) : Attempt α → Attempt β
  | .finished (.ok value) => next value
  | .finished (.error fault) => .finished (.error fault)
  | .noticing notice rest => .noticing notice fun _ => (rest ()).andThen next

instance : Monad Attempt where
  pure value := .finished (.ok value)
  bind first next := first.andThen next

private theorem andThen_pure {α : Type} (attempt : Attempt α) :
    attempt.andThen (fun value => .finished (.ok value)) = attempt := by
  induction attempt with
  | finished result =>
      cases result <;> rfl
  | noticing notice rest inductionHypothesis =>
      simp [andThen, inductionHypothesis]

private theorem andThen_assoc {α β γ : Type} (attempt : Attempt α) (next : α → Attempt β)
    (last : β → Attempt γ) :
    (attempt.andThen next).andThen last =
      attempt.andThen fun value => (next value).andThen last := by
  induction attempt with
  | finished result =>
      cases result <;> rfl
  | noticing notice rest inductionHypothesis =>
      simp [andThen, inductionHypothesis]

instance : LawfulMonad Attempt := LawfulMonad.mk' Attempt
  (fun attempt => andThen_pure attempt)
  (fun _ _ => rfl)
  (fun attempt next last => andThen_assoc attempt next last)

def quietly {α : Type} (result : Except Fault α) : Attempt α :=
  .finished result

instance : MonadLift (Except Fault) Attempt where
  monadLift := quietly

def notify (notice : Notice) : Attempt Unit :=
  .noticing notice fun _ => .finished (.ok ())

def log (level : LogLevel) (text : String) : Attempt Unit :=
  notify (.log level text)

def report (content : Report) : Attempt Unit :=
  notify (.report content)

end Attempt

end SequenceChart
