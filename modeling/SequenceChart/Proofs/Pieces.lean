import SequenceChart.Projection

/-!
# Pieces of printed processes

A printed process falls into pieces: events, the calls of process functions that
stand in front of a body, comments, and layout in between.  The pieces side by
side are the text, so the order of pieces is the order in which a reader comes to
them.

A reading picks items out of the pieces.  What is read out of a composed process
is what is read out of its parts, in the order in which they are written.
-/

namespace SequenceChart

/-- A piece of a printed process. -/
inductive Piece where
  | layout (text : String)
  | event (performed : Event)
  /-- A process function with its arguments, in front of a body. -/
  | call (function : String) (arguments : List Operand) (body : Behaviour)
  | remark (text : String)
  deriving DecidableEq, Repr

/-- The printed piece.  The body of a call consists of further pieces. -/
def Piece.text : Piece → String
  | .layout text => text
  | .event performed => performed.text
  | .call function arguments _ => application function (arguments.map Operand.text)
  | .remark text => comment text

def Behaviour.pieces : Behaviour → List Piece
  | .skip => [.layout "SKIP"]
  | .stop => [.layout "STOP"]
  | .named name => [.layout name]
  | .verbatim text => [.layout text]
  | .perform event next => .event event :: .layout " -> " :: next.pieces
  | .andThen first second => first.pieces ++ .layout "; " :: second.pieces
  | .join operator left right =>
      left.pieces ++ .layout (" " ++ operator.symbol ++ " ") :: right.pieces
  | .guarded condition body => .layout (condition.text ++ " & ") :: body.pieces
  | .grouped body => .layout "(" :: (body.pieces ++ [.layout ")"])
  | .applied function arguments =>
      [.layout (application function (arguments.map Operand.text))]
  | .wrapped function arguments body =>
      .call function arguments body :: .layout "(" :: (body.pieces ++ [.layout ")"])
  | .remarked text body => .remark text :: .layout " " :: body.pieces
  | .annotated body text => body.pieces ++ [.layout " ", .remark text]
  | .synchronised left events right =>
      left.pieces ++ .layout (" [| " ++ events.text ++ " |] ") :: right.pieces
  | .hiding body events => body.pieces ++ [.layout (" \\ " ++ events.text)]
  | .interrupted left right => left.pieces ++ .layout " /\\ " :: right.pieces
  | .conditional condition positive negative =>
      .layout ("if " ++ condition.text ++ " then ") ::
        (positive.pieces ++ .layout " else " :: negative.pieces)

@[simp]
theorem concatenate_append (first second : List String) :
    concatenate (first ++ second) = concatenate first ++ concatenate second := by
  induction first with
  | nil =>
      exact (String.empty_append).symm
  | cons piece rest inductionHypothesis =>
      rw [List.cons_append, concatenate_cons, concatenate_cons, inductionHypothesis,
        String.append_assoc]

/-- The pieces side by side are the printed process. -/
@[simp]
theorem Behaviour.concatenate_pieces (behaviour : Behaviour) :
    concatenate (behaviour.pieces.map Piece.text) = behaviour.text := by
  have nothing : concatenate [] = "" := rfl
  induction behaviour <;>
    simp_all [pieces, text, Piece.text, String.append_assoc]

/-- What is picked out of single pieces. -/
abbrev Reading (β : Type) := Piece → Option β

def timerFunctions : List String :=
  ["Deadline", "DurationLower", "DurationUpper", "DurationRange"]

/-- The reading passes by layout, comments, loads, handshakes, and all calls but
those of timers. -/
structure Reading.Selective {β : Type} (reading : Reading β) : Prop where
  layout : ∀ text, reading (.layout text) = none
  remark : ∀ text, reading (.remark text) = none
  load : ∀ memory name, reading (.event (.load memory name)) = none
  handshake : ∀ kind number phase, reading (.event (.handshake kind number phase)) = none
  call : ∀ function arguments body, function ∉ timerFunctions →
    reading (.call function arguments body) = none

namespace Behaviour

variable {β : Type} {reading : Reading β}

def readBy (reading : Reading β) (behaviour : Behaviour) : List β :=
  behaviour.pieces.filterMap reading

variable (selective : reading.Selective)
include selective

theorem readBy_skip : skip.readBy reading = [] := by
  simp [readBy, pieces, selective.layout]

theorem readBy_stop : stop.readBy reading = [] := by
  simp [readBy, pieces, selective.layout]

theorem readBy_applied (function : String) (arguments : List Operand) :
    (applied function arguments).readBy reading = [] := by
  simp [readBy, pieces, selective.layout]

theorem readBy_perform (event : Event) (next : Behaviour) :
    (perform event next).readBy reading =
      (reading (.event event)).toList ++ next.readBy reading := by
  cases read : reading (.event event) <;> simp [readBy, pieces, selective.layout, read]

theorem readBy_performAll (events : List Event) (next : Behaviour) :
    (performAll events next).readBy reading =
      events.filterMap (fun event => reading (.event event)) ++ next.readBy reading := by
  induction events with
  | nil =>
      rfl
  | cons event rest inductionHypothesis =>
      have first := readBy_perform selective event (performAll rest next)
      rw [inductionHypothesis] at first
      refine first.trans ?_
      cases read : reading (.event event) <;> simp [read]

theorem readBy_andThen (first second : Behaviour) :
    (andThen first second).readBy reading =
      first.readBy reading ++ second.readBy reading := by
  simp [readBy, pieces, selective.layout]

private theorem readBy_join (operator : JoinOperator) (left right : Behaviour) :
    (join operator left right).readBy reading =
      left.readBy reading ++ right.readBy reading := by
  simp [readBy, pieces, selective.layout]

theorem readBy_guarded (condition : Term) (body : Behaviour) :
    (guarded condition body).readBy reading = body.readBy reading := by
  simp [readBy, pieces, selective.layout]

theorem readBy_grouped (body : Behaviour) :
    body.grouped.readBy reading = body.readBy reading := by
  simp [readBy, pieces, selective.layout]

private theorem readBy_wrapped (function : String) (arguments : List Operand) (body : Behaviour) :
    (wrapped function arguments body).readBy reading =
      (reading (.call function arguments body)).toList ++ body.readBy reading := by
  cases read : reading (.call function arguments body) <;>
    simp [readBy, pieces, selective.layout, read]

theorem readBy_remarked (remark : String) (body : Behaviour) :
    (remarked remark body).readBy reading = body.readBy reading := by
  simp [readBy, pieces, selective.layout, selective.remark]

theorem readBy_annotated (body : Behaviour) (remark : String) :
    (annotated body remark).readBy reading = body.readBy reading := by
  simp [readBy, pieces, selective.layout, selective.remark]

theorem readBy_idle (body : Behaviour) : body.idle.readBy reading = body.readBy reading := by
  rw [idle, readBy_wrapped selective, selective.call _ _ _ (by decide)]
  rfl

theorem readBy_enclose (body : Behaviour) :
    body.enclose.readBy reading = body.readBy reading := by
  rw [enclose]
  split
  · exact readBy_grouped selective body
  · rfl

theorem readBy_sequence (parts : List Behaviour) :
    (sequence parts).readBy reading = parts.flatMap (readBy reading) := by
  induction parts with
  | nil =>
      exact readBy_skip selective
  | cons part rest inductionHypothesis =>
      cases rest with
      | nil =>
          simp [sequence]
      | cons next others =>
          rw [sequence, readBy_andThen selective, inductionHypothesis]
          · exact List.flatMap_cons.symm
          · exact List.cons_ne_nil next others

theorem readBy_joinAll (operator : JoinOperator) (first : Behaviour)
    (rest : List Behaviour) :
    (joinAll operator first rest).readBy reading =
      (first :: rest).flatMap (readBy reading) := by
  induction rest generalizing first with
  | nil =>
      simp [joinAll]
  | cons next others inductionHypothesis =>
      rw [joinAll, readBy_join selective, inductionHypothesis]
      exact List.flatMap_cons.symm

theorem readBy_combine (operator : JoinOperator) (parts : List Behaviour) :
    (combine operator parts).readBy reading = parts.flatMap (readBy reading) := by
  match parts with
  | [] =>
      cases operator with
      | externalChoice | internalChoice =>
          exact readBy_stop selective
      | interleaving =>
          exact readBy_skip selective
  | [only] =>
      simp [combine]
  | first :: next :: rest =>
      rw [combine, readBy_grouped selective, readBy_joinAll selective]
      exact List.cons_ne_nil next rest

end Behaviour

def Header.readBy {β : Type} (reading : Reading β) (body : Behaviour) : Header → Option β
  | .call function arguments => reading (.call function arguments body)
  | .remark _ => none

section

variable {β : Type} {reading : Reading β} (selective : reading.Selective)
include selective

theorem Header.readBy_around (header : Header) (body : Behaviour) :
    (header.around body).readBy reading =
      (header.readBy reading body).toList ++ body.readBy reading := by
  cases header with
  | call function arguments =>
      exact Behaviour.readBy_wrapped selective function arguments body
  | remark text =>
      exact Behaviour.readBy_remarked selective text body

theorem Setting.readBy_chooseAmong (kind : BranchKind) (operands : List Behaviour) :
    (chooseAmong kind operands).readBy reading =
      operands.flatMap (Behaviour.readBy reading) := by
  cases kind with
  | alt | xalt =>
      exact Behaviour.readBy_combine selective _ operands
  | opt =>
      rw [chooseAmong, Behaviour.readBy_combine selective, List.flatMap_append,
        List.flatMap_singleton, Behaviour.readBy_skip selective, List.append_nil]

end

end SequenceChart
