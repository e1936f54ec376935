import SequenceChart.Event

/-!
Behaviours are process terms as they appear in generated models.  Grouping is
part of the term: parentheses are printed where a term is `grouped` and
nowhere else, apart from those that belong to an application.
-/

namespace SequenceChart

/-- Operators that join processes. -/
inductive JoinOperator where
  | externalChoice
  | internalChoice
  | interleaving
  deriving DecidableEq, Repr

def JoinOperator.symbol : JoinOperator → String
  | .externalChoice => "[]"
  | .internalChoice => "|~|"
  | .interleaving => "|||"

/-- The arguments of a process function other than a process body. -/
inductive Operand where
  | value (term : Term)
  | events (set : EventSet)
  | call (function : String) (arguments : List Term)
  deriving DecidableEq, Repr

def Operand.text : Operand → String
  | .value term => term.text
  | .events set => set.text
  | .call function arguments => application function (arguments.map Term.text)

/-- Process terms. -/
inductive Behaviour where
  | skip
  | stop
  /-- A process referred to by name. -/
  | named (name : String)
  /-- A process given as text. -/
  | verbatim (text : String)
  /-- An event, and then the rest. -/
  | perform (event : Event) (next : Behaviour)
  /-- One process after the other. -/
  | andThen (first second : Behaviour)
  | join (operator : JoinOperator) (left right : Behaviour)
  | guarded (condition : Term) (body : Behaviour)
  | grouped (body : Behaviour)
  /-- A process function applied to values. -/
  | applied (function : String) (arguments : List Operand)
  /-- A process function applied to values and then to a process. -/
  | wrapped (function : String) (arguments : List Operand) (body : Behaviour)
  /-- A comment and then the process. -/
  | remarked (remark : String) (body : Behaviour)
  /-- The process and then a comment. -/
  | annotated (body : Behaviour) (remark : String)
  /-- Two processes that perform the events of a set together. -/
  | synchronised (left : Behaviour) (events : EventSet) (right : Behaviour)
  | hiding (body : Behaviour) (events : EventSet)
  /-- The right process may take over from the left one at any time. -/
  | interrupted (left right : Behaviour)
  | conditional (condition : Term) (positive negative : Behaviour)
  deriving DecidableEq, Repr

namespace Behaviour

def text : Behaviour → String
  | .skip => "SKIP"
  | .stop => "STOP"
  | .named name => name
  | .verbatim text => text
  | .perform event next => event.text ++ " -> " ++ next.text
  | .andThen first second => first.text ++ "; " ++ second.text
  | .join operator left right =>
      left.text ++ " " ++ operator.symbol ++ " " ++ right.text
  | .guarded condition body => condition.text ++ " & " ++ body.text
  | .grouped body => "(" ++ body.text ++ ")"
  | .applied function arguments => application function (arguments.map Operand.text)
  | .wrapped function arguments body =>
      application function (arguments.map Operand.text) ++ "(" ++ body.text ++ ")"
  | .remarked remark body => comment remark ++ " " ++ body.text
  | .annotated body remark => body.text ++ " " ++ comment remark
  | .synchronised left events right =>
      left.text ++ " [| " ++ events.text ++ " |] " ++ right.text
  | .hiding body events => body.text ++ " \\ " ++ events.text
  | .interrupted left right => left.text ++ " /\\ " ++ right.text
  | .conditional condition positive negative =>
      "if " ++ condition.text ++ " then " ++ positive.text ++ " else " ++ negative.text

/-- The printed process behind a text.  Every piece is added at the end, so a
nested process costs no more than a flat one of the same length. -/
def textAfter (sofar : String) : Behaviour → String
  | .skip => sofar ++ "SKIP"
  | .stop => sofar ++ "STOP"
  | .named name => sofar ++ name
  | .verbatim text => sofar ++ text
  | .perform event next => next.textAfter (sofar ++ event.text ++ " -> ")
  | .andThen first second => second.textAfter (first.textAfter sofar ++ "; ")
  | .join operator left right =>
      right.textAfter (left.textAfter sofar ++ " " ++ operator.symbol ++ " ")
  | .guarded condition body => body.textAfter (sofar ++ condition.text ++ " & ")
  | .grouped body => body.textAfter (sofar ++ "(") ++ ")"
  | .applied function arguments =>
      sofar ++ application function (arguments.map Operand.text)
  | .wrapped function arguments body =>
      body.textAfter
        (sofar ++ application function (arguments.map Operand.text) ++ "(") ++ ")"
  | .remarked remark body => body.textAfter (sofar ++ comment remark ++ " ")
  | .annotated body remark => body.textAfter sofar ++ " " ++ comment remark
  | .synchronised left events right =>
      right.textAfter (left.textAfter sofar ++ " [| " ++ events.text ++ " |] ")
  | .hiding body events => body.textAfter sofar ++ " \\ " ++ events.text
  | .interrupted left right => right.textAfter (left.textAfter sofar ++ " /\\ ")
  | .conditional condition positive negative =>
      negative.textAfter
        (positive.textAfter (sofar ++ "if " ++ condition.text ++ " then ") ++ " else ")

def written (behaviour : Behaviour) : String :=
  behaviour.textAfter ""

/-- What is written behind a text is the printed process. -/
theorem textAfter_eq_append (behaviour : Behaviour) (sofar : String) :
    behaviour.textAfter sofar = sofar ++ behaviour.text := by
  induction behaviour generalizing sofar <;> simp_all [textAfter, text, String.append_assoc]

/-- A process is written as it is printed. -/
@[simp]
theorem written_eq_text (behaviour : Behaviour) : behaviour.written = behaviour.text := by
  simp [written, textAfter_eq_append]

/-- Processes one after the other; no processes at all end at once. -/
def sequence : List Behaviour → Behaviour
  | [] => .skip
  | [part] => part
  | part :: rest => .andThen part (sequence rest)

/-- Processes joined by one operator, without parentheses. -/
def joinAll (operator : JoinOperator) (first : Behaviour) : List Behaviour → Behaviour
  | [] => first
  | next :: rest => .join operator first (joinAll operator next rest)

def joinUnit : JoinOperator → Behaviour
  | .externalChoice => .stop
  | .internalChoice => .stop
  | .interleaving => .skip

/-- Processes joined by one operator and parenthesised as a whole.  A single
process stays as it is. -/
def combine (operator : JoinOperator) : List Behaviour → Behaviour
  | [] => joinUnit operator
  | [only] => only
  | first :: rest => .grouped (joinAll operator first rest)

/-- Processes composed in parallel, nested to the left: each step joins one
more process and shares the events of its label with all before it. -/
def compose (first : Behaviour) : List (EventSet × Behaviour) → Behaviour
  | [] => first
  | (events, next) :: rest =>
      rest.foldl
        (fun left step => .synchronised (.grouped left) step.1 step.2)
        (.synchronised first events next)

/-- Events performed one after the other in front of a process. -/
def performAll (events : List Event) (next : Behaviour) : Behaviour :=
  events.foldr .perform next

/-- Whether a text puts processes in sequence at any place. -/
def hasSequence : List Char → Bool
  | [] => false
  | ';' :: ' ' :: _ => true
  | _ :: rest => hasSequence rest

/-- How far the search for a sequence has come. -/
inductive SequenceSearch where
  | nothing
  | semicolon
  | found
  deriving DecidableEq, Repr

def SequenceSearch.step : SequenceSearch → Char → SequenceSearch
  | .found, _ => .found
  | .semicolon, ' ' => .found
  | _, ';' => .semicolon
  | _, _ => .nothing

/-- Whether a text puts processes in sequence, decided in one pass over it. -/
def holdsSequence (text : String) : Bool :=
  text.foldl SequenceSearch.step .nothing = .found

private theorem foldl_step_found (characters : List Char) :
    characters.foldl SequenceSearch.step .found = .found := by
  induction characters with
  | nil =>
      rfl
  | cons character rest inductionHypothesis =>
      exact inductionHypothesis

/-- The search finds a sequence where there is one, also behind a semicolon. -/
theorem foldl_step_eq_found_iff (characters : List Char) :
    (characters.foldl SequenceSearch.step .nothing = .found ↔ hasSequence characters = true) ∧
      (characters.foldl SequenceSearch.step .semicolon = .found ↔
        hasSequence (';' :: characters) = true) := by
  induction characters with
  | nil =>
      simp [hasSequence]
  | cons character rest inductionHypothesis =>
      obtain ⟨plain, behind⟩ := inductionHypothesis
      by_cases blank : character = ' '
      · subst blank
        simp [SequenceSearch.step, hasSequence, foldl_step_found, plain]
      · by_cases semicolon : character = ';'
        · subst semicolon
          simp [SequenceSearch.step, hasSequence, behind]
        · simp [SequenceSearch.step, hasSequence, blank, semicolon, plain]

/-- One pass over a text decides the same as its characters do. -/
@[simp]
theorem holdsSequence_eq (text : String) :
    holdsSequence text = hasSequence text.toList := by
  rw [Bool.eq_iff_iff, holdsSequence, decide_eq_true_iff, String.foldl_eq_foldl_toList]
  exact (foldl_step_eq_found_iff text.toList).1

/-- The process with parentheses if its text holds a sequence, so that a guard
in front of it reaches over all of it. -/
def enclose (body : Behaviour) : Behaviour :=
  if holdsSequence body.written then .grouped body else body

def idle (body : Behaviour) : Behaviour :=
  .wrapped "Idle" [] body

/-- Let time pass until all others have finished too. -/
def finished : Behaviour :=
  .named "Finish"

end Behaviour

end SequenceChart
