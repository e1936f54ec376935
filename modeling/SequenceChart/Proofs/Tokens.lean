import SequenceChart.Proofs.Pieces

/-!
The text of a process as a list of tokens, in which two things are told apart
from plain text: the values of expressions, wherever they are printed, and the
arrows, each of which remembers the event in front of it.  The texts of the
tokens make up the text of the process, so nothing is printed that is not a
token.
-/

namespace SequenceChart

inductive Token where
  | plain (text : String)
  /-- The value of an expression. -/
  | value (term : Term)
  /-- The arrow behind an event. -/
  | arrow (event : Event)
  deriving DecidableEq, Repr

namespace Token

def text : Token → String
  | .plain text => text
  | .value term => term.text
  | .arrow _ => " -> "

def listText (tokens : List Token) : String :=
  concatenate (tokens.map text)

@[simp]
theorem listText_nil : listText [] = "" := by
  rfl

@[simp]
theorem listText_cons (token : Token) (rest : List Token) :
    listText (token :: rest) = token.text ++ listText rest :=
  concatenate_cons token.text (rest.map text)

@[simp]
theorem listText_append (first second : List Token) :
    listText (first ++ second) = listText first ++ listText second := by
  rw [listText, List.map_append, concatenate_append]
  rfl

def separated (separator : String) : List (List Token) → List Token
  | [] => []
  | [only] => only
  | first :: rest => first ++ .plain separator :: separated separator rest

@[simp]
theorem separated_cons_cons (separator : String) (first next : List Token)
    (rest : List (List Token)) :
    separated separator (first :: next :: rest) =
      first ++ .plain separator :: separated separator (next :: rest) :=
  rfl

@[simp]
theorem listText_separated (separator : String) (parts : List (List Token)) :
    listText (separated separator parts) = joinWith separator (parts.map listText) := by
  induction parts with
  | nil =>
      rfl
  | cons first rest inductionHypothesis =>
      cases rest with
      | nil =>
          simp [separated, joinWith, appendAll]
      | cons next others =>
          rw [separated_cons_cons, listText_append, listText_cons, inductionHypothesis]
          simp only [List.map_cons, joinWith_cons_cons, text, String.append_assoc]

def application (function : String) (arguments : List (List Token)) : List Token :=
  if arguments.isEmpty then
    [.plain function]
  else
    .plain (function ++ "(") :: (separated ", " arguments ++ [.plain ")"])

@[simp]
theorem listText_application (function : String) (arguments : List (List Token)) :
    listText (application function arguments) =
      SequenceChart.application function (arguments.map listText) := by
  simp only [application, SequenceChart.application, List.isEmpty_map]
  split
  · simp [text]
  · simp [text, commaSeparated, String.append_assoc]

end Token

def Field.tokens : Field → List Token
  | .output value =>
      if value.isCompound then
        [.plain ".(", .value value, .plain ")"]
      else
        [.plain ".", .value value]
  | .input name => [.plain ("?" ++ name)]
  | .ignored => [.plain "?_"]

@[simp]
theorem Field.listText_tokens (field : Field) :
    Token.listText field.tokens = field.text := by
  cases field with
  | output value =>
      simp only [tokens, text]
      split
      · simp [Token.text, String.append_assoc]
      · simp [Token.text]
  | input name =>
      simp [tokens, text, Token.text]
  | ignored =>
      simp [tokens, text, Token.text]

def Event.tokens : Event → List Token
  | .message content direction fields =>
      .plain (content.eventName direction) :: fields.flatMap Field.tokens
  | event => [.plain event.text]

@[simp]
theorem Field.listText_flatMap_tokens (fields : List Field) :
    Token.listText (fields.flatMap tokens) = concatenate (fields.map text) := by
  induction fields with
  | nil =>
      rfl
  | cons field rest inductionHypothesis =>
      rw [List.flatMap_cons, Token.listText_append, listText_tokens, inductionHypothesis,
        List.map_cons, concatenate_cons]

@[simp]
theorem Event.listText_tokens (event : Event) :
    Token.listText event.tokens = event.text := by
  cases event with
  | message content direction fields =>
      rw [tokens, Token.listText_cons, Field.listText_flatMap_tokens]
      rfl
  | _ =>
      simp [tokens, Token.text]

/-- Events one after the other, each with the arrow that follows it. -/
def Event.leadTokens (events : List Event) : List Token :=
  events.flatMap fun event => event.tokens ++ [.arrow event]

def Operand.tokens : Operand → List Token
  | .value term => [.value term]
  | .events set => [.plain set.text]
  | .call function arguments =>
      Token.application function (arguments.map fun term => [.value term])

@[simp]
theorem Operand.listText_tokens (operand : Operand) :
    Token.listText operand.tokens = operand.text := by
  cases operand with
  | value term =>
      simp [tokens, text, Token.text]
  | events set =>
      simp [tokens, text, Token.text]
  | call function arguments =>
      simp [tokens, text, Token.text, Function.comp_def]

namespace Behaviour

def tokens : Behaviour → List Token
  | .skip => [.plain "SKIP"]
  | .stop => [.plain "STOP"]
  | .named name => [.plain name]
  | .verbatim text => [.plain text]
  | .perform event next => event.tokens ++ .arrow event :: next.tokens
  | .andThen first second => first.tokens ++ .plain "; " :: second.tokens
  | .join operator left right =>
      left.tokens ++ .plain (" " ++ operator.symbol ++ " ") :: right.tokens
  | .guarded condition body => .value condition :: .plain " & " :: body.tokens
  | .grouped body => .plain "(" :: (body.tokens ++ [.plain ")"])
  | .applied function arguments =>
      Token.application function (arguments.map Operand.tokens)
  | .wrapped function arguments body =>
      Token.application function (arguments.map Operand.tokens) ++
        .plain "(" :: (body.tokens ++ [.plain ")"])
  | .remarked remark body => .plain (comment remark ++ " ") :: body.tokens
  | .annotated body remark => body.tokens ++ [.plain (" " ++ comment remark)]
  | .synchronised left events right =>
      left.tokens ++ .plain (" [| " ++ events.text ++ " |] ") :: right.tokens
  | .hiding body events => body.tokens ++ [.plain (" \\ " ++ events.text)]
  | .interrupted left right => left.tokens ++ .plain " /\\ " :: right.tokens
  | .conditional condition positive negative =>
      .plain "if " :: .value condition :: .plain " then " ::
        (positive.tokens ++ .plain " else " :: negative.tokens)

/-- The tokens of a process make up its text. -/
@[simp]
theorem listText_tokens (behaviour : Behaviour) :
    Token.listText behaviour.tokens = behaviour.text := by
  induction behaviour <;>
    simp_all [tokens, text, Token.text, Function.comp_def, String.append_assoc]

@[simp]
theorem tokens_performAll (events : List Event) (next : Behaviour) :
    (performAll events next).tokens = Event.leadTokens events ++ next.tokens := by
  induction events with
  | nil =>
      rfl
  | cons event rest inductionHypothesis =>
      change event.tokens ++ .arrow event :: (performAll rest next).tokens = _
      rw [inductionHypothesis, Event.leadTokens, Event.leadTokens, List.flatMap_cons]
      simp

end Behaviour

end SequenceChart
