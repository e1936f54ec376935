import SequenceChart.Proofs.GivenTexts

/-!
# Laws of printed texts

Models are printed out of given texts, numbers and terms, with fixed texts around and
between them.  That a model has no line breaks, or no pairs of reserved characters but
those of its comments, is a property of texts that all these parts have and that is kept
when they are put together.  Such a property is a text law.

Terms, sets of events, the fields of messages and the events of memories are walked
through here, once for all laws.
-/

namespace SequenceChart

/-- The character ends no line. -/
def isInline (character : Char) : Bool :=
  character ≠ '\n' && character ≠ '\r'

/-- The character neither opens nor closes, nor puts processes in sequence. -/
def isPlain (character : Char) : Bool :=
  character ≠ '(' && character ≠ ')' && character ≠ ';'

theorem allowsNames_isInline : AllowsNames isInline := by
  intro character isName
  rw [isInline, Bool.and_eq_true, decide_eq_true_iff, decide_eq_true_iff]
  constructor
  · rintro rfl
    cases isName
  · rintro rfl
    cases isName

theorem allowsNames_isPlain : AllowsNames isPlain := by
  intro character isName
  rw [isPlain, Bool.and_eq_true, Bool.and_eq_true, decide_eq_true_iff, decide_eq_true_iff,
    decide_eq_true_iff]
  refine ⟨⟨?_, ?_⟩, ?_⟩ <;> rintro rfl <;> cases isName

/-- Fixed texts of which models are made: of one line, plain, and without pairs of
reserved characters. -/
def isFixed (text : String) : Bool :=
  PairRule.keepsApart text.toList &&
    text.toList.all fun character => isInline character && isPlain character

/-- Fixed texts that may stand between any two others. -/
def isSeparator (text : String) : Bool :=
  isFixed text && isBorder text

theorem isFixed_of_isSeparator {text : String} (known : isSeparator text = true) :
    isFixed text = true :=
  (Bool.and_eq_true_iff.mp known).1

theorem isFixed_iff {text : String} :
    isFixed text = true ↔ PairRule.keepsApart text.toList = true ∧
      ConsistsOf isInline text ∧ ConsistsOf isPlain text := by
  simp [isFixed, ConsistsOf, forall_and]

@[simp]
theorem isSeparator_natural (value : Nat) : isSeparator (toString value) = true := by
  rw [isSeparator, Bool.and_eq_true, isFixed_iff]
  refine ⟨⟨PairRule.keepsApart_of_free (natural_free value), ?_, ?_⟩, isBorder_natural value⟩
  · exact allowsNames_isInline.consistsOf_natural value
  · exact allowsNames_isPlain.consistsOf_natural value

/-- A property of texts over an alphabet that printing keeps. -/
structure TextLaw (isAllowed : Char → Bool) (good : String → Prop) : Prop where
  allowsNames : AllowsNames isAllowed
  given : ∀ {text : String}, ConsistsOf isAllowed text → good text
  fixed : ∀ {text : String}, isFixed text = true → good text
  separated : ∀ {before separator after : String}, isSeparator separator = true →
    good before → good after → good (before ++ separator ++ after)
  enclosing : ∀ {before text : String}, good before → good text →
    good (before ++ "(" ++ text ++ ")")
  emptySet : good "\x7b\x7d"
  negated : ∀ {operand : Term}, (∀ name ∈ operand.names, ConsistsOf isAllowed name) →
    operand.isUnary = false → good (operand.render true) → good ("-" ++ operand.render true)

namespace TextLaw

variable {isAllowed : Char → Bool} {good : String → Prop} (law : TextLaw isAllowed good)
include law

theorem behind {border text : String} (known : isSeparator border = true) (ofText : good text) :
    good (border ++ text) := by
  have joined := law.separated known (law.fixed (by decide : isFixed "" = true)) ofText
  rwa [String.empty_append] at joined

theorem followed {border text : String} (known : isSeparator border = true)
    (ofText : good text) : good (text ++ border) := by
  have joined := law.separated known ofText (law.fixed (by decide : isFixed "" = true))
  rwa [String.append_empty] at joined

theorem joinWith {separator : String} (known : isSeparator separator = true)
    {parts : List String} (each : ∀ part ∈ parts, good part) :
    good (joinWith separator parts) := by
  induction parts with
  | nil =>
      exact law.fixed (by decide : isFixed "" = true)
  | cons first rest inductionHypothesis =>
      rw [List.forall_mem_cons] at each
      cases rest with
      | nil =>
          exact each.1
      | cons next others =>
          rw [joinWith_cons_cons]
          exact law.separated known each.1 (inductionHypothesis each.2)

theorem application {function : String} {arguments : List String} (ofFunction : good function)
    (each : ∀ argument ∈ arguments, good argument) : good (application function arguments) := by
  rw [SequenceChart.application]
  split
  · exact ofFunction
  · exact law.enclosing ofFunction (law.joinWith (by decide) each)

theorem render {term : Term} (names : ∀ name ∈ term.names, ConsistsOf isAllowed name)
    (nested : Bool) : good (term.render nested) := by
  induction term generalizing nested with
  | natural value =>
      exact law.fixed (isFixed_of_isSeparator (isSeparator_natural value))
  | truth value =>
      apply law.fixed
      cases value <;> rw [Term.render] <;> decide
  | name identifier =>
      exact law.given (names identifier List.mem_cons_self)
  | unary operator operand inductionHypothesis =>
      have inner := inductionHypothesis names true
      rw [Term.render]
      split
      · have symbol : isFixed operator.symbol = true := by cases operator <;> decide
        exact law.enclosing (law.fixed symbol) inner
      · rename_i notUnary
        cases operator with
        | not =>
            exact law.behind (by decide) inner
        | neg =>
            exact law.negated names (Bool.eq_false_of_not_eq_true notUnary) inner
  | binary operator left right leftHypothesis rightHypothesis =>
      rw [Term.names, List.forall_mem_append] at names
      have symbol : isFixed operator.symbol = true := by cases operator <;> decide
      have front := law.separated (by decide : isSeparator " " = true)
        (leftHypothesis names.1 true) (law.fixed symbol)
      have body := law.separated (by decide : isSeparator " " = true) front
        (rightHypothesis names.2 true)
      cases nested with
      | true =>
          have enclosed := law.enclosing (law.fixed (by decide : isFixed "" = true)) body
          rwa [String.empty_append] at enclosed
      | false =>
          exact body

theorem term {term : Term} (names : ∀ name ∈ term.names, ConsistsOf isAllowed name) :
    good term.text :=
  law.render names false

/-- The braces of a set of productions are kept apart from what is inside. -/
theorem productions {channels : List String}
    (each : ∀ channel ∈ channels, ConsistsOf isAllowed channel) :
    good (EventSet.productions channels).text := by
  have inside : good (commaSeparated channels) :=
    law.joinWith (by decide) fun channel member => law.given (each channel member)
  have opening : "\x7b| " = "\x7b|" ++ " " := rfl
  have closing : " |\x7d" = " " ++ "|\x7d" := rfl
  rw [EventSet.text]
  split
  · exact law.emptySet
  · rw [opening, closing, ← String.append_assoc]
    have opened := law.separated (by decide : isSeparator " " = true)
      (law.fixed (by decide : isFixed "\x7b|" = true)) inside
    exact law.separated (by decide) opened (law.fixed (by decide))

theorem messageSet {intra : MessageSet} {internal : List String}
    (ofInternal : ∀ channel ∈ internal, ConsistsOf isAllowed channel)
    (ofTopics : ∀ chosen, intra = .topics chosen →
      ∀ topic ∈ chosen, ConsistsOf isAllowed topic.name) :
    good (intra.events internal).text := by
  cases intra with
  | empty =>
      exact law.emptySet
  | every =>
      rw [MessageSet.events]
      split
      · exact law.fixed (by decide)
      · rw [EventSet.text]
        apply law.application (law.fixed (by decide))
        rw [List.forall_mem_cons, List.forall_mem_singleton]
        exact ⟨law.fixed (by decide), law.productions ofInternal⟩
  | topics chosen =>
      apply law.productions
      intro channel member
      obtain ⟨topic, isChosen, rfl⟩ := List.mem_map.mp member
      exact law.allowsNames.consistsOf_channel (ofTopics chosen rfl topic isChosen)

private theorem field {before : String} {field : Field} (ofBefore : good before)
    (outputs : ∀ value, field = .output value → good value.text)
    (inputs : ∀ name, field = .input name → good name) : good (before ++ field.text) := by
  cases field with
  | output value =>
      have ofValue := outputs value rfl
      have mark : ".(" = "." ++ "(" := rfl
      rw [Field.text]
      split
      · rw [mark, ← String.append_assoc, ← String.append_assoc, ← String.append_assoc]
        exact law.enclosing (law.followed (by decide) ofBefore) ofValue
      · rw [← String.append_assoc]
        exact law.separated (by decide) ofBefore ofValue
  | input name =>
      rw [Field.text, ← String.append_assoc]
      exact law.separated (by decide) ofBefore (inputs name rfl)
  | ignored =>
      exact law.followed (by decide) ofBefore

theorem fields {before : String} {fields : List Field} (ofBefore : good before)
    (outputs : ∀ value, .output value ∈ fields → good value.text)
    (inputs : ∀ name, .input name ∈ fields → good name) :
    good (before ++ concatenate (fields.map Field.text)) := by
  induction fields generalizing before with
  | nil =>
      rw [List.map_nil, show concatenate [] = "" from rfl, String.append_empty]
      exact ofBefore
  | cons field rest inductionHypothesis =>
      rw [List.map_cons, concatenate_cons, ← String.append_assoc]
      apply inductionHypothesis
      · apply law.field ofBefore
        · rintro value rfl
          exact outputs value List.mem_cons_self
        · rintro name rfl
          exact inputs name List.mem_cons_self
      · exact fun value member => outputs value (List.mem_cons_of_mem field member)
      · exact fun name member => inputs name (List.mem_cons_of_mem field member)

section Accesses

variable {memory name : String} (ofMemory : ConsistsOf isAllowed memory)
  (ofName : ConsistsOf isAllowed name)
include ofMemory ofName

/-- Loads and stores have a channel of the memory, a mark and the variable. -/
theorem access {channel mark : String} (ofChannel : ConsistsOf isAllowed channel)
    (known : isSeparator mark = true) : good (qualified memory channel ++ mark ++ name) := by
  have ofQualified := law.allowsNames.consistsOf_qualified ofMemory ofChannel
  exact law.separated known (law.given ofQualified) (law.given ofName)

theorem load : good (Event.load memory name).text :=
  law.access ofMemory ofName (law.allowsNames.consistsOf_getChannel ofName) (by decide)

theorem store : good (Event.store memory name).text :=
  law.access ofMemory ofName (law.allowsNames.consistsOf_setChannel ofName) (by decide)

end Accesses

end TextLaw

/-- Without line breaks in given texts there are none in printed ones. -/
theorem textLaw_inline : TextLaw isInline (ConsistsOf isInline) where
  allowsNames := allowsNames_isInline
  given := id
  fixed known := (isFixed_iff.mp known).2.1
  separated known ofBefore ofAfter :=
    (ofBefore.append (isFixed_iff.mp (isFixed_of_isSeparator known)).2.1).append ofAfter
  enclosing ofBefore ofText :=
    ((ofBefore.append (by decide)).append ofText).append (by decide)
  emptySet := by decide
  negated _ _ inner := ConsistsOf.append (by decide) inner

/-- A rule that tolerates the given texts finds nothing in printed ones. -/
theorem PairRule.Tolerates.textLaw {β : Type} {rule : PairRule β} {isAllowed : Char → Bool}
    (tolerates : rule.Tolerates isAllowed) :
    TextLaw isAllowed fun text => rule.within text = [] where
  allowsNames := tolerates.allowsNames
  given := tolerates.within_eq_nil
  fixed known := rule.among_eq_nil_of_keepsApart (isFixed_iff.mp known).1
  separated known ofBefore ofAfter := by
    rw [rule.within_separated _ _ (Bool.and_eq_true_iff.mp known).2, ofBefore, ofAfter]
    rfl
  enclosing ofBefore ofText := by
    rw [rule.within_followed _ (by decide), rule.within_separated _ _ (by decide), ofBefore,
      ofText]
    rfl
  emptySet := by
    have only : rule.within "\x7b\x7d" = (rule.select '\x7b' '\x7d').toList :=
      List.append_nil _
    rw [only, tolerates.emptySet]
    rfl
  negated names notUnary inner :=
    (tolerates.within_dash (tolerates.render_begins names notUnary)).trans inner

end SequenceChart
