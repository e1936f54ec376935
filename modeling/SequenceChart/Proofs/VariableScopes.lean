import SequenceChart.Proofs.Landmarks
import SequenceChart.Proofs.Nesting
import SequenceChart.Proofs.Renderings
import SequenceChart.Proofs.Tokens

/-!
# Scopes of variables

In the text of a process a variable stands for the value that was last bound to
its name.  Loads bind variables for the expressions behind them, and messages
bind variables for the stores behind them.  Both only reach to the end of their
scope, so all depends on where parentheses stand.

Fragments load what their own expressions read, and nothing else.  While the
text of a fragment goes on, these loads are open: they stand in front, and the
text since has not left their scope.  `Setting.Open` keeps track of the depth at
which it is.  An expression that is printed while its loads are open is covered.
-/

namespace SequenceChart

namespace Token

/-- The selected tokens of a text, each with all that stands in front of it. -/
def occurrences {β : Type} (select : Token → Option β) (before : List Token) :
    List Token → List (List Token × β)
  | [] => []
  | token :: rest =>
      (select token).toList.map (fun found => (before, found)) ++
        occurrences select (before ++ [token]) rest

theorem occurrences_append {β : Type} (select : Token → Option β)
    (before first second : List Token) :
    occurrences select before (first ++ second) =
      occurrences select before first ++ occurrences select (before ++ first) second := by
  induction first generalizing before with
  | nil =>
      simp [occurrences]
  | cons token rest inductionHypothesis =>
      simp [occurrences, inductionHypothesis]

theorem occurrences_eq_nil {β : Type} {select : Token → Option β} {tokens : List Token}
    (none : ∀ token ∈ tokens, select token = none) (before : List Token) :
    occurrences select before tokens = [] := by
  induction tokens generalizing before with
  | nil =>
      rfl
  | cons token rest inductionHypothesis =>
      rw [List.forall_mem_cons] at none
      rw [occurrences, none.1, inductionHypothesis none.2]
      rfl

def value? : Token → Option Term
  | .value term => some term
  | _ => none

def store? : Token → Option Event
  | .arrow (.store memory name) => some (.store memory name)
  | _ => none

/-- A text behind the tokens is to its end in the scope of an arrow, and the event
in front of that arrow is of the given kind. -/
def InScopeOf (isKind : Event → Prop) (before : List Token) (text : String) : Prop :=
  ∃ earlier event between, before = earlier ++ .arrow event :: between ∧ isKind event ∧
    InScope (listText between ++ text)

end Token

/-- The event binds the name for what follows its arrow. -/
def Event.Binds (name : String) : Event → Prop
  | .message _ _ fields => .input name ∈ fields
  | .load _ loaded => loaded = name
  | _ => False

namespace Setting

variable (setting : Setting)

/-- The term of the expression is printed, and every variable in it is in the scope
of a load of that variable. -/
def IsCovered (expression : ExpressionId) (occurrence : List Token × Term) : Prop :=
  setting.termOf expression = .ok occurrence.2 ∧
    ∀ id, setting.interaction.toDiagram.Mentions expression id →
      Token.InScopeOf (setting.specification.IsAccess .load id) occurrence.1 occurrence.2.text

/-- What is stored is a variable that a message has bound, and the store is in the
scope of the event of that message. -/
def IsBound (occurrence : List Token × Event) : Prop :=
  ∃ content id found, id ∈ content.bindings ∧
    setting.specification.variableAt id = .ok found ∧
    setting.specification.IsAccess .store id occurrence.2 ∧
    Token.InScopeOf (fun event => setting.messageEvent content = .ok event ∧
      event.Binds found.name) occurrence.1 ""

/-- All variables of the expressions have been loaded, and the text since has come
to the given depth in the scopes of the loads. -/
def Open (given : List ExpressionId) (before : List Token) (depth : Nat) : Prop :=
  ∀ expression ∈ given, ∀ id, setting.interaction.toDiagram.Mentions expression id →
    ∃ earlier event between, before = earlier ++ .arrow event :: between ∧
      setting.specification.IsAccess .load id event ∧
      Nesting.after ⟨0, false⟩ (Token.listText between) = some ⟨depth, false⟩

variable {setting} {given : List ExpressionId} {before : List Token} {depth : Nat}

theorem open_nil (before : List Token) (depth : Nat) : setting.Open [] before depth := by
  simp [Open]

/-- Loads stay open over a text that does not leave their scope. -/
theorem Open.extend (opened : setting.Open given before depth) {more : List Token}
    {further : Nat}
    (text : Nesting.after ⟨depth, false⟩ (Token.listText more) = some ⟨further, false⟩) :
    setting.Open given (before ++ more) further := by
  intro expression isGiven id mentioned
  obtain ⟨earlier, event, between, rfl, isAccess, reached⟩ :=
    opened expression isGiven id mentioned
  refine ⟨earlier, event, between ++ more, by simp, isAccess, ?_⟩
  rw [Token.listText_append, Nesting.after_append, reached]
  exact text

theorem Open.flat (opened : setting.Open given before depth) {more : List Token}
    (flat : IsFlat (Token.listText more)) : setting.Open given (before ++ more) depth :=
  opened.extend (flat depth)

/-- What is printed while its loads are open is covered. -/
theorem Open.isCovered (opened : setting.Open given before depth) {expression : ExpressionId}
    (isGiven : expression ∈ given) {term : Term} (done : setting.termOf expression = .ok term)
    (flat : IsFlat term.text) : setting.IsCovered expression (before, term) := by
  refine ⟨done, fun id mentioned => ?_⟩
  obtain ⟨earlier, event, between, shape, isAccess, reached⟩ :=
    opened expression isGiven id mentioned
  refine ⟨earlier, event, between, shape, isAccess, ?_⟩
  rw [InScope, Nesting.after_append, reached, Option.bind_some, flat depth]
  rfl

end Setting

/-! ## Well-scoped processes -/

/-- The process prints the expressions in order.  Wherever it stands, all of them are
covered if the loads of some are open, at a depth that is not below the least one. -/
structure Behaviour.Scoped (setting : Setting) (given : List ExpressionId) (least : Nat)
    (shown : List ExpressionId) (behaviour : Behaviour) : Prop where
  nested : IsNested behaviour.text
  covered : ∀ before depth, least ≤ depth → setting.Open given before depth →
    List.Forall₂ setting.IsCovered shown
      (Token.occurrences Token.value? before behaviour.tokens)
  bound : ∀ before, ∀ found ∈ Token.occurrences Token.store? before behaviour.tokens,
    setting.IsBound found

namespace Behaviour

variable {setting : Setting} {given shown more : List ExpressionId} {least : Nat}
  {behaviour : Behaviour}

namespace Scoped

/-- What needs no loads is in order everywhere. -/
theorem anywhere (ofWhole : behaviour.Scoped setting [] least shown) (given : List ExpressionId)
    (other : Nat) : behaviour.Scoped setting given other shown where
  nested := ofWhole.nested
  covered before _ _ _ := ofWhole.covered before least le_rfl (Setting.open_nil before least)
  bound := ofWhole.bound

private theorem deeper (ofWhole : behaviour.Scoped setting given least shown) {other : Nat}
    (deep : least ≤ other) : behaviour.Scoped setting given other shown where
  nested := ofWhole.nested
  covered before depth isDeep opened :=
    ofWhole.covered before depth (deep.trans isDeep) opened
  bound := ofWhole.bound

theorem skip : Behaviour.skip.Scoped setting given least [] where
  nested := (isFlat_of_plain (by decide)).isNested
  covered _ _ _ _ := .nil
  bound _ _ member := by cases member

private theorem stop : Behaviour.stop.Scoped setting given least [] where
  nested := (isFlat_of_plain (by decide)).isNested
  covered _ _ _ _ := .nil
  bound _ _ member := by cases member

/-- Parentheses put all that is inside at some depth. -/
theorem grouped (ofWhole : behaviour.Scoped setting given 1 shown) :
    behaviour.grouped.Scoped setting given least shown where
  nested := ofWhole.nested.enclosed.isNested
  covered before depth _ opened := by
    have inside : setting.Open given (before ++ [.plain "("]) (depth + 1) :=
      opened.extend (by rfl)
    have ofBody := ofWhole.covered _ _ (Nat.le_add_left 1 depth) inside
    simpa [tokens, Token.occurrences, Token.occurrences_append, Token.value?] using ofBody
  bound before := by
    have ofBody := ofWhole.bound (before ++ [.plain "("])
    simpa [tokens, Token.occurrences, Token.occurrences_append, Token.store?] using ofBody

end Scoped

/-- Inside of a parenthesis, processes can be put side by side or in sequence. -/
theorem scoped_beside (separator : String) {first second : Behaviour}
    (ofFirst : first.Scoped setting given 1 shown)
    (ofSecond : second.Scoped setting given 1 more) (nested : IsNested separator)
    {whole : Behaviour} (text : whole.text = first.text ++ separator ++ second.text)
    (shape : whole.tokens = first.tokens ++ .plain separator :: second.tokens) :
    whole.Scoped setting given 1 (shown ++ more) where
  nested := by
    rw [text]
    exact (ofFirst.nested.append nested).append ofSecond.nested
  covered before depth isDeep opened := by
    obtain ⟨depth, rfl⟩ := Nat.exists_eq_add_of_le' isDeep
    have passed : setting.Open given (before ++ (first.tokens ++ [.plain separator]))
        (depth + 1) := by
      apply opened.extend
      simpa [Token.text] using (ofFirst.nested.append nested) depth
    have together := List.rel_append (ofFirst.covered before _ isDeep opened)
      (ofSecond.covered _ _ isDeep passed)
    simpa [shape, Token.occurrences, Token.occurrences_append, Token.value?] using together
  bound before := by
    have ofLeft := ofFirst.bound before
    have ofRight := ofSecond.bound (before ++ (first.tokens ++ [.plain separator]))
    rw [shape, Token.occurrences_append, List.forall_mem_append]
    exact ⟨ofLeft, by simpa [Token.occurrences, Token.store?] using ofRight⟩

private theorem composable_scoped (setting : Setting) (given : List ExpressionId) :
    Composable fun shown behaviour => behaviour.Scoped setting given 1 shown where
  skip := .skip
  stop := .stop
  andThen ofFirst ofSecond := scoped_beside "; " ofFirst ofSecond isNested_sequence rfl rfl
  join := by
    intro shown more operator left right ofLeft ofRight
    refine scoped_beside (" " ++ operator.symbol ++ " ") ofLeft ofRight
      (isFlat_of_plain ?_).isNested ?_ rfl
    · cases operator <;> decide
    · simp [text, String.append_assoc]
  grouped := Scoped.grouped

/-- A combination puts its parts in parentheses, unless there is only one. -/
theorem scoped_combine (operator : JoinOperator)
    (parts : List (List ExpressionId × Behaviour))
    (each : ∀ part ∈ parts, part.2.Scoped setting given 0 part.1) :
    (combine operator (parts.map Prod.snd)).Scoped setting given 0
      (parts.flatMap Prod.fst) := by
  match parts with
  | [] =>
      cases operator with
      | externalChoice | internalChoice =>
          exact .stop
      | interleaving =>
          exact .skip
  | [only] =>
      simpa [combine] using each only List.mem_cons_self
  | first :: next :: rest =>
      have inside : ∀ part ∈ first :: next :: rest, part.2.Scoped setting given 1 part.1 :=
        fun part member => (each part member).deeper (Nat.zero_le 1)
      rw [List.forall_mem_cons] at inside
      exact ((composable_scoped setting given).joinAll operator inside.1 inside.2).grouped

end Behaviour

theorem Event.isFlat_leadTokens {events : List Event}
    (flat : ∀ event ∈ events, IsFlat event.text) :
    IsFlat (Token.listText (leadTokens events)) := by
  induction events with
  | nil =>
      exact fun _ => rfl
  | cons event rest inductionHypothesis =>
      rw [List.forall_mem_cons] at flat
      have arrow : IsFlat " -> " := isFlat_of_plain (by decide)
      have ofRest := inductionHypothesis flat.2
      simpa [leadTokens, Token.text] using flat.1.append (arrow.append ofRest)

/-- There is no arrow in an event. -/
theorem Event.store?_tokens (event : Event) : ∀ token ∈ event.tokens, token.store? = none := by
  cases event with
  | message content direction fields =>
      rw [tokens, List.forall_mem_cons]
      refine ⟨rfl, fun token member => ?_⟩
      obtain ⟨field, _, inField⟩ := List.mem_flatMap.mp member
      cases field with
      | output value =>
          rw [Field.tokens] at inField
          split at inField
          · simp only [List.mem_cons, List.not_mem_nil, or_false] at inField
            rcases inField with rfl | rfl | rfl <;> rfl
          · simp only [List.mem_cons, List.not_mem_nil, or_false] at inField
            rcases inField with rfl | rfl <;> rfl
      | input name | ignored =>
          cases List.mem_singleton.mp inField
          rfl
  | _ =>
      simp [tokens, Token.store?]

/-- Events without fields show no values. -/
theorem Event.value?_leadTokens {events : List Event}
    (plain : ∀ event ∈ events, event.tokens = [.plain event.text]) :
    ∀ token ∈ leadTokens events, token.value? = none := by
  intro token member
  obtain ⟨event, isEvent, inEvent⟩ := List.mem_flatMap.mp member
  rw [plain event isEvent] at inEvent
  simp only [List.cons_append, List.nil_append, List.mem_cons, List.not_mem_nil,
    or_false] at inEvent
  rcases inEvent with rfl | rfl <;> rfl

namespace Setting

variable {setting : Setting} {given : List ExpressionId} {loads : List Event}
  (names : setting.specification.HasPlainNames setting.interaction.toDiagram)
  (done : (setting.loadsOf given).result = .ok loads)
include done

/-- Loads are no stores, and show no values. -/
theorem exists_load_of_mem {event : Event} (member : event ∈ loads) :
    ∃ memory name, event = .load memory name := by
  obtain ⟨_, _, _, _, found, memory, _, _, shape⟩ := exists_mentioned done member
  exact ⟨memory, found.name, shape⟩

private theorem value?_loads : ∀ token ∈ Event.leadTokens loads, token.value? = none := by
  refine Event.value?_leadTokens fun event member => ?_
  obtain ⟨memory, name, rfl⟩ := exists_load_of_mem done member
  rfl

private theorem store?_loads : ∀ token ∈ Event.leadTokens loads, token.store? = none := by
  intro token member
  obtain ⟨event, isLoad, inEvent⟩ := List.mem_flatMap.mp member
  obtain ⟨memory, name, rfl⟩ := exists_load_of_mem done isLoad
  rcases List.mem_append.mp inEvent with inTokens | isArrow
  · exact Event.store?_tokens _ token inTokens
  · cases List.mem_singleton.mp isArrow
    rfl

include names

private theorem isFlat_loads : IsFlat (Token.listText (Event.leadTokens loads)) := by
  refine Event.isFlat_leadTokens fun event member => ?_
  obtain ⟨_, _, _, _, isAccess⟩ := exists_mentioned done member
  exact names.isFlat_access textLaw_flat.load isAccess

/-- Right behind its loads an expression has them open. -/
theorem open_loads (before : List Token) :
    setting.Open given (before ++ Event.leadTokens loads) 0 := by
  intro expression isGiven id mentioned
  obtain ⟨event, isLoad, isAccess⟩ := exists_load done isGiven mentioned
  obtain ⟨earlier, later, rfl⟩ := List.append_of_mem isLoad
  refine ⟨before ++ Event.leadTokens earlier ++ event.tokens, event, Event.leadTokens later,
    by simp [Event.leadTokens], isAccess, ?_⟩
  refine Event.isFlat_leadTokens (fun other member => ?_) 0
  obtain ⟨_, _, _, _, otherAccess⟩ :=
    exists_mentioned done (List.mem_append_right _ (List.mem_cons_of_mem event member))
  exact names.isFlat_access textLaw_flat.load otherAccess

end Setting

namespace Behaviour

variable {setting : Setting} {given shown inside : List ExpressionId} {least : Nat}
  {behaviour : Behaviour}

/-- Loads in front of a process open what it needs. -/
theorem Scoped.loaded
    (names : setting.specification.HasPlainNames setting.interaction.toDiagram)
    {loads : List Event} (done : (setting.loadsOf given).result = .ok loads)
    (ofWhole : behaviour.Scoped setting given 0 shown) :
    (performAll loads behaviour).Scoped setting [] least shown where
  nested := by
    rw [← listText_tokens, tokens_performAll, Token.listText_append, listText_tokens]
    exact (Setting.isFlat_loads names done).isNested.append ofWhole.nested
  covered before depth _ _ := by
    rw [tokens_performAll, Token.occurrences_append,
      Token.occurrences_eq_nil (Setting.value?_loads done)]
    exact ofWhole.covered _ 0 le_rfl (Setting.open_loads names done before)
  bound before := by
    rw [tokens_performAll, Token.occurrences_append,
      Token.occurrences_eq_nil (Setting.store?_loads done)]
    exact ofWhole.bound _

end Behaviour

section Arguments

variable {setting : Setting} {given : List ExpressionId}
  (names : setting.specification.HasPlainNames setting.interaction.toDiagram)
include names

/-- Values with commas between them are covered one by one. -/
theorem covered_separated {shown : List ExpressionId} {terms : List Term}
    (each : List.Forall₂ (fun id term => setting.termOf id = .ok term) shown terms)
    (isGiven : ∀ id ∈ shown, id ∈ given) {before : List Token} {depth : Nat}
    (opened : setting.Open given before depth) :
    List.Forall₂ setting.IsCovered shown (Token.occurrences Token.value? before
      (Token.separated ", " (terms.map fun term => [.value term]))) := by
  induction each generalizing before with
  | nil =>
      exact .nil
  | @cons id term others rest done eachRest inductionHypothesis =>
      rw [List.forall_mem_cons] at isGiven
      have flat := names.isFlat_term done
      have first := opened.isCovered isGiven.1 done flat
      cases rest with
      | nil =>
          cases eachRest
          exact .cons first .nil
      | cons next later =>
          have comma : IsFlat ", " := isFlat_of_plain (by decide)
          have passed : setting.Open given (before ++ [.value term, .plain ", "]) depth :=
            opened.flat (by simpa [Token.text] using flat.append comma)
          have ofRest := inductionHypothesis isGiven.2 passed
          simp only [List.map_cons] at ofRest ⊢
          rw [Token.separated_cons_cons]
          exact .cons first (by simpa [Token.occurrences, Token.value?] using ofRest)

/-- The arguments of a function are covered. -/
theorem covered_application {function : String} (plain : ConsistsOf isPlain function)
    {shown : List ExpressionId} {terms : List Term}
    (each : List.Forall₂ (fun id term => setting.termOf id = .ok term) shown terms)
    (isGiven : ∀ id ∈ shown, id ∈ given) {before : List Token} {depth : Nat}
    (opened : setting.Open given before depth) :
    List.Forall₂ setting.IsCovered shown (Token.occurrences Token.value? before
      (Token.application function (terms.map fun term => [.value term]))) := by
  rw [Token.application]
  split
  · rename_i empty
    obtain rfl : terms = [] := by simpa using empty
    cases each
    exact .nil
  · have inside : setting.Open given (before ++ [.plain (function ++ "(")]) (depth + 1) := by
      apply opened.extend
      have reached := isFlat_of_plain plain depth
      simp only [Token.listText_cons, Token.text, Token.listText_nil, String.append_empty]
      rw [Nesting.after_append, reached]
      rfl
    have ofTerms := covered_separated names each isGiven inside
    simpa [Token.occurrences, Token.occurrences_append, Token.value?] using ofTerms

end Arguments

theorem Synchronisation.isFlat_event (synchronisation : Synchronisation) {phase : Phase}
    {id : FragmentId} {event : Event} (done : synchronisation.event phase id = .ok event) :
    IsFlat event.text := by
  obtain ⟨number, _, last⟩ := bind_eq_ok_iff.mp done
  cases last
  have channel : ConsistsOf isPlain synchronisation.kind.channel := by
    cases synchronisation.kind <;> decide
  have dot : ConsistsOf isPlain "." := by decide
  have ending : ConsistsOf isPlain phase.text := by
    cases phase <;> decide
  have counted := allowsNames_isPlain.consistsOf_natural number
  exact isFlat_of_plain ((((channel.append dot).append counted).append dot).append ending)

/-! ## Calls -/

/-- In a call stand its arguments and plain text. -/
theorem Token.store?_application {function : String} {arguments : List (List Token)}
    (each : ∀ argument ∈ arguments, ∀ token ∈ argument, token.store? = none) :
    ∀ token ∈ application function arguments, token.store? = none := by
  have ofSeparated : ∀ token ∈ separated ", " arguments, token.store? = none := by
    induction arguments with
    | nil =>
        simp [separated]
    | cons first rest inductionHypothesis =>
        rw [List.forall_mem_cons] at each
        cases rest with
        | nil =>
            exact each.1
        | cons next later =>
            rw [separated_cons_cons, List.forall_mem_append, List.forall_mem_cons]
            exact ⟨each.1, rfl, inductionHypothesis each.2⟩
  rw [application]
  split
  · simp [store?]
  · rw [List.forall_mem_cons, List.forall_mem_append, List.forall_mem_singleton]
    exact ⟨rfl, ofSeparated, rfl⟩

theorem Operand.store?_tokens (operand : Operand) :
    ∀ token ∈ operand.tokens, token.store? = none := by
  cases operand with
  | value term | events set =>
      simp [tokens, Token.store?]
  | call function arguments =>
      exact Token.store?_application (by simp [Token.store?])

namespace Behaviour

variable {setting : Setting} {given shown inside : List ExpressionId} {least : Nat}
  {behaviour : Behaviour}

private theorem store?_arguments (function : String) (arguments : List Operand) :
    ∀ token ∈ Token.application function (arguments.map Operand.tokens),
      token.store? = none :=
  Token.store?_application (List.forall_mem_map.mpr fun operand _ => operand.store?_tokens)

/-- A call puts its body in parentheses, behind its arguments. -/
theorem Scoped.wrapped {function : String} {arguments : List Operand}
    (flat : IsFlat (application function (arguments.map Operand.text)))
    (covered : ∀ before depth, setting.Open given before depth →
      List.Forall₂ setting.IsCovered shown (Token.occurrences Token.value? before
        (Token.application function (arguments.map Operand.tokens))))
    (ofBody : behaviour.Scoped setting given 1 inside) :
    (wrapped function arguments behaviour).Scoped setting given least (shown ++ inside) where
  nested := (flat.enclosing ofBody.nested).isNested
  covered before depth _ opened := by
    have head : IsFlat (Token.listText
        (Token.application function (arguments.map Operand.tokens))) := by
      simpa [Function.comp_def] using flat
    have within := ofBody.covered _ (depth + 1) (Nat.le_add_left 1 depth)
      ((opened.flat head).extend
        (show Nesting.after ⟨depth, false⟩ (Token.listText [.plain "("]) = _ from rfl))
    have together := List.rel_append (covered before depth opened) within
    simpa [tokens, Token.occurrences, Token.occurrences_append, Token.value?] using together
  bound before := by
    have within := ofBody.bound
      (before ++ Token.application function (arguments.map Operand.tokens) ++ [.plain "("])
    rw [tokens, Token.occurrences_append,
      Token.occurrences_eq_nil (store?_arguments function arguments)]
    simpa [Token.occurrences, Token.occurrences_append, Token.store?] using within

section Values

variable (names : setting.specification.HasPlainNames setting.interaction.toDiagram)
  {function : String} (plain : ConsistsOf isPlain function) {terms : List Term}
  (each : List.Forall₂ (fun id term => setting.termOf id = .ok term) shown terms)
include names plain each

theorem isFlat_valueCall :
    IsFlat (application function ((terms.map Operand.value).map Operand.text)) := by
  refine textLaw_flat.application (isFlat_of_plain plain) fun text member => ?_
  obtain ⟨_, isOperand, rfl⟩ := List.mem_map.mp member
  obtain ⟨term, isTerm, rfl⟩ := List.mem_map.mp isOperand
  obtain ⟨id, _, termDone⟩ := exists_left_of_mem each isTerm
  exact names.isFlat_term termDone

variable (isGiven : ∀ id ∈ shown, id ∈ given)
include isGiven

private theorem covered_valueCall {before : List Token} {depth : Nat}
    (opened : setting.Open given before depth) :
    List.Forall₂ setting.IsCovered shown (Token.occurrences Token.value? before
      (Token.application function ((terms.map Operand.value).map Operand.tokens))) := by
  have values : (terms.map Operand.value).map Operand.tokens =
      terms.map fun term => [.value term] := by
    simp [Operand.tokens, Function.comp_def]
  rw [values]
  exact covered_application names plain each isGiven opened

/-- A call with values and a body. -/
theorem Scoped.called (ofBody : behaviour.Scoped setting given 1 inside) :
    (Behaviour.wrapped function (terms.map .value) behaviour).Scoped setting given least
      (shown ++ inside) :=
  Scoped.wrapped (isFlat_valueCall names plain each)
    (fun _ _ => covered_valueCall names plain each isGiven) ofBody

/-- A call with values only. -/
theorem Scoped.applied :
    (Behaviour.applied function (terms.map .value)).Scoped setting given least shown where
  nested := (isFlat_valueCall names plain each).isNested
  covered _ _ _ := covered_valueCall names plain each isGiven
  bound before found member := by
    rw [tokens, Token.occurrences_eq_nil (store?_arguments _ _)] at member
    cases member

end Values

theorem Scoped.idle (ofBody : behaviour.Scoped setting given 1 inside) :
    behaviour.idle.Scoped setting given least inside := by
  have plain : IsFlat (application "Idle" ([].map Operand.text)) :=
    isFlat_of_plain (by decide)
  exact Scoped.wrapped plain (fun _ _ _ => .nil) ofBody

theorem Scoped.remarked {remark : String} (plain : ConsistsOf isPlain remark)
    (ofBody : behaviour.Scoped setting given 1 inside) :
    (Behaviour.remarked remark behaviour).Scoped setting given 1 inside where
  nested := by
    have blank : IsFlat " " := isFlat_of_plain (by decide)
    exact ((isFlat_comment plain).append blank).isNested.append ofBody.nested
  covered before depth isDeep opened := by
    have blank : IsFlat " " := isFlat_of_plain (by decide)
    have passed : setting.Open given (before ++ [.plain (comment remark ++ " ")]) depth :=
      opened.flat (by simpa [Token.text] using (isFlat_comment plain).append blank)
    simpa [tokens, Token.occurrences, Token.value?] using
      ofBody.covered _ depth isDeep passed
  bound before := by
    simpa [tokens, Token.occurrences, Token.store?] using ofBody.bound _

/-- Handshakes in front of a process take no part in scopes. -/
theorem Scoped.signalled {synchronisation : Synchronisation} {phase : Phase} {id : FragmentId}
    {event : Event} (done : synchronisation.event phase id = .ok event)
    (ofBody : behaviour.Scoped setting [] 1 inside) :
    (perform event behaviour).Scoped setting [] 1 inside := by
  have flat := synchronisation.isFlat_event done
  obtain ⟨number, _, last⟩ := bind_eq_ok_iff.mp done
  cases last
  have arrow : IsFlat " -> " := isFlat_of_plain (by decide)
  constructor
  · exact (flat.append arrow).isNested.append ofBody.nested
  · intro before depth isDeep _
    simpa [tokens, Event.tokens, Token.occurrences, Token.value?] using
      ofBody.covered _ depth isDeep (Setting.open_nil _ depth)
  · intro before
    simpa [tokens, Event.tokens, Token.occurrences, Token.store?] using ofBody.bound _

/-- A guard is printed right behind the loads of all guards of its choice, or inside
of a parenthesis behind them. -/
theorem Scoped.guarded
    (names : setting.specification.HasPlainNames setting.interaction.toDiagram)
    {guard : ExpressionId} (isGiven : guard ∈ given) {condition : Term}
    (done : setting.termOf guard = .ok condition)
    (ofBody : behaviour.Scoped setting [] 1 inside) :
    (Behaviour.guarded condition behaviour).Scoped setting given 0 (guard :: inside) where
  nested := by
    have sign : IsFlat " & " := isFlat_of_plain (by decide)
    exact ((names.isFlat_term done).append sign).isNested.append ofBody.nested
  covered before depth _ opened := by
    have ofGuard := opened.isCovered isGiven done (names.isFlat_term done)
    refine .cons ofGuard ?_
    simpa [Token.occurrences, Token.value?] using
      ofBody.covered _ 1 le_rfl (Setting.open_nil _ 1)
  bound before := by
    simpa [tokens, Token.occurrences, Token.store?] using ofBody.bound _

theorem ChoiceArm.IsGuarded.scoped
    (names : setting.specification.HasPlainNames setting.interaction.toDiagram)
    {arm : ChoiceArm} (isGuarded : arm.IsGuarded setting)
    (isGiven : ∀ guard ∈ arm.guard, guard ∈ given)
    (ofBody : arm.body.Scoped setting [] 1 arm.shown) :
    arm.whole.Scoped setting given 0 (arm.guard.toList ++ arm.shown) := by
  obtain ⟨guard, shown, body, whole⟩ := arm
  cases guard with
  | none =>
      cases isGuarded
      exact ofBody.anywhere given 0
  | some guard =>
      obtain ⟨condition, done, shape⟩ := isGuarded
      dsimp only at shape
      subst shape
      exact Scoped.guarded names (isGiven guard rfl) done
        ((composable_scoped setting []).enclose ofBody)

end Behaviour

def Argument.expression? : Argument → Option ExpressionId
  | .value expression => some expression
  | _ => none

theorem Message.values_eq (content : Message) :
    content.values = content.arguments.filterMap Argument.expression? :=
  rfl

/-- Every variable that a message binds is among its arguments. -/
theorem Message.mem_bindings {content : Message} {id : VariableId}
    (member : id ∈ content.bindings) : .bind id ∈ content.arguments := by
  obtain ⟨argument, isArgument, selected⟩ := List.mem_filterMap.mp member
  cases argument with
  | bind other =>
      cases selected
      exact isArgument
  | value | ignored =>
      cases selected

section Messages

variable {setting : Setting}
  (names : setting.specification.HasPlainNames setting.interaction.toDiagram)
include names

private theorem isFlat_field {argument : Argument} {field : Field}
    (done : setting.fieldOf argument = .ok field) : IsFlat field.text := by
  cases argument with
  | value expression =>
      obtain ⟨term, termDone, last⟩ := bind_eq_ok_iff.mp done
      cases last
      have flat := names.isFlat_term termDone
      have dot : IsFlat "." := isFlat_of_plain (by decide)
      rw [Field.text]
      split
      · exact dot.enclosing flat.isNested
      · exact dot.append flat
  | bind id =>
      obtain ⟨found, foundDone, last⟩ := bind_eq_ok_iff.mp done
      cases last
      have mark : ConsistsOf isPlain "?" := by decide
      exact isFlat_of_plain (mark.append (names.variable_name foundDone))
  | ignored =>
      cases done
      exact isFlat_of_plain (by decide)

theorem isFlat_messageEvent {content : Message} {event : Event}
    (plain : ConsistsOf isPlain content.topic.name)
    (done : setting.messageEvent content = .ok event) : IsFlat event.text := by
  obtain ⟨fields, fieldsDone, rest⟩ := bind_eq_ok_iff.mp done
  obtain ⟨direction, _, last⟩ := bind_eq_ok_iff.mp rest
  cases last
  have flatName : IsFlat (content.eventName direction) :=
    isFlat_of_plain (allowsNames_isPlain.consistsOf_eventName plain direction)
  refine flatName.append (holds_concatenate isFlat_empty IsFlat.append fun text member => ?_)
  obtain ⟨field, isField, rfl⟩ := List.mem_map.mp member
  obtain ⟨argument, _, fieldDone⟩ := exists_left_of_mem (mapM_eq_ok_iff.mp fieldsDone) isField
  exact isFlat_field names fieldDone

/-- The values that a message sends are covered one by one. -/
theorem covered_fields {given : List ExpressionId} {arguments : List Argument}
    {fields : List Field}
    (each : List.Forall₂ (fun argument field => setting.fieldOf argument = .ok field)
      arguments fields)
    (isGiven : ∀ expression ∈ arguments.filterMap Argument.expression?, expression ∈ given)
    {before : List Token} {depth : Nat} (opened : setting.Open given before depth) :
    List.Forall₂ setting.IsCovered (arguments.filterMap Argument.expression?)
      (Token.occurrences Token.value? before (fields.flatMap Field.tokens)) := by
  induction each generalizing before with
  | nil =>
      exact .nil
  | @cons argument field others rest done _ inductionHypothesis =>
      have passed : setting.Open given (before ++ field.tokens) depth :=
        opened.flat (by simpa using isFlat_field names done)
      rw [List.flatMap_cons, Token.occurrences_append]
      cases argument with
      | value expression =>
          obtain ⟨term, termDone, last⟩ := bind_eq_ok_iff.mp done
          cases last
          rw [List.filterMap_cons_some (by rfl)] at isGiven ⊢
          rw [List.forall_mem_cons] at isGiven
          have ofRest := inductionHypothesis isGiven.2 passed
          have flat := names.isFlat_term termDone
          rw [← List.singleton_append]
          refine List.rel_append ?_ ofRest
          rw [Field.tokens]
          split
          · have inside : setting.Open given (before ++ [.plain ".("]) (depth + 1) :=
              opened.extend rfl
            exact .cons (inside.isCovered isGiven.1 termDone flat) .nil
          · have behind : setting.Open given (before ++ [.plain "."]) depth :=
              opened.extend rfl
            exact .cons (behind.isCovered isGiven.1 termDone flat) .nil
      | bind id =>
          obtain ⟨found, _, last⟩ := bind_eq_ok_iff.mp done
          cases last
          exact inductionHypothesis isGiven passed
      | ignored =>
          cases done
          exact inductionHypothesis isGiven passed

end Messages

section Stores

variable {setting : Setting}
  (names : setting.specification.HasPlainNames setting.interaction.toDiagram)
  {content : Message} {event : Event} {bound : List VariableId} {stores : List Event}

/-- Every store stands behind those before it. -/
theorem exists_of_mem_leadTokens {before : List Token} {found : List Token × Event}
    (each : ∀ event ∈ stores, ∃ memory name, event = .store memory name)
    (member : found ∈ Token.occurrences Token.store? before (Event.leadTokens stores)) :
    ∃ earlier later, stores = earlier ++ found.2 :: later ∧
      found.1 = before ++ (Event.leadTokens earlier ++ found.2.tokens) := by
  induction stores generalizing before with
  | nil =>
      cases member
  | cons event rest inductionHypothesis =>
      rw [List.forall_mem_cons] at each
      obtain ⟨⟨memory, name, rfl⟩, ofRest⟩ := each
      simp only [Event.leadTokens, List.flatMap_cons, Event.tokens, List.cons_append,
        List.nil_append, Token.occurrences, Token.store?, Option.toList_none,
        Option.toList_some, List.map_nil, List.map_cons, List.mem_cons] at member
      rcases member with rfl | inRest
      · exact ⟨[], rest, rfl, by simp [Event.leadTokens, Event.tokens]⟩
      · obtain ⟨earlier, later, shape, place⟩ := inductionHypothesis ofRest inRest
        refine ⟨.store memory name :: earlier, later, by rw [shape]; rfl, ?_⟩
        rw [place]
        simp [Event.leadTokens, Event.tokens]

/-- The event of a message binds the variables that the message binds. -/
theorem exists_binding (done : setting.messageEvent content = .ok event) {id : VariableId}
    (isBinding : id ∈ content.bindings) :
    ∃ found, setting.specification.variableAt id = .ok found ∧ event.Binds found.name := by
  obtain ⟨fields, fieldsDone, rest⟩ := bind_eq_ok_iff.mp done
  obtain ⟨direction, _, last⟩ := bind_eq_ok_iff.mp rest
  cases last
  obtain ⟨field, isField, fieldDone⟩ :=
    exists_right_of_mem (mapM_eq_ok_iff.mp fieldsDone) (Message.mem_bindings isBinding)
  obtain ⟨found, foundDone, last⟩ := bind_eq_ok_iff.mp fieldDone
  cases last
  exact ⟨found, foundDone, isField⟩

variable (isBinding : ∀ id ∈ bound, id ∈ content.bindings)
  (storesDone : (setting.specification.stores bound).result = .ok stores)
include storesDone

private theorem exists_store_of_mem {store : Event} (member : store ∈ stores) :
    ∃ memory name, store = .store memory name := by
  obtain ⟨_, _, found, memory, _, _, shape⟩ := Specification.exists_accessed storesDone member
  exact ⟨memory, found.name, shape⟩

private theorem value?_stores : ∀ token ∈ Event.leadTokens stores, token.value? = none := by
  refine Event.value?_leadTokens fun store member => ?_
  obtain ⟨memory, name, rfl⟩ := exists_store_of_mem storesDone member
  rfl

include names

theorem isFlat_stores : ∀ store ∈ stores, IsFlat store.text := by
  intro store member
  obtain ⟨_, _, isAccess⟩ := Specification.exists_accessed storesDone member
  exact names.isFlat_access textLaw_flat.store isAccess

include isBinding

/-- What is stored right behind the exchange of a message is bound by it. -/
theorem isBound_stores (done : setting.messageEvent content = .ok event)
    (before : List Token) :
    ∀ found ∈ Token.occurrences Token.store? (before ++ [.arrow event])
      (Event.leadTokens stores), setting.IsBound found := by
  intro found member
  obtain ⟨earlier, later, shape, place⟩ :=
    exists_of_mem_leadTokens (fun _ => exists_store_of_mem storesDone) member
  have isStore : found.2 ∈ stores := by simp [shape]
  obtain ⟨id, isBound, isAccess⟩ := Specification.exists_accessed storesDone isStore
  obtain ⟨kept, keptDone, binds⟩ := exists_binding done (isBinding id isBound)
  refine ⟨content, id, kept, isBinding id isBound, keptDone, isAccess, before, event,
    Event.leadTokens earlier ++ found.2.tokens, by simpa using place, ⟨done, binds⟩, ?_⟩
  have front : IsFlat (Token.listText (Event.leadTokens earlier)) := by
    refine Event.isFlat_leadTokens fun other isEarlier => ?_
    exact isFlat_stores names storesDone other (by simp [shape, isEarlier])
  have whole := front.append (isFlat_stores names storesDone found.2 isStore)
  rw [InScope, Token.listText_append, Event.listText_tokens, String.append_empty, whole 0]
  rfl

/-- The exchange of a message, with the stores of what it binds. -/
theorem scoped_exchange (plain : ConsistsOf isPlain content.topic.name)
    (done : setting.messageEvent content = .ok event) :
    (Behaviour.perform event (.performAll stores .skip)).Scoped setting content.values 1
      content.values := by
  have ofStores := isBound_stores names isBinding storesDone done
  have flatEvent := isFlat_messageEvent names plain done
  obtain ⟨fields, fieldsDone, rest⟩ := bind_eq_ok_iff.mp done
  obtain ⟨direction, _, last⟩ := bind_eq_ok_iff.mp rest
  cases last
  rw [mapM_eq_ok_iff] at fieldsDone
  have flatName : IsFlat (content.eventName direction) :=
    isFlat_of_plain (allowsNames_isPlain.consistsOf_eventName plain direction)
  constructor
  · have arrow : IsFlat " -> " := isFlat_of_plain (by decide)
    have ending : IsFlat Behaviour.skip.text := isFlat_of_plain (by decide)
    rw [Behaviour.text, ← Behaviour.listText_tokens (.performAll stores .skip),
      Behaviour.tokens_performAll, Token.listText_append, Behaviour.listText_tokens]
    have lead := Event.isFlat_leadTokens (isFlat_stores names storesDone)
    exact ((flatEvent.append arrow).append (lead.append ending)).isNested
  · intro before depth _ opened
    have named : setting.Open content.values
        (before ++ [.plain (content.eventName direction)]) depth :=
      opened.flat (by simpa [Token.text] using flatName)
    have ofFields := covered_fields names fieldsDone
      (fun expression member => by rwa [Message.values_eq]) named
    rw [← Message.values_eq] at ofFields
    simpa [Behaviour.tokens, Event.tokens, Token.occurrences, Token.occurrences_append,
      Token.value?,
      Token.occurrences_eq_nil (value?_stores storesDone)] using ofFields
  · intro before
    have behind := ofStores (before ++ (Event.message content direction fields).tokens)
    have noStores := Token.occurrences_eq_nil
      (Event.message content direction fields).store?_tokens
    simpa [Behaviour.tokens, Token.occurrences, Token.occurrences_append, Token.store?,
      noStores] using behind

end Stores

theorem isFlat_untilCall {setting : Setting}
    (names : setting.specification.HasPlainNames setting.interaction.toDiagram)
    {intra : MessageSet} {internal : List String}
    (isMet : ∃ child, .until intra child ∈ setting.interaction.fragments)
    (internalDone : setting.internalChannels = .ok internal) :
    IsFlat (application "AnyUntil"
      ([Operand.events (intra.events internal)].map Operand.text)) := by
  obtain ⟨child, isEntry⟩ := isMet
  have word : IsFlat "AnyUntil" := isFlat_of_plain (by decide)
  refine textLaw_flat.application word (List.forall_mem_singleton.mpr ?_)
  refine textLaw_flat.messageSet (Setting.plain_internalChannels names internalDone) ?_
  rintro chosen rfl
  exact names.topics _ isEntry

/-! ## Renderings -/

/-- All that projections put together is well scoped: every expression is printed in
the scope of its loads, and every store in the scope of its message. -/
theorem Behaviour.Rendered.wellScoped {setting : Setting}
    (names : setting.specification.HasPlainNames setting.interaction.toDiagram)
    {shown : List ExpressionId} {behaviour : Behaviour}
    (rendered : behaviour.Rendered setting (· ∈ setting.interaction.fragments) shown) :
    behaviour.Scoped setting [] 1 shown := by
  have composable := composable_scoped setting []
  have fixed : ∀ remark ∈ fixedRemarks, ConsistsOf isPlain remark := by decide
  induction rendered with
  | skip =>
      exact .skip
  | stop =>
      exact .stop
  | @unsupported remark isFixed =>
      have flat : IsFlat (Behaviour.annotated .stop remark).text := by
        have front : IsFlat "STOP " := isFlat_of_plain (by decide)
        exact front.append (isFlat_comment (fixed remark isFixed))
      exact ⟨flat.isNested, fun _ _ _ _ => .nil, fun _ _ member => by cases member⟩
  | message isMet done isBinding storesDone loadsDone =>
      have plain := names.topics _ isMet _ List.mem_cons_self
      exact Scoped.loaded names loadsDone
        (scoped_exchange names isBinding storesDone plain done).idle
  | wait _ loadsDone done =>
      exact Scoped.loaded names loadsDone
        (Scoped.applied names (by decide) (.cons done .nil) fun _ member => member)
  | @call function _ _ _ _ _ _ isFunction _ isGiven loadsDone each _ inductionHypothesis =>
      have plain : ∀ function ∈ enclosingFunctions, ConsistsOf isPlain function := by decide
      exact Scoped.loaded names loadsDone
        (Scoped.called names (plain function isFunction) each isGiven
          (inductionHypothesis.anywhere _ 1))
  | remark isFixed _ inductionHypothesis =>
      exact inductionHypothesis.remarked (fixed _ isFixed)
  | @deadlineRemark _ found _ _ done _ inductionHypothesis =>
      have front : ConsistsOf isPlain "deadline on " := by decide
      exact inductionHypothesis.remarked
        (front.append (names.actors found (mem_of_entryAt done)))
  | «until» isMet internalDone _ inductionHypothesis =>
      exact Scoped.wrapped (isFlat_untilCall names isMet internalDone) (fun _ _ _ => .nil)
        inductionHypothesis
  | metUntil enterDone leaveDone =>
      exact (Scoped.signalled enterDone (Scoped.signalled leaveDone .skip)).idle
  | @choice kind arms loads _ isGuarded _ loadsDone inductionHypothesis =>
      refine Scoped.loaded names loadsDone ?_
      refine @holds_chooseAmong (fun shown behaviour =>
        behaviour.Scoped setting (arms.filterMap ChoiceArm.guard) 0 shown)
        .skip scoped_combine kind _ fun arm isArm => ?_
      refine ChoiceArm.IsGuarded.scoped names (isGuarded arm isArm) (fun guard isGuard => ?_)
        (inductionHypothesis arm isArm)
      exact List.mem_filterMap.mpr ⟨arm, isArm, isGuard⟩
  | sequence _ inductionHypothesis =>
      exact composable.sequence inductionHypothesis
  | interleaving _ inductionHypothesis =>
      exact composable.combine .interleaving inductionHypothesis
  | metPar enterDone leaveDone _ inductionHypothesis =>
      exact composable.metArms (fun _ _ ofBody => (Scoped.signalled enterDone ofBody).idle)
        (Scoped.signalled leaveDone .skip).idle inductionHypothesis

/-- The text of the process shows the expressions in order, with all their variables
in the scopes of loads of them, and all its stores are in the scopes of the messages
that bind what is stored. -/
structure Behaviour.KeepsScopes (setting : Setting) (shown : List ExpressionId)
    (behaviour : Behaviour) : Prop where
  text : Token.listText behaviour.tokens = behaviour.text
  covered : List.Forall₂ setting.IsCovered shown
    (Token.occurrences Token.value? [] behaviour.tokens)
  bound : ∀ found ∈ Token.occurrences Token.store? [] behaviour.tokens, setting.IsBound found

/-- What is seen of a fragment keeps scopes if it is rendered. -/
theorem Fragment.SeenAs.keepsScopes {setting : Setting}
    (names : setting.specification.HasPlainNames setting.interaction.toDiagram)
    {shown : Option (List ExpressionId)} {seen : Option Behaviour}
    (seenAs : Fragment.SeenAs setting (· ∈ setting.interaction.fragments) shown seen) :
    Option.Rel (fun shown behaviour => behaviour.KeepsScopes setting shown) shown seen := by
  cases seenAs with
  | none =>
      exact .none
  | some rendered =>
      have inScope := rendered.wellScoped names
      exact .some ⟨Behaviour.listText_tokens _,
        inScope.covered [] 1 le_rfl (Setting.open_nil [] 1), inScope.bound []⟩

/-- In the text of every projection, all variables of printed expressions are in the
scopes of loads of them, and what is stored is in the scope of the message that
binds it.  Every viewpoint has a projection of the whole interaction, and of every
fragment whose meetings are recorded. -/
theorem Specification.variables_are_in_scope {specification : Specification}
    {id : InteractionId} {interaction : Interaction}
    (placed : specification.interaction id = .ok interaction)
    (wellFormed : interaction.toDiagram.WellFormed specification)
    (ownersKnown : specification.OwnersKnown)
    (names : specification.HasPlainNames interaction.toDiagram) :
    ∃ setting, specification.setting id = .ok setting ∧
      (∀ view, ∃ seen, (setting.projectSequence view setting.body).result = .ok seen ∧
        Option.Rel (fun shown behaviour => behaviour.KeepsScopes setting shown)
          (Fragment.inOrder (setting.body.map (Fragment.shownTo setting view))) seen) ∧
      (∀ view place seen,
        ((interaction.fragment place).project setting view).result = .ok seen →
        Option.Rel (fun shown behaviour => behaviour.KeepsScopes setting shown)
          ((interaction.fragment place).shownTo setting view) seen) ∧
      ∀ (view : Viewpoint) (place : FragmentId), place.index < interaction.fragments.size →
        (interaction.fragment place).Numbered setting view →
        ∃ seen, ((interaction.fragment place).project setting view).result = .ok seen := by
  obtain ⟨setting, found, sound, rfl, rfl⟩ :=
    exists_sound_setting placed wellFormed ownersKnown
  refine ⟨setting, found, ?_, ?_, ?_⟩
  · intro view
    obtain ⟨seen, done⟩ := sound.exists_projectSequence view
    exact ⟨seen, done, (Setting.seenAs_projectSequence done fun _ _ _ present =>
      Array.mem_of_getElem? present).keepsScopes names⟩
  · intro view place seen done
    exact (Setting.seenAs_project done fun _ _ _ present =>
      Array.mem_of_getElem? present).keepsScopes names
  · intro view place known numbered
    have admits : setting.Admits fun _ => True := ⟨fun _ _ => trivial, fun _ _ => trivial⟩
    have fragmentSound := wellFormed.toClosed.sound_fragment wellFormed.fragmentsAcyclic known
    obtain ⟨seen, done, _⟩ :=
      (sound.succeeds_project admits fragmentSound numbered).exists_result
    exact ⟨seen, done⟩

/-- A buyer raises the price as long as it is below the limit. -/
def trade : Interaction where
  name := "Trade"
  body := [⟨4⟩]
  lifelines := [⟨0⟩, ⟨1⟩]
  locals := [⟨0⟩, ⟨1⟩]
  fragments := #[.message ⟨⟨0⟩, ⟨1⟩, .event "offer", [.value ⟨0⟩]⟩,
    .message ⟨⟨1⟩, ⟨0⟩, .event "answer", [.bind ⟨0⟩, .value ⟨1⟩]⟩,
    .operand (some ⟨2⟩) [⟨0⟩, ⟨1⟩], .branch .opt [⟨2⟩], .loop (some ⟨none, some ⟨1⟩⟩) ⟨3⟩]
  expressions := #[.var ⟨0⟩, .var ⟨1⟩, .binary .lt ⟨0⟩ ⟨1⟩]
  locations := []
  group := ⟨0⟩

def tradeSpecification : Specification :=
  { Specification.empty "Trades" with
    actors := #[⟨"Buyer", .component⟩, ⟨"Seller", .component⟩]
    actorsByName := [("Seller", ⟨1⟩), ("Buyer", ⟨0⟩)]
    vars := #[⟨"price", .nat, some ⟨0⟩⟩, ⟨"limit", .nat, some ⟨0⟩⟩]
    interactions := #[trade] }

private theorem wellFormed_trade : trade.toDiagram.WellFormed tradeSpecification :=
  Diagram.Closed.wellFormed (by decide) (by decide)

private theorem hasPlainNames_trade : tradeSpecification.HasPlainNames trade.toDiagram := by
  decide

theorem variables_are_in_scope_trade :
    tradeSpecification.interaction ⟨0⟩ = .ok trade ∧
      trade.toDiagram.WellFormed tradeSpecification ∧ tradeSpecification.OwnersKnown ∧
      tradeSpecification.HasPlainNames trade.toDiagram ∧
      ∃ setting behaviour, tradeSpecification.setting ⟨0⟩ = .ok setting ∧
        (setting.projectSequence (.lifeline ⟨0⟩) setting.body).result = .ok (some behaviour) ∧
        behaviour.text = "Memory_Trade::get_limit?limit -> BoundedLoop(limit)(" ++
          "Memory_Trade::get_price?price -> Memory_Trade::get_limit?limit -> " ++
          "(price < limit & (Memory_Trade::get_price?price -> Idle(offer.out.price -> SKIP); " ++
          "Memory_Trade::get_limit?limit -> Idle(answer.out?price.limit -> " ++
          "Memory_Trade::set_price!price -> SKIP)) [] SKIP))" ∧
        behaviour.KeepsScopes setting [⟨1⟩, ⟨2⟩, ⟨0⟩, ⟨1⟩] := by
  have ownersKnown : tradeSpecification.OwnersKnown := by
    decide
  obtain ⟨setting, found, whole, _⟩ := Specification.variables_are_in_scope
    (show tradeSpecification.interaction ⟨0⟩ = .ok trade from rfl) wellFormed_trade ownersKnown
    hasPlainNames_trade
  cases found
  obtain ⟨seen, done, keeps⟩ := whole (.lifeline ⟨0⟩)
  cases done
  cases keeps with
  | some inScope =>
      refine ⟨rfl, wellFormed_trade, ownersKnown, hasPlainNames_trade, _, _, rfl, rfl, ?_,
        inScope⟩
      simp only [Behaviour.enclose, Behaviour.holdsSequence_eq]
      decide +kernel

end SequenceChart
