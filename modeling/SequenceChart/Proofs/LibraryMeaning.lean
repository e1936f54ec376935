import Mathlib.Data.Option.NAry
import SequenceChart.Header
import SequenceChart.Library
import SequenceChart.Proofs.SharedMerge

/-!
# The meaning of library processes

The definitions of the library are recursive.  A call stands for the body of the definition,
with the arguments in place of the parameters.  What a process can do is told by its words:
events that it performs one after the other, together with whether it has then ended.  A
recursive process has those words only that come from finitely many calls.

Terms that users write are not looked into.  A meaning gives numbers to terms, such that
differences and comparisons are the usual ones, and words to the processes that the library
does not define.  So every body that a library process is put around is covered, whatever it
does.
-/

namespace SequenceChart

def Term.instantiate (arguments : List (String × Operand)) : Term → Term
  | .name identifier =>
      match arguments.lookup identifier with
      | some (.value term) => term
      | _ => .name identifier
  | .unary operator operand => .unary operator (operand.instantiate arguments)
  | .binary operator left right =>
      .binary operator (left.instantiate arguments) (right.instantiate arguments)
  | term => term

def EventSet.instantiate (arguments : List (String × Operand)) : EventSet → EventSet
  | .named name =>
      match arguments.lookup name with
      | some (.events set) => set
      | _ => .named name
  | .without removed => .without (removed.instantiate arguments)
  | set => set

def Operand.instantiate (arguments : List (String × Operand)) : Operand → Operand
  | .value term => .value (term.instantiate arguments)
  | .events set => .events (set.instantiate arguments)
  | .call function terms => .call function (terms.map (Term.instantiate arguments))

/-- What a name stands for: the process that a definition is put around, a process among the
arguments, or the name itself. -/
def Behaviour.resolve (arguments : List (String × Operand)) (process : Option Behaviour)
    (name : String) : Behaviour :=
  match process, arguments.lookup name with
  | _, some (.call function terms) => .applied function (terms.map Operand.value)
  | some inner, _ => if name = "P" then inner else .named name
  | none, _ => .named name

/-- The process with arguments in place of parameters, and a process in place of `P`. -/
def Behaviour.instantiate (arguments : List (String × Operand)) (process : Option Behaviour) :
    Behaviour → Behaviour
  | .named name => .resolve arguments process name
  | .perform event next => .perform event (next.instantiate arguments process)
  | .andThen first second =>
      .andThen (first.instantiate arguments process) (second.instantiate arguments process)
  | .join operator left right =>
      .join operator (left.instantiate arguments process) (right.instantiate arguments process)
  | .guarded condition body =>
      .guarded (condition.instantiate arguments) (body.instantiate arguments process)
  | .grouped body => .grouped (body.instantiate arguments process)
  | .applied function operands =>
      .applied function (operands.map (Operand.instantiate arguments))
  | .wrapped function operands body =>
      .wrapped function (operands.map (Operand.instantiate arguments))
        (body.instantiate arguments process)
  | .remarked remark body => .remarked remark (body.instantiate arguments process)
  | .annotated body remark => .annotated (body.instantiate arguments process) remark
  | .synchronised left events right =>
      .synchronised (left.instantiate arguments process) (events.instantiate arguments)
        (right.instantiate arguments process)
  | .hiding body events =>
      .hiding (body.instantiate arguments process) (events.instantiate arguments)
  | .interrupted left right =>
      .interrupted (left.instantiate arguments process) (right.instantiate arguments process)
  | .conditional condition positive negative =>
      .conditional (condition.instantiate arguments) (positive.instantiate arguments process)
        (negative.instantiate arguments process)
  | process => process

def Definition.unfold (definition : Definition) (arguments : List Operand)
    (process : Option Behaviour) : Behaviour :=
  definition.body.instantiate (definition.parameters.zip arguments) process

def Library.definitionOf (name : String) : Option Definition :=
  (timers ++ loops ++ wrappers).find? fun definition => definition.name = name

def EventSet.listed : EventSet → Option (List String)
  | .productions channels => some channels
  | .members events => some events
  | _ => none

/-- What terms and names stand for that the library leaves open. -/
structure Meaning where
  /-- The number that a term comes to. -/
  number : Term → Option Int
  /-- The truth value that a term comes to. -/
  truth : Term → Option Bool
  /-- The words of a process that is defined elsewhere. -/
  words : String → List String → Bool → Prop
  number_natural : ∀ value : Nat, number (.natural value) = some value
  number_sub : ∀ {left right : Term} {one other : Int}, number left = some one →
    number right = some other → number (.binary .sub left right) = some (one - other)
  truth_gt : ∀ {left right : Term} {one other : Int}, number left = some one →
    number right = some other → truth (.binary .gt left right) = some (decide (other < one))

/-- `Performs meaning process word ended` means that `process` can perform the events of
`word`, and that it can end then if `ended` holds.  The constructs are those of loops and timers,
and events are whole texts. -/
inductive Performs (meaning : Meaning) : Behaviour → List String → Bool → Prop
  | start (process : Behaviour) : Performs meaning process [] false
  | skip : Performs meaning .skip [] true
  | perform (event : Event) {next : Behaviour} {word : List String} {ended : Bool} :
      Performs meaning next word ended →
      Performs meaning (.perform event next) (event.text :: word) ended
  | first {first : Behaviour} {word : List String} (second : Behaviour) :
      Performs meaning first word false →
      Performs meaning (.andThen first second) word false
  | second {first second : Behaviour} {before after : List String} {ended : Bool} :
      Performs meaning first before true →
      Performs meaning second after ended →
      Performs meaning (.andThen first second) (before ++ after) ended
  | left {left : Behaviour} {word : List String} {ended : Bool} (right : Behaviour) :
      Performs meaning left word ended →
      Performs meaning (.join .externalChoice left right) word ended
  | right {right : Behaviour} {word : List String} {ended : Bool} (left : Behaviour) :
      Performs meaning right word ended →
      Performs meaning (.join .externalChoice left right) word ended
  | guarded {condition : Term} {body : Behaviour} {word : List String} {ended : Bool} :
      meaning.truth condition = some true →
      Performs meaning body word ended →
      Performs meaning (.guarded condition body) word ended
  | grouped {body : Behaviour} {word : List String} {ended : Bool} :
      Performs meaning body word ended →
      Performs meaning (.grouped body) word ended
  | positive {condition : Term} {positive : Behaviour} {word : List String} {ended : Bool}
      (negative : Behaviour) :
      meaning.truth condition = some true →
      Performs meaning positive word ended →
      Performs meaning (.conditional condition positive negative) word ended
  | negative {condition : Term} {negative : Behaviour} {word : List String} {ended : Bool}
      (positive : Behaviour) :
      meaning.truth condition = some false →
      Performs meaning negative word ended →
      Performs meaning (.conditional condition positive negative) word ended
  | synchronised {left right : Behaviour} {events : EventSet}
      {shared leftWord rightWord word : List String} {leftEnded rightEnded : Bool} :
      events.listed = some shared →
      Performs meaning left leftWord leftEnded →
      Performs meaning right rightWord rightEnded →
      Merge shared leftWord rightWord word →
      Performs meaning (.synchronised left events right) word (leftEnded && rightEnded)
  | concealed {body : Behaviour} {word : List String} {ended : Bool} (hidden : List String) :
      Performs meaning body word ended →
      Performs meaning (.hiding body (.members hidden))
        (word.filter fun event => event ∉ hidden) ended
  | named {name : String} {definition : Definition} {word : List String} {ended : Bool} :
      Library.definitionOf name = some definition →
      definition.takesProcess = false →
      definition.parameters = [] →
      Performs meaning (definition.unfold [] none) word ended →
      Performs meaning (.named name) word ended
  | given {name : String} {word : List String} {ended : Bool} :
      Library.definitionOf name = none →
      meaning.words name word ended →
      Performs meaning (.named name) word ended
  | applied {function : String} {arguments : List Operand} {definition : Definition}
      {word : List String} {ended : Bool} :
      Library.definitionOf function = some definition →
      definition.takesProcess = false →
      definition.parameters.length = arguments.length →
      Performs meaning (definition.unfold arguments none) word ended →
      Performs meaning (.applied function arguments) word ended
  | wrapped {function : String} {arguments : List Operand} {body : Behaviour}
      {definition : Definition} {word : List String} {ended : Bool} :
      Library.definitionOf function = some definition →
      definition.takesProcess = true →
      definition.parameters.length = arguments.length →
      Performs meaning (definition.unfold arguments (some body)) word ended →
      Performs meaning (.wrapped function arguments body) word ended

def Completes (meaning : Meaning) (process : Behaviour) (word : List String) : Prop :=
  Performs meaning process word true

def callAround (function : String) (terms : List Term) (body : Behaviour) : Behaviour :=
  .wrapped function (terms.map Operand.value) body

theorem Header.around_callOn (function : String) (terms : List Term) (body : Behaviour) :
    (Header.callOn function terms).around body = callAround function terms body :=
  rfl

/-- The expression of a diagram comes to a natural number. -/
def Specification.HasNumber (specification : Specification) (diagram : Diagram)
    (meaning : Meaning) (id : ExpressionId) (value : Nat) : Prop :=
  ∃ term, specification.termOf diagram id = .ok term ∧ meaning.number term = some value

namespace Meaning

variable {meaning : Meaning}

theorem truth_positive {count : Term} {value : Int} (known : meaning.number count = some value) :
    meaning.truth count.positive = some (decide (0 < value)) :=
  meaning.truth_gt known (meaning.number_natural 0)

theorem number_lessOne {count : Term} {value : Int} (known : meaning.number count = some value) :
    meaning.number count.lessOne = some (value - 1) :=
  meaning.number_sub known (meaning.number_natural 1)

/-- The number that a term comes to if names stand for numbers.  Division is left open. -/
def numberOf (names : String → Option Int) : Term → Option Int
  | .natural value => some value
  | .name identifier => names identifier
  | .unary .neg operand => (numberOf names operand).map Int.neg
  | .binary .add left right => Option.map₂ (· + ·) (numberOf names left) (numberOf names right)
  | .binary .sub left right => Option.map₂ (· - ·) (numberOf names left) (numberOf names right)
  | .binary .mul left right => Option.map₂ (· * ·) (numberOf names left) (numberOf names right)
  | _ => none

/-- Whether the comparison of a counter holds if names stand for numbers. -/
def truthOf (names : String → Option Int) : Term → Option Bool
  | .binary .gt left right =>
      Option.map₂ (fun one other => decide (other < one)) (numberOf names left)
        (numberOf names right)
  | _ => none

/-- The meaning in which names stand for the given numbers and processes. -/
def counting (names : String → Option Int) (words : String → List String → Bool → Prop) :
    Meaning where
  number := numberOf names
  truth := truthOf names
  words := words
  number_natural _ := rfl
  number_sub known otherKnown := by simp [numberOf, known, otherKnown]
  truth_gt known otherKnown := by simp [truthOf, known, otherKnown]

end Meaning

variable {meaning : Meaning} {word : List String} {ended : Bool}

@[simp]
theorem performs_skip_iff : Performs meaning .skip word ended ↔ word = [] := by
  constructor
  · rintro (_ | _) <;> rfl
  · rintro rfl
    cases ended with
    | false =>
        exact .start _
    | true =>
        exact .skip

@[simp]
theorem performs_perform_iff {event : Event} {next : Behaviour} :
    Performs meaning (.perform event next) word ended ↔
      (word = [] ∧ ended = false) ∨
        ∃ rest, word = event.text :: rest ∧ Performs meaning next rest ended := by
  constructor
  · intro performs
    cases performs with
    | start =>
        exact .inl ⟨rfl, rfl⟩
    | perform _ later =>
        exact .inr ⟨_, rfl, later⟩
  · rintro (⟨rfl, rfl⟩ | ⟨rest, rfl, later⟩)
    · exact .start _
    · exact .perform event later

theorem performs_andThen_iff {first second : Behaviour} :
    Performs meaning (.andThen first second) word ended ↔
      (ended = false ∧ Performs meaning first word false) ∨
        ∃ before after, word = before ++ after ∧ Performs meaning first before true ∧
          Performs meaning second after ended := by
  constructor
  · intro performs
    cases performs with
    | start =>
        exact .inl ⟨rfl, .start first⟩
    | first _ inFirst =>
        exact .inl ⟨rfl, inFirst⟩
    | second inFirst inSecond =>
        exact .inr ⟨_, _, rfl, inFirst, inSecond⟩
  · rintro (⟨rfl, inFirst⟩ | ⟨before, after, rfl, inFirst, inSecond⟩)
    · exact .first second inFirst
    · exact .second inFirst inSecond

/-- A sequence has ended when both parts have. -/
theorem performs_andThen_true_iff {first second : Behaviour} :
    Performs meaning (.andThen first second) word true ↔
      ∃ before after, word = before ++ after ∧ Performs meaning first before true ∧
        Performs meaning second after true := by
  rw [performs_andThen_iff]
  simp only [Bool.true_eq_false, false_and, false_or]

@[simp]
theorem performs_choice_iff {left right : Behaviour} :
    Performs meaning (.join .externalChoice left right) word ended ↔
      Performs meaning left word ended ∨ Performs meaning right word ended := by
  constructor
  · intro performs
    cases performs with
    | start =>
        exact .inl (.start left)
    | left _ inLeft =>
        exact .inl inLeft
    | right _ inRight =>
        exact .inr inRight
  · rintro (inLeft | inRight)
    · exact .left right inLeft
    · exact .right left inRight

@[simp]
theorem performs_grouped_iff {body : Behaviour} :
    Performs meaning (.grouped body) word ended ↔ Performs meaning body word ended := by
  constructor
  · intro performs
    cases performs with
    | start =>
        exact .start body
    | grouped inside =>
        exact inside
  · exact .grouped

theorem performs_guarded_iff {condition : Term} {holds : Bool} {body : Behaviour}
    (known : meaning.truth condition = some holds) :
    Performs meaning (.guarded condition body) word ended ↔
      (word = [] ∧ ended = false) ∨ (holds = true ∧ Performs meaning body word ended) := by
  constructor
  · intro performs
    cases performs with
    | start =>
        exact .inl ⟨rfl, rfl⟩
    | guarded isTrue inside =>
        exact .inr ⟨Option.some.inj (known.symm.trans isTrue), inside⟩
  · rintro (⟨rfl, rfl⟩ | ⟨rfl, inside⟩)
    · exact .start _
    · exact .guarded known inside

theorem performs_conditional_iff {condition : Term} {holds : Bool} {positive negative : Behaviour}
    (known : meaning.truth condition = some holds) :
    Performs meaning (.conditional condition positive negative) word ended ↔
      Performs meaning (if holds then positive else negative) word ended := by
  constructor
  · intro performs
    cases performs with
    | start =>
        exact .start _
    | positive _ isTrue chosen =>
        cases Option.some.inj (known.symm.trans isTrue)
        exact chosen
    | negative _ isFalse chosen =>
        cases Option.some.inj (known.symm.trans isFalse)
        exact chosen
  · intro chosen
    cases holds with
    | false =>
        exact .negative positive known chosen
    | true =>
        exact .positive negative known chosen

theorem performs_synchronised_iff {left right : Behaviour} {events : EventSet}
    {shared : List String} (listed : events.listed = some shared) :
    Performs meaning (.synchronised left events right) word ended ↔
      ∃ leftWord rightWord leftEnded rightEnded, Performs meaning left leftWord leftEnded ∧
        Performs meaning right rightWord rightEnded ∧ Merge shared leftWord rightWord word ∧
        ended = (leftEnded && rightEnded) := by
  constructor
  · intro performs
    cases performs with
    | start =>
        exact ⟨[], [], false, false, .start left, .start right, .nil, rfl⟩
    | synchronised same inLeft inRight merge =>
        cases listed.symm.trans same
        exact ⟨_, _, _, _, inLeft, inRight, merge, rfl⟩
  · rintro ⟨_, _, _, _, inLeft, inRight, merge, rfl⟩
    exact .synchronised listed inLeft inRight merge

@[simp]
theorem performs_hiding_iff {body : Behaviour} {hidden : List String} :
    Performs meaning (.hiding body (.members hidden)) word ended ↔
      ∃ whole, Performs meaning body whole ended ∧
        word = whole.filter fun event => event ∉ hidden := by
  constructor
  · intro performs
    cases performs with
    | start =>
        exact ⟨[], .start body, rfl⟩
    | concealed _ inside =>
        exact ⟨_, inside, rfl⟩
  · rintro ⟨whole, inside, rfl⟩
    exact .concealed hidden inside

theorem performs_named_iff {name : String} {definition : Definition}
    (found : Library.definitionOf name = some definition)
    (takesNone : definition.takesProcess = false) (noParameters : definition.parameters = []) :
    Performs meaning (.named name) word ended ↔
      Performs meaning (definition.unfold [] none) word ended := by
  constructor
  · intro performs
    cases performs with
    | start =>
        exact .start _
    | named same _ _ inside =>
        cases found.symm.trans same
        exact inside
    | given missing _ =>
        cases found.symm.trans missing
  · exact .named found takesNone noParameters

theorem performs_applied_iff {function : String} {arguments : List Operand}
    {definition : Definition} (found : Library.definitionOf function = some definition)
    (takesNone : definition.takesProcess = false)
    (fits : definition.parameters.length = arguments.length) :
    Performs meaning (.applied function arguments) word ended ↔
      Performs meaning (definition.unfold arguments none) word ended := by
  constructor
  · intro performs
    cases performs with
    | start =>
        exact .start _
    | applied same _ _ inside =>
        cases found.symm.trans same
        exact inside
  · exact .applied found takesNone fits

theorem performs_wrapped_iff {function : String} {arguments : List Operand} {body : Behaviour}
    {definition : Definition} (found : Library.definitionOf function = some definition)
    (takesOne : definition.takesProcess = true)
    (fits : definition.parameters.length = arguments.length) :
    Performs meaning (.wrapped function arguments body) word ended ↔
      Performs meaning (definition.unfold arguments (some body)) word ended := by
  constructor
  · intro performs
    cases performs with
    | start =>
        exact .start _
    | wrapped same _ _ inside =>
        cases found.symm.trans same
        exact inside
  · exact .wrapped found takesOne fits

end SequenceChart
