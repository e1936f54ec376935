import SequenceChart.Proofs.Loads
import SequenceChart.Proofs.TextLaws

/-!
# Nesting of parentheses

An event in front of an arrow binds the names in its fields for what follows the
arrow, up to the parenthesis that closes around both, or up to the next process
in sequence that stands in no further parenthesis.  `Nesting` keeps track of
where a reader is behind an arrow, character by character, and `InScope` says
that a text behind an arrow has not left its scope.

Texts that end where they begin are flat.  All that is made of names without
parentheses and semicolons is flat, apart from processes in sequence.  These end
where they begin within parentheses only, which is what `IsNested` says.
-/

namespace SequenceChart

/-- How many parentheses are open behind an arrow, and whether the last character
was a semicolon. -/
structure Nesting where
  depth : Nat
  semicolon : Bool
  deriving DecidableEq, Repr

namespace Nesting

/-- Where a reader is after one more character, if that is still in the scope of
the arrow. -/
def step : Nesting → Char → Option Nesting
  | ⟨depth, _⟩, '(' => some ⟨depth + 1, false⟩
  | ⟨0, _⟩, ')' => none
  | ⟨depth + 1, _⟩, ')' => some ⟨depth, false⟩
  | ⟨0, true⟩, ' ' => none
  | ⟨depth, _⟩, character => some ⟨depth, character = ';'⟩

def after (nesting : Nesting) (text : String) : Option Nesting :=
  text.toList.foldlM step nesting

theorem after_append (nesting : Nesting) (first second : String) :
    nesting.after (first ++ second) = (nesting.after first).bind (after · second) := by
  rw [after, String.toList_append, List.foldlM_append]
  rfl

end Nesting

/-- The text right behind an arrow is in its scope to the end. -/
def InScope (text : String) : Prop :=
  (Nesting.after ⟨0, false⟩ text).isSome = true

instance (text : String) : Decidable (InScope text) :=
  inferInstanceAs (Decidable (_ = true))

theorem Nesting.step_plain {character : Char} (plain : isPlain character = true) (depth : Nat) :
    step ⟨depth, false⟩ character = some ⟨depth, false⟩ := by
  unfold step
  split <;> simp_all [isPlain]

/-- The text ends at the depth at which it begins, and stays in scope on the way. -/
def IsFlat (text : String) : Prop :=
  ∀ depth, Nesting.after ⟨depth, false⟩ text = some ⟨depth, false⟩

/-- Inside of a parenthesis the text ends at the depth at which it begins. -/
def IsNested (text : String) : Prop :=
  ∀ depth, Nesting.after ⟨depth + 1, false⟩ text = some ⟨depth + 1, false⟩

theorem IsFlat.isNested {text : String} (flat : IsFlat text) : IsNested text :=
  fun depth => flat (depth + 1)

theorem isFlat_of_plain {text : String} (plain : ConsistsOf isPlain text) : IsFlat text := by
  intro depth
  rw [Nesting.after]
  unfold ConsistsOf at plain
  generalize text.toList = characters at plain ⊢
  induction characters with
  | nil =>
      rfl
  | cons character rest inductionHypothesis =>
      rw [List.forall_mem_cons] at plain
      rw [List.foldlM_cons, Nesting.step_plain plain.1]
      exact inductionHypothesis plain.2

theorem isFlat_empty : IsFlat "" :=
  fun _ => rfl

theorem IsFlat.append {first second : String} (ofFirst : IsFlat first)
    (ofSecond : IsFlat second) : IsFlat (first ++ second) := by
  intro depth
  rw [Nesting.after_append, ofFirst depth]
  exact ofSecond depth

theorem IsNested.append {first second : String} (ofFirst : IsNested first)
    (ofSecond : IsNested second) : IsNested (first ++ second) := by
  intro depth
  rw [Nesting.after_append, ofFirst depth]
  exact ofSecond depth

/-- Parentheses around a text shelter what is inside. -/
theorem IsNested.enclosed {text : String} (nested : IsNested text) :
    IsFlat ("(" ++ text ++ ")") := by
  intro depth
  have opened : Nesting.after ⟨depth, false⟩ "(" = some ⟨depth + 1, false⟩ := rfl
  rw [Nesting.after_append, Nesting.after_append, opened, Option.bind_some, nested depth]
  rfl

theorem IsFlat.enclosing {function text : String} (plain : IsFlat function)
    (nested : IsNested text) : IsFlat (function ++ "(" ++ text ++ ")") := by
  simpa only [String.append_assoc] using plain.append nested.enclosed

/-- Inside of a parenthesis processes may be put in sequence. -/
theorem isNested_sequence : IsNested "; " :=
  fun _ => rfl

theorem isFlat_comment {text : String} (plain : ConsistsOf isPlain text) :
    IsFlat (comment text) := by
  have opening : ConsistsOf isPlain "\x7b- " := by decide
  have closing : ConsistsOf isPlain " -\x7d" := by decide
  exact isFlat_of_plain ((opening.append plain).append closing)

/-- No name of the specification and the diagram has a parenthesis or a semicolon. -/
@[mk_iff]
structure Specification.HasPlainNames (specification : Specification) (diagram : Diagram) :
    Prop where
  actors : ∀ found ∈ specification.actors, ConsistsOf isPlain found.name
  vars : ∀ found ∈ specification.vars, ConsistsOf isPlain found.name
  constants : ∀ found ∈ specification.constants, ConsistsOf isPlain found.qualifiedName
  interactions : ∀ found ∈ specification.interactions, ConsistsOf isPlain found.name
  topics : ∀ entry ∈ diagram.fragments, ∀ topic ∈ entry.topics, ConsistsOf isPlain topic.name

instance (specification : Specification) (diagram : Diagram) :
    Decidable (specification.HasPlainNames diagram) :=
  decidable_of_iff' _ (specification.hasPlainNames_iff diagram)

/-- If names are plain, then what is printed inside of a process is flat. -/
theorem textLaw_flat : TextLaw isPlain IsFlat where
  allowsNames := allowsNames_isPlain
  given := isFlat_of_plain
  fixed known := isFlat_of_plain (isFixed_iff.mp known).2.2
  separated known ofBefore ofAfter :=
    (ofBefore.append (isFlat_of_plain (isFixed_iff.mp (isFixed_of_isSeparator known)).2.2)).append
      ofAfter
  enclosing ofBefore ofText := ofBefore.enclosing ofText.isNested
  emptySet := isFlat_of_plain (by decide)
  negated _ _ inner := IsFlat.append (isFlat_of_plain (by decide)) inner

namespace Specification.HasPlainNames

variable {specification : Specification} {diagram : Diagram}
  (names : specification.HasPlainNames diagram)
include names

theorem variable_name {id : VariableId} {found : Variable}
    (done : specification.variableAt id = .ok found) : ConsistsOf isPlain found.name :=
  names.vars found (mem_of_entryAt done)

private theorem interaction_name {id : InteractionId} {found : Interaction}
    (done : specification.interaction id = .ok found) : ConsistsOf isPlain found.name :=
  names.interactions found (mem_of_entryAt done)

private theorem plain_memoryChannels {id : InteractionId} {channels : List String}
    (done : specification.memoryChannels id = .ok channels) :
    ∀ channel ∈ channels, ConsistsOf isPlain channel :=
  allowsNames_isPlain.consistsOf_memoryChannels (fun _ _ => names.interaction_name)
    (fun _ _ => names.variable_name) done

private theorem plain_memoryOf {id : VariableId} {memory : String}
    (done : (specification.memoryOf id).result = .ok memory) : ConsistsOf isPlain memory :=
  allowsNames_isPlain.consistsOf_memoryOf (fun _ _ => names.interaction_name) done

/-- An access to a variable is flat, if it is so for plain names. -/
theorem isFlat_access {access : String → String → Event}
    (flat : ∀ {memory name : String}, ConsistsOf isPlain memory → ConsistsOf isPlain name →
      IsFlat (access memory name).text)
    {id : VariableId} {event : Event} (isAccess : specification.IsAccess access id event) :
    IsFlat event.text := by
  obtain ⟨found, memory, foundDone, memoryDone, rfl⟩ := isAccess
  exact flat (names.plain_memoryOf memoryDone) (names.variable_name foundDone)

theorem isFlat_term {expression : Expression} {term : Term}
    (done : expression.term specification = .ok term) : IsFlat term.text :=
  textLaw_flat.term
    (names_term (fun _ _ foundDone => names.variable_name foundDone)
      (fun _ found foundDone => names.constants found (mem_of_entryAt foundDone)) done)

end Specification.HasPlainNames

theorem Setting.plain_internalChannels {setting : Setting} {diagram : Diagram}
    (names : setting.specification.HasPlainNames diagram) {internal : List String}
    (done : setting.internalChannels = .ok internal) :
    ∀ channel ∈ internal, ConsistsOf isPlain channel := by
  obtain ⟨memory, memoryDone, last⟩ := bind_eq_ok_iff.mp done
  cases last
  have fixed : ∀ channel ∈ [tock, finish, terminate], ConsistsOf isPlain channel := by decide
  have handshakes : ∀ channel ∈ setting.handshakeChannels, ConsistsOf isPlain channel := by
    intro channel member
    obtain ⟨synchronisation, _, rfl⟩ := List.mem_map.mp member
    cases synchronisation.kind <;> decide
  rw [List.forall_mem_append, List.forall_mem_append]
  exact ⟨⟨fixed, handshakes⟩, names.plain_memoryChannels memoryDone⟩

end SequenceChart
