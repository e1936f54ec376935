import SequenceChart.Library
import SequenceChart.Proofs.CharacterPairs
import SequenceChart.Proofs.QuietProjection

/-!
Names, channels, types, scripts and file names are given by users and written into
models as they are.  Which pairs of reserved characters a model holds depends on the
characters of these texts.  A rule tolerates the characters of an alphabet if it picks
no pair out of texts over it, nor out of a text with a dash in front.

Names and channels that models build out of given texts are over the same alphabet.
-/

namespace SequenceChart

def Variable.givenTexts (content : Variable) : List String :=
  match content.type with
  | .named type => [content.name, type]
  | _ => [content.name]

theorem Variable.name_mem_givenTexts (content : Variable) :
    content.name ∈ content.givenTexts := by
  rw [givenTexts]
  split <;> exact List.mem_cons_self

theorem Variable.type_mem_givenTexts {content : Variable} {type : String}
    (named : content.type = .named type) : type ∈ content.givenTexts := by
  rw [givenTexts, named]
  exact List.mem_cons_of_mem _ List.mem_cons_self

def Target.givenTexts (target : Target) : List String :=
  target.process :: (target.channels ++
    target.renamed.pairs.flatMap fun pair => [pair.1, pair.2])

def Group.givenTexts (group : Group) : List String :=
  group.name.toList ++ group.target.toList.flatMap Target.givenTexts

def Diagram.givenTexts (diagram : Diagram) : List String :=
  diagram.name :: diagram.fragments.toList.flatMap fun entry => entry.topics.map Topic.name

/-- All texts of a specification that models show are good. -/
@[mk_iff]
structure Specification.GivesOnly (good : String → Prop) (specification : Specification) :
    Prop where
  name : good specification.name
  actors : ∀ found ∈ specification.actors, good found.name
  vars : ∀ found ∈ specification.vars, ∀ text ∈ found.givenTexts, good text
  constants : ∀ found ∈ specification.constants, good found.qualifiedName
  groups : ∀ found ∈ specification.groups, ∀ text ∈ found.givenTexts, good text
  interactions : ∀ found ∈ specification.interactions,
    ∀ text ∈ found.toDiagram.givenTexts, good text
  scripts : ∀ found ∈ specification.scripts, good found.name ∧ good found.body

instance (good : String → Prop) [DecidablePred good] (specification : Specification) :
    Decidable (specification.GivesOnly good) :=
  decidable_of_iff' _ (Specification.givesOnly_iff good specification)

theorem Specification.GivesOnly.imp {good better : String → Prop}
    {specification : Specification} (gives : specification.GivesOnly better)
    (implies : ∀ text, better text → good text) : specification.GivesOnly good where
  name := implies _ gives.name
  actors found member := implies _ (gives.actors found member)
  vars found member text given := implies _ (gives.vars found member text given)
  constants found member := implies _ (gives.constants found member)
  groups found member text given := implies _ (gives.groups found member text given)
  interactions found member text given := implies _ (gives.interactions found member text given)
  scripts found member := (gives.scripts found member).imp (implies _) (implies _)

/-- The files that a configuration names have good names. -/
@[mk_iff]
structure Configuration.GivesOnly (good : String → Prop) (configuration : Configuration) :
    Prop where
  libraryFile : good configuration.libraryFile
  tickTockFile : good configuration.tickTockFile

instance (good : String → Prop) [DecidablePred good] (configuration : Configuration) :
    Decidable (configuration.GivesOnly good) :=
  decidable_of_iff' _ (Configuration.givesOnly_iff good configuration)

/-- What is found at a position is in the table. -/
theorem mem_of_entryAt {α : Type} {table : Array α} {index : Nat} {entry : α}
    (done : entryAt table index = .ok entry) : entry ∈ table :=
  Array.mem_of_getElem? (entryAt_eq_ok_iff.mp done)

theorem Specification.GivesOnly.variable_name {good : String → Prop}
    {specification : Specification} (gives : specification.GivesOnly good) {id : VariableId}
    {found : Variable} (done : specification.variableAt id = .ok found) : good found.name :=
  gives.vars found (mem_of_entryAt done) _ found.name_mem_givenTexts

theorem Diagram.topic_mem_givenTexts {diagram : Diagram} {entry : FragmentEntry}
    {topic : Topic} (inTable : entry ∈ diagram.fragments) (inEntry : topic ∈ entry.topics) :
    topic.name ∈ diagram.givenTexts := by
  refine List.mem_cons_of_mem _ (List.mem_flatMap.mpr ⟨entry, ?_, ?_⟩)
  · exact Array.mem_toList_iff.mpr inTable
  · exact List.mem_map_of_mem inEntry

/-- All characters of the text are in the alphabet. -/
def ConsistsOf (isAllowed : Char → Bool) (text : String) : Prop :=
  ∀ character ∈ text.toList, isAllowed character = true

instance (isAllowed : Char → Bool) (text : String) : Decidable (ConsistsOf isAllowed text) :=
  List.decidableBAll (fun character => isAllowed character = true) text.toList

theorem ConsistsOf.append {isAllowed : Char → Bool} {first second : String}
    (ofFirst : ConsistsOf isAllowed first) (ofSecond : ConsistsOf isAllowed second) :
    ConsistsOf isAllowed (first ++ second) := by
  intro character member
  rw [String.toList_append] at member
  rcases List.mem_append.mp member with inFirst | inSecond
  · exact ofFirst character inFirst
  · exact ofSecond character inSecond

@[simp]
theorem consistsOf_append_iff {isAllowed : Char → Bool} {first second : String} :
    ConsistsOf isAllowed (first ++ second) ↔
      ConsistsOf isAllowed first ∧ ConsistsOf isAllowed second := by
  constructor
  · intro consists
    rw [ConsistsOf, String.toList_append, List.forall_mem_append] at consists
    exact consists
  · exact fun ofBoth => ofBoth.1.append ofBoth.2

section Joining

variable {holds : String → Prop} (empty : holds "")
  (append : ∀ {first second : String}, holds first → holds second → holds (first ++ second))
include empty append

/-- What is preserved when two texts are put together is preserved by joining any number
of them. -/
theorem holds_joinWith {separator : String} (ofSeparator : holds separator)
    {parts : List String} (each : ∀ part ∈ parts, holds part) :
    holds (joinWith separator parts) := by
  induction parts with
  | nil =>
      exact empty
  | cons first rest inductionHypothesis =>
      rw [List.forall_mem_cons] at each
      cases rest with
      | nil =>
          exact each.1
      | cons next others =>
          rw [joinWith_cons_cons]
          exact append (append each.1 ofSeparator) (inductionHypothesis each.2)

theorem holds_concatenate {parts : List String} (each : ∀ part ∈ parts, holds part) :
    holds (concatenate parts) := by
  induction parts with
  | nil =>
      exact empty
  | cons first rest inductionHypothesis =>
      rw [List.forall_mem_cons] at each
      rw [concatenate_cons]
      exact append each.1 (inductionHypothesis each.2)

end Joining

theorem consistsOf_empty (isAllowed : Char → Bool) : ConsistsOf isAllowed "" :=
  fun _ member => absurd member (List.not_mem_nil)

theorem consistsOf_concatenate {isAllowed : Char → Bool} {parts : List String}
    (each : ∀ part ∈ parts, ConsistsOf isAllowed part) :
    ConsistsOf isAllowed (concatenate parts) :=
  holds_concatenate (consistsOf_empty isAllowed) ConsistsOf.append each

/-- Characters of the words and signs that models put into names. -/
def isNameCharacter (character : Char) : Bool :=
  character.isAlphanum || character = '_' || character = ':' || character = '.'

/-- The alphabet has all characters that models put into names. -/
def AllowsNames (isAllowed : Char → Bool) : Prop :=
  ∀ character, isNameCharacter character = true → isAllowed character = true

namespace AllowsNames

variable {isAllowed : Char → Bool} (allows : AllowsNames isAllowed)
include allows

theorem consistsOf {text : String} (fixed : ConsistsOf isNameCharacter text) :
    ConsistsOf isAllowed text :=
  fun character member => allows character (fixed character member)

theorem consistsOf_natural (value : Nat) : ConsistsOf isAllowed (toString value) := by
  apply allows.consistsOf
  intro character member
  simp [isNameCharacter, Char.isAlphanum, isDigit_of_mem_natural member]

theorem consistsOf_qualified {space name : String} (ofSpace : ConsistsOf isAllowed space)
    (ofName : ConsistsOf isAllowed name) : ConsistsOf isAllowed (qualified space name) := by
  have colons : ConsistsOf isAllowed "::" := allows.consistsOf (by decide)
  exact (ofSpace.append colons).append ofName

theorem consistsOf_memoryName {name : String} (ofName : ConsistsOf isAllowed name) :
    ConsistsOf isAllowed (memoryName name) := by
  have lead : ConsistsOf isAllowed "Memory_" := allows.consistsOf (by decide)
  exact lead.append ofName

theorem consistsOf_getChannel {name : String} (ofName : ConsistsOf isAllowed name) :
    ConsistsOf isAllowed (getChannel name) := by
  have lead : ConsistsOf isAllowed "get_" := allows.consistsOf (by decide)
  exact lead.append ofName

theorem consistsOf_setChannel {name : String} (ofName : ConsistsOf isAllowed name) :
    ConsistsOf isAllowed (setChannel name) := by
  have lead : ConsistsOf isAllowed "set_" := allows.consistsOf (by decide)
  exact lead.append ofName

theorem consistsOf_channel {topic : Topic} (ofName : ConsistsOf isAllowed topic.name) :
    ConsistsOf isAllowed topic.channel := by
  cases topic with
  | event channel =>
      exact ofName
  | operation name =>
      have ending : ConsistsOf isAllowed "Call" := allows.consistsOf (by decide)
      exact ConsistsOf.append ofName ending

theorem consistsOf_eventName {content : Message}
    (ofTopic : ConsistsOf isAllowed content.topic.name) (direction : Direction) :
    ConsistsOf isAllowed (content.eventName direction) := by
  have dot : ConsistsOf isAllowed "." := allows.consistsOf (by decide)
  have field : ConsistsOf isAllowed direction.text := by
    apply allows.consistsOf
    cases direction <;> decide
  exact ((allows.consistsOf_channel ofTopic).append dot).append field

section Memory

variable {specification : Specification}
  (ofInteractions : ∀ id found, specification.interaction id = .ok found →
    ConsistsOf isAllowed found.name)
include ofInteractions

theorem consistsOf_memoryOf {id : VariableId} {memory : String}
    (done : (specification.memoryOf id).result = .ok memory) : ConsistsOf isAllowed memory := by
  obtain ⟨found, _, rest⟩ := Attempt.result_bind_eq_ok_iff.mp done
  cases owned : found.owner with
  | none =>
      simp only [owned] at rest
      cases rest
      exact allows.consistsOf (by decide)
  | some owner =>
      simp only [owned] at rest
      obtain ⟨interaction, interactionDone, last⟩ := Attempt.result_bind_eq_ok_iff.mp rest
      cases last
      exact allows.consistsOf_memoryName (ofInteractions owner interaction interactionDone)

theorem consistsOf_memoryChannels
    (ofVariables : ∀ id found, specification.variableAt id = .ok found →
      ConsistsOf isAllowed found.name)
    {id : InteractionId} {channels : List String}
    (done : specification.memoryChannels id = .ok channels) :
    ∀ channel ∈ channels, ConsistsOf isAllowed channel := by
  obtain ⟨interaction, interactionDone, rest⟩ := bind_eq_ok_iff.mp done
  obtain ⟨kept, keptDone, last⟩ := bind_eq_ok_iff.mp rest
  cases last
  have ofSpace := allows.consistsOf_memoryName (ofInteractions id interaction interactionDone)
  intro channel member
  obtain ⟨found, isKept, inCell⟩ := List.mem_flatMap.mp member
  obtain ⟨place, _, foundDone⟩ := exists_left_of_mem (mapM_eq_ok_iff.mp keptDone) isKept
  have ofName := ofVariables place found foundDone
  simp only [Specification.cellChannels, List.mem_cons, List.not_mem_nil, or_false] at inCell
  rcases inCell with rfl | rfl
  · exact allows.consistsOf_qualified ofSpace (allows.consistsOf_getChannel ofName)
  · exact allows.consistsOf_qualified ofSpace (allows.consistsOf_setChannel ofName)

end Memory

end AllowsNames

/-- A rule finds nothing in texts over an alphabet, also if a dash is put in front of
them.  The alphabet has all characters that are not reserved, and the empty set is no
pair that the rule picks. -/
structure PairRule.Tolerates {β : Type} (rule : PairRule β) (isAllowed : Char → Bool) :
    Prop where
  unreserved : ∀ character, isReserved character = false → isAllowed character = true
  allowed : ∀ first second, isAllowed first = true → isAllowed second = true →
    rule.select first second = none
  dashed : ∀ second, isAllowed second = true → rule.select '-' second = none
  emptySet : rule.select '\x7b' '\x7d' = none

namespace PairRule.Tolerates

variable {β : Type} {rule : PairRule β} {isAllowed : Char → Bool}
  (tolerates : rule.Tolerates isAllowed)
include tolerates

/-- A text without reserved characters is over every alphabet. -/
theorem consistsOf_of_free {text : String} (free : isFree text = true) :
    ConsistsOf isAllowed text :=
  fun character member => tolerates.unreserved character (isFree_iff.mp free character member)

theorem allowsNames : AllowsNames isAllowed := by
  intro character isName
  apply tolerates.unreserved
  rw [← Bool.not_eq_true]
  intro reserved
  rw [isReserved, Bool.or_eq_true, Bool.or_eq_true] at reserved
  rcases reserved with (dash | opening) | closing
  · rw [of_decide_eq_true dash] at isName
    cases isName
  · rw [of_decide_eq_true opening] at isName
    cases isName
  · rw [of_decide_eq_true closing] at isName
    cases isName

theorem among_eq_nil {characters : List Char}
    (allowed : ∀ character ∈ characters, isAllowed character = true) :
    rule.among characters = [] := by
  induction characters with
  | nil =>
      rfl
  | cons first rest inductionHypothesis =>
      have restEmpty := inductionHypothesis fun character member =>
        allowed character (List.mem_cons_of_mem first member)
      cases rest with
      | nil =>
          rfl
      | cons second others =>
          have none := tolerates.allowed first second (allowed first List.mem_cons_self)
            (allowed second (List.mem_cons_of_mem first List.mem_cons_self))
          rw [rule.among_cons_cons, none, restEmpty]
          rfl

/-- A text over the alphabet has no pairs. -/
theorem within_eq_nil {text : String} (consists : ConsistsOf isAllowed text) :
    rule.within text = [] :=
  tolerates.among_eq_nil consists

/-- A dash in front of a text adds no pair, if the text begins with an allowed
character. -/
theorem within_dash {text : String}
    (begins : ∀ character ∈ text.toList.head?, isAllowed character = true) :
    rule.within ("-" ++ text) = rule.within text := by
  rw [within, String.toList_append]
  cases shape : text.toList with
  | nil =>
      rw [within, shape]
      rfl
  | cons first rest =>
      rw [shape] at begins
      have none := tolerates.dashed first (begins first rfl)
      rw [within, shape]
      change rule.among ('-' :: first :: rest) = _
      rw [rule.among_cons_cons, none]
      rfl

end PairRule.Tolerates

def Term.names : Term → List String
  | .natural _ => []
  | .truth _ => []
  | .name identifier => [identifier]
  | .unary _ operand => operand.names
  | .binary _ left right => left.names ++ right.names

/-- The names in the term of an expression are those of variables and constants. -/
theorem Specification.names_term {good : String → Prop} {specification : Specification}
    (ofVariables : ∀ id found, specification.variableAt id = .ok found → good found.name)
    (ofConstants : ∀ id found, specification.constantAt id = .ok found →
      good found.qualifiedName)
    {expression : Expression} {term : Term}
    (done : expression.term specification = .ok term) : ∀ name ∈ term.names, good name := by
  induction expression generalizing term with
  | natural | truth =>
      cases done
      simp [Term.names]
  | var id =>
      obtain ⟨found, foundDone, last⟩ := bind_eq_ok_iff.mp done
      cases last
      simpa [Term.names] using ofVariables id found foundDone
  | const id =>
      obtain ⟨found, foundDone, last⟩ := bind_eq_ok_iff.mp done
      cases last
      simpa [Term.names] using ofConstants id found foundDone
  | unary operator operand inductionHypothesis =>
      obtain ⟨inner, innerDone, last⟩ := bind_eq_ok_iff.mp done
      cases last
      exact fun name member => inductionHypothesis innerDone name member
  | binary operator left right leftHypothesis rightHypothesis =>
      obtain ⟨leftTerm, leftDone, rest⟩ := bind_eq_ok_iff.mp done
      obtain ⟨rightTerm, rightDone, last⟩ := bind_eq_ok_iff.mp rest
      cases last
      intro name member
      rcases List.mem_append.mp member with inLeft | inRight
      · exact leftHypothesis leftDone name inLeft
      · exact rightHypothesis rightDone name inRight
  | deferred content inductionHypothesis =>
      exact inductionHypothesis () done
  | unresolved fault =>
      cases done

/-- The names in the term of an expression are given. -/
theorem Specification.GivesOnly.names_term {good : String → Prop}
    {specification : Specification} (gives : specification.GivesOnly good)
    {expression : Expression} {term : Term}
    (done : expression.term specification = .ok term) : ∀ name ∈ term.names, good name :=
  Specification.names_term (fun _ _ foundDone => gives.variable_name foundDone)
    (fun _ found foundDone => gives.constants found (mem_of_entryAt foundDone)) done

namespace PairRule.Tolerates

variable {β : Type} {rule : PairRule β} {isAllowed : Char → Bool}
  (tolerates : rule.Tolerates isAllowed)
include tolerates

/-- Under an operator, a term that is no unary one begins with an allowed character. -/
theorem render_begins {term : Term} (names : ∀ name ∈ term.names, ConsistsOf isAllowed name)
    (notUnary : term.isUnary = false) :
    ∀ character ∈ (term.render true).toList.head?, isAllowed character = true := by
  intro character isHead
  cases term with
  | natural value =>
      exact tolerates.unreserved character
        (natural_free value character (List.mem_of_mem_head? isHead))
  | truth value =>
      apply tolerates.unreserved
      cases value <;> cases isHead <;> decide
  | name identifier =>
      exact names identifier List.mem_cons_self character (List.mem_of_mem_head? isHead)
  | unary operator operand =>
      cases notUnary
  | binary operator left right =>
      have parenthesis : '(' = character := by
        simpa [Term.render] using isHead
      rw [← parenthesis]
      exact tolerates.unreserved '(' (by decide)

end PairRule.Tolerates

namespace Specification.GivesOnly

variable {isAllowed : Char → Bool} {specification : Specification}
  (gives : specification.GivesOnly (ConsistsOf isAllowed))
include gives

theorem interaction_name {id : InteractionId} {found : Interaction}
    (done : specification.interaction id = .ok found) : ConsistsOf isAllowed found.name :=
  gives.interactions found (mem_of_entryAt done) found.name List.mem_cons_self

theorem group_name (allows : AllowsNames isAllowed) {id : GroupId} {name : String}
    (done : specification.groupName id = .ok name) : ConsistsOf isAllowed name := by
  obtain ⟨found, foundDone, last⟩ := bind_eq_ok_iff.mp done
  have ofGroup := gives.groups found (mem_of_entryAt foundDone)
  cases given : found.name with
  | none =>
      rw [given] at last
      cases last
      have lead : ConsistsOf isAllowed untitled := allows.consistsOf (by decide)
      have line : ConsistsOf isAllowed "_" := allows.consistsOf (by decide)
      have numbered := lead.append (allows.consistsOf_natural id.index)
      exact (numbered.append line).append gives.name
  | some title =>
      rw [given] at last
      have ofTitle : ConsistsOf isAllowed title := by
        apply ofGroup
        simp [Group.givenTexts, given]
      have mark : ConsistsOf isAllowed "A_" := allows.consistsOf (by decide)
      cases last
      dsimp only
      split
      · exact mark.append ofTitle
      · exact ofTitle

theorem lifeline_name (allows : AllowsNames isAllowed) {id : ActorId} {name : String}
    (done : specification.lifelineName id = .ok name) : ConsistsOf isAllowed name := by
  obtain ⟨found, foundDone, last⟩ := bind_eq_ok_iff.mp done
  cases last
  have lead : ConsistsOf isAllowed "Lifeline_" := allows.consistsOf (by decide)
  exact lead.append (gives.actors found (mem_of_entryAt foundDone))

end Specification.GivesOnly

end SequenceChart
