import SequenceChart.Proofs.HandshakeText
import SequenceChart.Proofs.ProjectionShape
import SequenceChart.Proofs.WellFormed

/-!
# Projections of quiet names

If no name that a specification gives holds the word for a phase of a
handshake, then nothing in a projection does but the handshakes themselves.
All that models put around names is separated from them by a character that
is in neither word, so the texts are quiet as soon as their pieces are.
-/

namespace SequenceChart

def Topic.name : Topic → String
  | .event channel => channel
  | .operation name => name

def FragmentEntry.topics : FragmentEntry → List Topic
  | .message content => [content.topic]
  | .until (.topics chosen) _ => chosen
  | _ => []

/-- No name of the specification and the diagram holds the word for a phase. -/
@[mk_iff]
structure Specification.HasQuietNames (specification : Specification) (diagram : Diagram) :
    Prop where
  actors : ∀ found ∈ specification.actors, IsQuiet found.name
  vars : ∀ found ∈ specification.vars, IsQuiet found.name
  constants : ∀ found ∈ specification.constants, IsQuiet found.qualifiedName
  interactions : ∀ found ∈ specification.interactions, IsQuiet found.name
  topics : ∀ entry ∈ diagram.fragments, ∀ topic ∈ entry.topics, IsQuiet topic.name

instance (specification : Specification) (diagram : Diagram) :
    Decidable (specification.HasQuietNames diagram) :=
  decidable_of_iff' _ (specification.hasQuietNames_iff diagram)

theorem IsQuiet.behind {separator text : String} (quiet : IsQuiet text)
    (clear : clearOf inPhase separator = true) :
    IsQuiet (separator ++ text) := by
  have separated := IsQuiet.separated (by decide : IsQuiet "") quiet clear
  rwa [String.empty_append] at separated

theorem IsQuiet.followed {separator text : String} (quiet : IsQuiet text)
    (clear : clearOf inPhase separator = true) :
    IsQuiet (text ++ separator) := by
  have separated := quiet.separated (by decide : IsQuiet "") clear
  rwa [String.append_empty] at separated

/-- A quiet text behind words that end in a separator. -/
theorem IsQuiet.behindWord {words text : String} (quiet : IsQuiet text)
    (lead separator : String) (cut : words = lead ++ separator) (leadQuiet : IsQuiet lead)
    (clear : clearOf inPhase separator = true) :
    IsQuiet (words ++ text) := by
  rw [cut]
  exact leadQuiet.separated quiet clear

private theorem isQuiet_commaSeparated {pieces : List String}
    (quiet : ∀ piece ∈ pieces, IsQuiet piece) : IsQuiet (commaSeparated pieces) := by
  induction pieces with
  | nil =>
      decide
  | cons piece rest inductionHypothesis =>
      have pieceQuiet := quiet piece List.mem_cons_self
      have restQuiet := inductionHypothesis fun other member =>
        quiet other (List.mem_cons_of_mem piece member)
      cases rest with
      | nil =>
          exact pieceQuiet
      | cons next others =>
          rw [commaSeparated, joinWith_cons_cons]
          exact pieceQuiet.separated restQuiet (by decide)

private theorem isQuiet_application {function : String} {arguments : List String}
    (functionQuiet : IsQuiet function)
    (argumentsQuiet : ∀ argument ∈ arguments, IsQuiet argument) :
    IsQuiet (application function arguments) := by
  rw [application]
  split
  · exact functionQuiet
  · have opened := functionQuiet.separated (isQuiet_commaSeparated argumentsQuiet)
      (by decide : clearOf inPhase "(" = true)
    exact opened.followed (by decide)

private theorem isQuiet_comment {text : String} (quiet : IsQuiet text) : IsQuiet (comment text) :=
  (quiet.behind (by decide)).followed (by decide)

private theorem isQuiet_natural (value : Nat) : IsQuiet (toString value) := by
  apply isQuiet_of_not_mem
  intro member
  rw [Nat.toString_eq_ofList_toDigits, String.toList_ofList] at member
  have isDigit := Nat.isDigit_of_mem_toDigits (by decide) (by decide) member
  cases isDigit

theorem Topic.isQuiet_channel {topic : Topic} (quiet : IsQuiet topic.name) :
    IsQuiet topic.channel := by
  cases topic with
  | event channel =>
      exact quiet
  | operation name =>
      have separated := quiet.separated (by decide : IsQuiet "all")
        (by decide : clearOf inPhase "C" = true)
      rwa [String.append_assoc] at separated

private theorem isQuiet_memoryName {name : String} (quiet : IsQuiet name) :
    IsQuiet (memoryName name) :=
  quiet.behindWord "Memory" "_" (by decide) (by decide) (by decide)

private theorem isQuiet_getChannel {name : String} (quiet : IsQuiet name) :
    IsQuiet (getChannel name) :=
  quiet.behindWord "get" "_" (by decide) (by decide) (by decide)

private theorem isQuiet_setChannel {name : String} (quiet : IsQuiet name) :
    IsQuiet (setChannel name) :=
  quiet.behindWord "set" "_" (by decide) (by decide) (by decide)

private theorem isQuiet_load {memory name : String} (memoryQuiet : IsQuiet memory)
    (quiet : IsQuiet name) : IsQuiet (Event.load memory name).text :=
  (memoryQuiet.separated (isQuiet_getChannel quiet) (by decide)).separated quiet
    (by decide)

private theorem isQuiet_store {memory name : String} (memoryQuiet : IsQuiet memory)
    (quiet : IsQuiet name) : IsQuiet (Event.store memory name).text :=
  (memoryQuiet.separated (isQuiet_setChannel quiet) (by decide)).separated quiet
    (by decide)

/-- Fields behind a quiet text stand apart by the marks they start with. -/
theorem isQuiet_fields {before : String} {fields : List Field} (quiet : IsQuiet before)
    (outputs : ∀ value, .output value ∈ fields → IsQuiet value.text)
    (inputs : ∀ name, .input name ∈ fields → IsQuiet name) :
    IsQuiet (before ++ concatenate (fields.map Field.text)) := by
  induction fields generalizing before with
  | nil =>
      rwa [List.map_nil, show concatenate [] = "" from rfl, String.append_empty]
  | cons field rest inductionHypothesis =>
      rw [List.map_cons, concatenate_cons, ← String.append_assoc]
      apply inductionHypothesis
      · cases field with
        | output value =>
            have valueQuiet := outputs value List.mem_cons_self
            rw [Field.text]
            split
            · rw [← String.append_assoc, ← String.append_assoc]
              exact (quiet.separated valueQuiet (by decide)).followed
                (by decide)
            · rw [← String.append_assoc]
              exact quiet.separated valueQuiet (by decide)
        | input name =>
            rw [Field.text, ← String.append_assoc]
            exact quiet.separated (inputs name List.mem_cons_self) (by decide)
        | ignored =>
            exact quiet.followed (by decide)
      · exact fun value member => outputs value (List.mem_cons_of_mem field member)
      · exact fun name member => inputs name (List.mem_cons_of_mem field member)

/-- Accesses to variables each concern the memory and the name of one of them. -/
theorem Specification.exists_access_of_mem {specification : Specification}
    {access : String → String → Event} {ids : List VariableId} {events : List Event}
    (done : ((firstOccurrences ids).mapM (specification.accessTo access)).result =
      .ok events)
    {event : Event} (member : event ∈ events) :
    ∃ id found memory, specification.variableAt id = .ok found ∧
      (specification.memoryOf id).result = .ok memory ∧ event = access memory found.name := by
  rw [Attempt.result_mapM, mapM_eq_ok_iff] at done
  obtain ⟨id, _, eventDone⟩ := exists_left_of_mem done member
  obtain ⟨found, foundDone, rest⟩ := Attempt.result_bind_eq_ok_iff.mp eventDone
  obtain ⟨memory, memoryDone, last⟩ := Attempt.result_bind_eq_ok_iff.mp rest
  cases last
  exact ⟨id, found, memory, foundDone, memoryDone, rfl⟩

theorem UnaryOperator.isQuiet_append (operator : UnaryOperator) {text : String}
    (quiet : IsQuiet text) : IsQuiet (operator.symbol ++ text) := by
  cases operator with
  | not =>
      exact quiet.behindWord "not" " " (by decide) (by decide) (by decide)
  | neg =>
      exact quiet.behind (by decide)

namespace Specification.HasQuietNames

variable {specification : Specification} {diagram : Diagram}

private theorem isQuiet_actor (names : specification.HasQuietNames diagram) {id : ActorId}
    {found : Actor} (done : specification.actor id = .ok found) : IsQuiet found.name :=
  names.actors found (Array.mem_of_getElem? (entryAt_eq_ok_iff.mp done))

private theorem isQuiet_variable (names : specification.HasQuietNames diagram) {id : VariableId}
    {found : Variable} (done : specification.variableAt id = .ok found) :
    IsQuiet found.name :=
  names.vars found (Array.mem_of_getElem? (entryAt_eq_ok_iff.mp done))

private theorem isQuiet_interaction (names : specification.HasQuietNames diagram)
    {id : InteractionId} {found : Interaction}
    (done : specification.interaction id = .ok found) : IsQuiet found.name :=
  names.interactions found (Array.mem_of_getElem? (entryAt_eq_ok_iff.mp done))

private theorem isQuiet_render (names : specification.HasQuietNames diagram)
    {expression : Expression} {term : Term} (done : expression.term specification = .ok term)
    (nested : Bool) : IsQuiet (term.render nested) := by
  induction expression generalizing term nested with
  | natural value =>
      cases done
      exact isQuiet_natural value
  | truth value =>
      cases done
      cases value <;> decide +revert
  | var id =>
      obtain ⟨found, foundDone, last⟩ := bind_eq_ok_iff.mp done
      cases last
      exact names.isQuiet_variable foundDone
  | const id =>
      obtain ⟨found, foundDone, last⟩ := bind_eq_ok_iff.mp done
      cases last
      exact names.constants found (Array.mem_of_getElem? (entryAt_eq_ok_iff.mp foundDone))
  | unary operator operand inductionHypothesis =>
      obtain ⟨inner, innerDone, last⟩ := bind_eq_ok_iff.mp done
      cases last
      have innerQuiet := inductionHypothesis innerDone true
      rw [Term.render]
      split
      · rw [String.append_assoc, String.append_assoc]
        exact operator.isQuiet_append
          ((innerQuiet.followed (by decide)).behind (by decide))
      · exact operator.isQuiet_append innerQuiet
  | binary operator left right leftHypothesis rightHypothesis =>
      obtain ⟨leftTerm, leftDone, rest⟩ := bind_eq_ok_iff.mp done
      obtain ⟨rightTerm, rightDone, last⟩ := bind_eq_ok_iff.mp rest
      cases last
      have symbolQuiet : IsQuiet operator.symbol := by
        cases operator <;> decide
      have bodyQuiet := ((leftHypothesis leftDone true).separated symbolQuiet
        (by decide : clearOf inPhase " " = true)).separated (rightHypothesis rightDone true)
        (by decide : clearOf inPhase " " = true)
      rw [Term.render]
      split
      · exact (bodyQuiet.behind (by decide)).followed (by decide)
      · exact bodyQuiet
  | deferred content inductionHypothesis =>
      exact inductionHypothesis () done nested
  | unresolved fault =>
      cases done

/-- Accesses to memory are quiet. -/
theorem isQuiet_access (names : specification.HasQuietNames diagram)
    {access : String → String → Event}
    (accessQuiet : ∀ memory name, IsQuiet memory → IsQuiet name →
      IsQuiet (access memory name).text)
    {ids : List VariableId} {events : List Event}
    (done : ((firstOccurrences ids).mapM (specification.accessTo access)).result =
      .ok events) :
    ∀ event ∈ events, IsQuiet event.text := by
  intro event member
  obtain ⟨id, found, memory, foundDone, memoryDone, rfl⟩ := exists_access_of_mem done member
  refine accessQuiet memory found.name ?_ (names.isQuiet_variable foundDone)
  obtain ⟨again, _, rest⟩ := Attempt.result_bind_eq_ok_iff.mp memoryDone
  cases owned : again.owner with
  | none =>
      simp only [owned] at rest
      cases rest
      decide
  | some owner =>
      simp only [owned] at rest
      obtain ⟨interaction, interactionDone, last⟩ := Attempt.result_bind_eq_ok_iff.mp rest
      cases last
      exact isQuiet_memoryName (names.isQuiet_interaction interactionDone)

end Specification.HasQuietNames

private theorem isQuiet_callOn {function : String} {terms : List Term}
    (functionQuiet : IsQuiet function) (termsQuiet : ∀ term ∈ terms, IsQuiet term.text) :
    IsQuiet (Header.callOn function terms).text := by
  apply isQuiet_application functionQuiet
  simpa [Operand.text] using termsQuiet

/-- A process function of the library applied to one value. -/
theorem isQuiet_applied {function : String} {term : Term} (functionQuiet : IsQuiet function)
    (termQuiet : IsQuiet term.text) :
    IsQuiet (application function ([Operand.value term].map Operand.text)) :=
  isQuiet_application functionQuiet (by simpa [Operand.text] using termQuiet)

namespace Specification.HasQuietNames

variable {specification : Specification} {diagram : Diagram}

private theorem isQuiet_termOf (names : specification.HasQuietNames diagram) {within : Diagram}
    {id : ExpressionId} {term : Term} (done : specification.termOf within id = .ok term) :
    IsQuiet term.text :=
  names.isQuiet_render done false

/-- A header with one value is quiet. -/
private theorem isQuiet_callOnOne (names : specification.HasQuietNames diagram)
    {within : Diagram} {id : ExpressionId} {function : String} {header : Header}
    (functionQuiet : IsQuiet function)
    (done : (do
      let term ← specification.termOf within id
      return Header.callOn function [term]) = Except.ok header) :
    IsQuiet header.text := by
  obtain ⟨term, termDone, last⟩ := bind_eq_ok_iff.mp done
  cases last
  apply isQuiet_callOn functionQuiet
  simpa using names.isQuiet_termOf termDone

/-- A header with two values is quiet. -/
private theorem isQuiet_callOnTwo (names : specification.HasQuietNames diagram)
    {within : Diagram} {lower upper : ExpressionId} {function : String} {header : Header}
    (functionQuiet : IsQuiet function)
    (done : (do
      let lowerTerm ← specification.termOf within lower
      let upperTerm ← specification.termOf within upper
      return Header.callOn function [lowerTerm, upperTerm]) = Except.ok header) :
    IsQuiet header.text := by
  obtain ⟨lowerTerm, lowerDone, rest⟩ := bind_eq_ok_iff.mp done
  obtain ⟨upperTerm, upperDone, last⟩ := bind_eq_ok_iff.mp rest
  cases last
  apply isQuiet_callOn functionQuiet
  simpa using ⟨names.isQuiet_termOf lowerDone, names.isQuiet_termOf upperDone⟩

private theorem isQuiet_loopHeader (names : specification.HasQuietNames diagram) {within : Diagram}
    {bound : Option Bound} {header : Header}
    (done : specification.loopHeader within bound = .ok header) : IsQuiet header.text := by
  match bound with
  | none =>
      cases done
      decide
  | some ⟨none, none⟩ =>
      cases done
  | some ⟨some lower, none⟩ =>
      exact names.isQuiet_callOnOne (by decide) done
  | some ⟨none, some upper⟩ =>
      exact names.isQuiet_callOnOne (by decide) done
  | some ⟨some lower, some upper⟩ =>
      obtain ⟨fromZero, _, rest⟩ := bind_eq_ok_iff.mp done
      cases fromZero with
      | true =>
          exact names.isQuiet_callOnOne (by decide) rest
      | false =>
          exact names.isQuiet_callOnTwo (by decide) rest

private theorem isQuiet_durationHeader (names : specification.HasQuietNames diagram)
    {within : Diagram} {bound : Bound} {header : Header}
    (done : specification.durationHeader within bound = .ok header) :
    IsQuiet header.text := by
  match bound with
  | ⟨none, none⟩ =>
      cases done
      decide
  | ⟨some lower, none⟩ =>
      exact names.isQuiet_callOnOne (by decide) done
  | ⟨none, some upper⟩ =>
      exact names.isQuiet_callOnOne (by decide) done
  | ⟨some lower, some upper⟩ =>
      exact names.isQuiet_callOnTwo (by decide) done

end Specification.HasQuietNames

theorem Header.hasQuietParts_around {header : Header} {body : Behaviour}
    (quiet : IsQuiet header.text) (bodyQuiet : body.HasQuietParts) :
    (header.around body).HasQuietParts := by
  cases header with
  | call function arguments =>
      exact ⟨quiet, bodyQuiet⟩
  | remark text =>
      exact ⟨quiet, bodyQuiet⟩

namespace Setting

variable {setting : Setting} {diagram : Diagram}

private theorem isQuiet_loadsOf (names : setting.specification.HasQuietNames diagram)
    {ids : List ExpressionId} {loads : List Event}
    (done : (setting.loadsOf ids).result = .ok loads) :
    ∀ event ∈ loads, IsQuiet event.text := by
  obtain ⟨read, _, loadsDone⟩ := Attempt.result_bind_eq_ok_iff.mp done
  exact names.isQuiet_access (fun _ _ => isQuiet_load) loadsDone

/-- The fields of a message are terms of expressions and names of variables. -/
theorem exists_fields_of_messageEvent {content : Message} {event : Event}
    (done : setting.messageEvent content = .ok event) :
    ∃ direction fields, event = .message content direction fields ∧
      (∀ value, .output value ∈ fields → ∃ id, setting.termOf id = .ok value) ∧
      ∀ name, .input name ∈ fields →
        ∃ id found, setting.specification.variableAt id = .ok found ∧ found.name = name := by
  obtain ⟨fields, fieldsDone, rest⟩ := bind_eq_ok_iff.mp done
  obtain ⟨direction, _, last⟩ := bind_eq_ok_iff.mp rest
  cases last
  refine ⟨direction, fields, rfl, ?_, ?_⟩
  · intro value member
    obtain ⟨argument, _, fieldDone⟩ := exists_left_of_mem (mapM_eq_ok_iff.mp fieldsDone) member
    cases argument with
    | value expression =>
        obtain ⟨term, termDone, last⟩ := bind_eq_ok_iff.mp fieldDone
        cases last
        exact ⟨expression, termDone⟩
    | bind id =>
        obtain ⟨found, _, last⟩ := bind_eq_ok_iff.mp fieldDone
        cases last
    | ignored =>
        cases fieldDone
  · intro name member
    obtain ⟨argument, _, fieldDone⟩ := exists_left_of_mem (mapM_eq_ok_iff.mp fieldsDone) member
    cases argument with
    | value expression =>
        obtain ⟨term, _, last⟩ := bind_eq_ok_iff.mp fieldDone
        cases last
    | bind id =>
        obtain ⟨found, foundDone, last⟩ := bind_eq_ok_iff.mp fieldDone
        cases last
        exact ⟨id, found, foundDone, rfl⟩
    | ignored =>
        cases fieldDone

private theorem isQuiet_messageEvent (names : setting.specification.HasQuietNames diagram)
    {content : Message} {event : Event} (topicQuiet : IsQuiet content.topic.name)
    (done : setting.messageEvent content = .ok event) : IsQuiet event.text := by
  obtain ⟨direction, fields, rfl, outputs, inputs⟩ := exists_fields_of_messageEvent done
  have directionQuiet : IsQuiet direction.text := by
    cases direction <;> decide
  refine isQuiet_fields ((Topic.isQuiet_channel topicQuiet).separated directionQuiet
    (by decide)) ?_ ?_
  · intro value member
    obtain ⟨id, termDone⟩ := outputs value member
    exact names.isQuiet_termOf termDone
  · intro name member
    obtain ⟨id, found, foundDone, rfl⟩ := inputs name member
    exact names.isQuiet_variable foundDone

private theorem isQuiet_internalChannels (names : setting.specification.HasQuietNames diagram)
    {internal : List String} (done : setting.internalChannels = .ok internal) :
    ∀ channel ∈ internal, IsQuiet channel := by
  obtain ⟨memory, memoryDone, last⟩ := bind_eq_ok_iff.mp done
  cases last
  obtain ⟨interaction, interactionDone, rest⟩ := bind_eq_ok_iff.mp memoryDone
  obtain ⟨kept, keptDone, last⟩ := bind_eq_ok_iff.mp rest
  cases last
  have spaceQuiet := isQuiet_memoryName (names.isQuiet_interaction interactionDone)
  intro channel member
  simp only [List.mem_append] at member
  rcases member with (isTime | isHandshake) | isMemory
  · have timeQuiet : ∀ channel ∈ [tock, finish, terminate], IsQuiet channel := by
      decide
    exact timeQuiet channel isTime
  · obtain ⟨synchronisation, _, rfl⟩ := List.mem_map.mp isHandshake
    cases synchronisation.kind <;> decide
  · obtain ⟨found, isKept, inCell⟩ := List.mem_flatMap.mp isMemory
    obtain ⟨_, _, foundDone⟩ := exists_left_of_mem (mapM_eq_ok_iff.mp keptDone) isKept
    have nameQuiet := names.isQuiet_variable foundDone
    simp only [Specification.cellChannels, List.mem_cons, List.not_mem_nil, or_false] at inCell
    rcases inCell with rfl | rfl
    · exact spaceQuiet.separated (isQuiet_getChannel nameQuiet) (by decide)
    · exact spaceQuiet.separated (isQuiet_setChannel nameQuiet) (by decide)

private theorem isQuiet_untilHeader {intra : MessageSet} {internal : List String}
    (internalQuiet : ∀ channel ∈ internal, IsQuiet channel)
    (topicsQuiet : ∀ topics, intra = .topics topics →
      ∀ topic ∈ topics, IsQuiet topic.name) :
    IsQuiet (untilHeader intra internal).text := by
  have productionsQuiet : ∀ channels : List String,
      (∀ channel ∈ channels, IsQuiet channel) →
      IsQuiet (EventSet.productions channels).text := by
    intro channels quiet
    rw [EventSet.text]
    split
    · decide
    · exact ((isQuiet_commaSeparated quiet).behind (by decide)).followed
        (by decide)
  have eventsQuiet : IsQuiet (intra.events internal).text := by
    cases intra with
    | empty =>
        exact productionsQuiet [] (by simp)
    | every =>
        rw [MessageSet.events]
        split
        · decide
        · apply isQuiet_application (by decide)
          simpa using ⟨by decide, productionsQuiet internal internalQuiet⟩
    | topics chosen =>
        apply productionsQuiet
        intro channel member
        obtain ⟨topic, isChosen, rfl⟩ := List.mem_map.mp member
        exact Topic.isQuiet_channel (topicsQuiet chosen rfl topic isChosen)
  apply isQuiet_application (by decide)
  simpa [Operand.text] using eventsQuiet

end Setting

/-! ## Quiet processes -/

namespace Behaviour

private theorem hasQuietParts_performAll {events : List Event} {next : Behaviour}
    (eventsQuiet : ∀ event ∈ events, IsQuiet event.text) (nextQuiet : next.HasQuietParts) :
    (performAll events next).HasQuietParts := by
  induction events with
  | nil =>
      exact nextQuiet
  | cons event rest inductionHypothesis =>
      refine ⟨Or.inr (eventsQuiet event List.mem_cons_self), inductionHypothesis ?_⟩
      exact fun other member => eventsQuiet other (List.mem_cons_of_mem event member)

private theorem hasQuietParts_idle {body : Behaviour} (quiet : body.HasQuietParts) :
    body.idle.HasQuietParts :=
  ⟨by decide, quiet⟩

private theorem hasQuietParts_enclose {body : Behaviour} (quiet : body.HasQuietParts) :
    body.enclose.HasQuietParts := by
  rw [enclose]
  split
  · exact quiet
  · exact quiet

private theorem hasQuietParts_sequence {parts : List Behaviour}
    (quiet : ∀ part ∈ parts, part.HasQuietParts) : (sequence parts).HasQuietParts := by
  induction parts with
  | nil =>
      exact trivial
  | cons part rest inductionHypothesis =>
      have partQuiet := quiet part List.mem_cons_self
      have restQuiet := inductionHypothesis fun other member =>
        quiet other (List.mem_cons_of_mem part member)
      cases rest with
      | nil =>
          exact partQuiet
      | cons next others =>
          exact ⟨partQuiet, restQuiet⟩

private theorem hasQuietParts_joinAll (operator : JoinOperator) {first : Behaviour}
    {rest : List Behaviour} (quiet : ∀ part ∈ first :: rest, part.HasQuietParts) :
    (joinAll operator first rest).HasQuietParts := by
  induction rest generalizing first with
  | nil =>
      exact quiet first List.mem_cons_self
  | cons next others inductionHypothesis =>
      exact ⟨quiet first List.mem_cons_self, inductionHypothesis fun part member =>
        quiet part (List.mem_cons_of_mem first member)⟩

private theorem hasQuietParts_combine (operator : JoinOperator) {parts : List Behaviour}
    (quiet : ∀ part ∈ parts, part.HasQuietParts) : (combine operator parts).HasQuietParts := by
  match parts with
  | [] =>
      cases operator <;> exact trivial
  | [only] =>
      exact quiet only List.mem_cons_self
  | first :: next :: rest =>
      exact hasQuietParts_joinAll operator quiet

end Behaviour

theorem Synchronisation.isHandshake_event {synchronisation : Synchronisation} {phase : Phase}
    {fragment : FragmentId} {event : Event}
    (done : synchronisation.event phase fragment = .ok event) : event.isHandshake = true := by
  obtain ⟨number, _, last⟩ := bind_eq_ok_iff.mp done
  cases last
  rfl

theorem Setting.hasQuietParts_chooseAmong (kind : BranchKind) {operands : List Behaviour}
    (quiet : ∀ operand ∈ operands, operand.HasQuietParts) :
    (chooseAmong kind operands).HasQuietParts := by
  cases kind with
  | alt =>
      exact Behaviour.hasQuietParts_combine _ quiet
  | xalt =>
      exact Behaviour.hasQuietParts_combine _ quiet
  | opt =>
      apply Behaviour.hasQuietParts_combine
      intro operand member
      rcases List.mem_append.mp member with given | isSkip
      · exact quiet operand given
      · cases List.mem_singleton.mp isSkip
        exact trivial

namespace Fragment

variable {setting : Setting} {view : Viewpoint}

/-- What is seen, if anything is, has quiet parts. -/
def SeenQuietly (seen : Option Behaviour) : Prop :=
  ∀ behaviour ∈ seen, behaviour.HasQuietParts

theorem SeenQuietly.getD_skip {seen : Option Behaviour} (quiet : SeenQuietly seen) :
    (seen.getD .skip).HasQuietParts := by
  cases seen with
  | none =>
      exact trivial
  | some behaviour =>
      exact quiet behaviour rfl

theorem SeenQuietly.sequenceOf {seen : List (Option Behaviour)}
    (quiet : ∀ part ∈ seen, SeenQuietly part) : SeenQuietly (sequenceOf seen) := by
  intro behaviour found
  rw [Fragment.sequenceOf] at found
  split at found
  · cases found
  · cases found
    apply Behaviour.hasQuietParts_sequence
    intro part member
    obtain ⟨given, isGiven, same⟩ := List.mem_filterMap.mp member
    exact quiet given isGiven part same

theorem IsArm.hasQuietParts {diagram : Diagram}
    (names : setting.specification.HasQuietNames diagram)
    {guard : Option ExpressionId} {body : Option Behaviour} {arm : Setting.Arm}
    (isArm : IsArm setting guard body arm) (quiet : SeenQuietly body) :
    arm.behaviour.HasQuietParts := by
  cases guard with
  | none =>
      rw [show arm = _ from isArm]
      exact quiet.getD_skip
  | some condition =>
      obtain ⟨term, termDone, rfl⟩ := isArm
      exact ⟨names.isQuiet_termOf termDone, Behaviour.hasQuietParts_enclose quiet.getD_skip⟩

private theorem hasQuietParts_metArms {enter leave : Event} (isEnter : enter.isHandshake = true)
    (isLeave : leave.isHandshake = true) {arms : List (Option Behaviour)}
    (quiet : ∀ arm ∈ arms, SeenQuietly arm) : (metArms enter leave arms).HasQuietParts := by
  have bodyQuiet : (Behaviour.combine .interleaving
      (arms.map fun arm => arm.getD .skip)).HasQuietParts := by
    apply Behaviour.hasQuietParts_combine
    intro behaviour member
    obtain ⟨arm, isArm, rfl⟩ := List.mem_map.mp member
    exact (quiet arm isArm).getD_skip
  refine ⟨Behaviour.hasQuietParts_idle ⟨Or.inl isEnter, ?_⟩,
    Behaviour.hasQuietParts_idle ⟨Or.inl isLeave, trivial⟩⟩
  split
  · exact bodyQuiet
  · exact bodyQuiet

theorem Sound.unguarded {specification : Specification} {diagram : Diagram}
    {fragment : Fragment} (sound : fragment.Sound specification diagram) :
    fragment.unguarded.Sound specification diagram := by
  cases fragment with
  | operand guard fragments =>
      cases sound with
      | operand _ each =>
          exact .operand (by simp) each
  | _ =>
      exact sound

/-- All that is seen of a sound fragment has quiet parts, if the names are quiet. -/
theorem Sees.seenQuietly {fragment : Fragment} {seen : Option Behaviour}
    (sees : fragment.Sees setting view seen)
    (names : setting.specification.HasQuietNames setting.interaction.toDiagram)
    (sound : fragment.Sound setting.specification setting.interaction.toDiagram) :
    SeenQuietly seen := by
  induction sees with
  | message _ eventDone _ storesDone loadsDone =>
      cases sound with
      | message member _ _ _ =>
          have topicQuiet := names.topics _ member _ List.mem_cons_self
          rintro _ ⟨⟩
          refine Behaviour.hasQuietParts_performAll (Setting.isQuiet_loadsOf names loadsDone) ?_
          refine Behaviour.hasQuietParts_idle
            ⟨Or.inr (Setting.isQuiet_messageEvent names topicQuiet eventDone), ?_⟩
          exact Behaviour.hasQuietParts_performAll
            (names.isQuiet_access (fun _ _ => isQuiet_store) storesDone) trivial
  | wait _ loadsDone termDone =>
      rintro _ ⟨⟩
      refine Behaviour.hasQuietParts_performAll (Setting.isQuiet_loadsOf names loadsDone) ?_
      exact isQuiet_applied (by decide) (names.isQuiet_termOf termDone)
  | deadlock _ =>
      rintro _ ⟨⟩
      exact trivial
  | create id _ =>
      rintro _ ⟨⟩
      exact ⟨trivial, isQuiet_comment (by decide)⟩
  | loop _ loadsDone headerDone inductionHypothesis =>
      cases sound with
      | loop _ _ bodySound =>
          rintro _ ⟨⟩
          exact Behaviour.hasQuietParts_performAll (Setting.isQuiet_loadsOf names loadsDone)
            (Header.hasQuietParts_around (names.isQuiet_loopHeader headerDone)
              (inductionHypothesis bodySound _ rfl))
  | branch kind _ arms _ loadsDone inductionHypothesis =>
      cases sound with
      | branch _ operandsSound =>
          rintro _ ⟨⟩
          refine Behaviour.hasQuietParts_performAll (Setting.isQuiet_loadsOf names loadsDone)
            (Setting.hasQuietParts_chooseAmong kind ?_)
          intro behaviour member
          obtain ⟨part, isPart, rfl⟩ := List.mem_map.mp member
          have operandSound := operandsSound part.1 (List.mem_map_of_mem isPart)
          exact (arms part isPart).hasQuietParts names
            (inductionHypothesis part isPart operandSound.unguarded)
  | metPar _ _ enterDone leaveDone inductionHypothesis =>
      cases sound with
      | par _ operandsSound =>
          rintro _ ⟨⟩
          refine hasQuietParts_metArms (Synchronisation.isHandshake_event enterDone)
            (Synchronisation.isHandshake_event leaveDone) ?_
          intro arm member
          obtain ⟨part, isPart, rfl⟩ := List.mem_map.mp member
          exact inductionHypothesis part isPart
            (operandsSound part.1 (List.mem_map_of_mem isPart))
  | par id _ _ _ inductionHypothesis =>
      cases sound with
      | par _ operandsSound =>
          rintro _ ⟨⟩
          apply Behaviour.hasQuietParts_combine
          intro behaviour member
          obtain ⟨part, isPart, rfl⟩ := List.mem_map.mp member
          exact (inductionHypothesis part isPart
            (operandsSound part.1 (List.mem_map_of_mem isPart))).getD_skip
  | duration _ _ loadsDone headerDone inductionHypothesis =>
      cases sound with
      | duration _ _ bodySound =>
          rintro _ ⟨⟩
          exact Behaviour.hasQuietParts_performAll (Setting.isQuiet_loadsOf names loadsDone)
            (Header.hasQuietParts_around (names.isQuiet_durationHeader headerDone)
              (inductionHypothesis bodySound).getD_skip)
  | otherDuration _ _ _ inductionHypothesis =>
      cases sound with
      | duration _ _ bodySound =>
          exact inductionHypothesis bodySound
  | deadline _ _ _ loadsDone termDone inductionHypothesis =>
      cases sound with
      | deadline _ _ bodySound =>
          rintro _ ⟨⟩
          refine Behaviour.hasQuietParts_performAll
            (Setting.isQuiet_loadsOf names loadsDone) ⟨?_, ?_⟩
          · exact isQuiet_applied (by decide) (names.isQuiet_termOf termDone)
          · exact (inductionHypothesis bodySound).getD_skip
  | remarkedDeadline _ _ _ actorDone inductionHypothesis =>
      cases sound with
      | deadline _ _ bodySound =>
          rintro _ ⟨⟩
          have remarkQuiet := (names.isQuiet_actor actorDone).behindWord "deadline on" " "
            (by decide : "deadline on " = _) (by decide) (by decide)
          exact ⟨isQuiet_comment remarkQuiet, inductionHypothesis bodySound _ rfl⟩
  | metUntil intra body _ enterDone leaveDone =>
      rintro _ ⟨⟩
      exact Behaviour.hasQuietParts_idle ⟨Or.inl (Synchronisation.isHandshake_event enterDone),
        Or.inl (Synchronisation.isHandshake_event leaveDone), trivial⟩
  | «until» id intra _ _ internalDone inductionHypothesis =>
      cases sound with
      | «until» placed bodySound =>
          obtain ⟨child, present⟩ := placed
          rintro _ ⟨⟩
          refine Header.hasQuietParts_around
            (Setting.isQuiet_untilHeader (Setting.isQuiet_internalChannels names internalDone) ?_)
            (inductionHypothesis bodySound).getD_skip
          rintro topics rfl
          exact names.topics _ (Array.mem_of_getElem? present)
  | critical id _ _ =>
      rintro _ ⟨⟩
      exact ⟨trivial, isQuiet_comment (by decide)⟩
  | operand _ inductionHypothesis =>
      cases sound with
      | operand _ fragmentsSound =>
          apply SeenQuietly.sequenceOf
          intro part member
          obtain ⟨whole, isWhole, rfl⟩ := List.mem_map.mp member
          exact inductionHypothesis whole isWhole
            (fragmentsSound whole.1 (List.mem_map_of_mem isWhole))
  | guardedOperand _ bodyDone loadsDone termDone inductionHypothesis =>
      cases sound with
      | operand _ fragmentsSound =>
          have bodyQuiet := SeenQuietly.sequenceOf fun part member => by
            obtain ⟨whole, isWhole, rfl⟩ := List.mem_map.mp member
            exact inductionHypothesis whole isWhole
              (fragmentsSound whole.1 (List.mem_map_of_mem isWhole))
          rintro _ ⟨⟩
          exact Behaviour.hasQuietParts_performAll (Setting.isQuiet_loadsOf names loadsDone)
            ⟨names.isQuiet_termOf termDone,
              Behaviour.hasQuietParts_enclose (bodyQuiet _ bodyDone)⟩
  | deferred _ inductionHypothesis =>
      cases sound with
      | deferred contentSound =>
          exact inductionHypothesis contentSound
  | _ =>
      rintro _ ⟨⟩

end Fragment

end SequenceChart
