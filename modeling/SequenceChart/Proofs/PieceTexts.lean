import SequenceChart.Proofs.PrintedPieces
import SequenceChart.Proofs.ProjectionPieces
import SequenceChart.Proofs.TextLaws

/-!
# Texts of pieces

A text law holds of what each piece of a projection says: of layout, events and calls as
they are printed, and of the text of a comment without its marks.  There is one case for
each origin of pieces, and each needs only what the specification gives.
-/

namespace SequenceChart

def Piece.remark? : Piece → Option String
  | .remark text => some text
  | _ => none

/-- What a piece says: the text of a comment, and all of any other piece. -/
def Piece.content (piece : Piece) : String :=
  piece.remark?.getD piece.text

def SaysOnly (good : String → Prop) (pieces : List Piece) : Prop :=
  ∀ piece ∈ pieces, good piece.content

namespace SaysOnly

variable {good : String → Prop}

theorem nil : SaysOnly good [] :=
  List.forall_mem_nil _

theorem cons {piece : Piece} {rest : List Piece} (first : good piece.content)
    (others : SaysOnly good rest) : SaysOnly good (piece :: rest) :=
  List.forall_mem_cons.mpr ⟨first, others⟩

theorem append {first second : List Piece} (ofFirst : SaysOnly good first)
    (ofSecond : SaysOnly good second) : SaysOnly good (first ++ second) :=
  List.forall_mem_append.mpr ⟨ofFirst, ofSecond⟩

theorem flatMap {α : Type} {pieces : α → List Piece} {items : List α}
    (each : ∀ item ∈ items, SaysOnly good (pieces item)) :
    SaysOnly good (items.flatMap pieces) := by
  intro piece member
  obtain ⟨item, isItem, inItem⟩ := List.mem_flatMap.mp member
  exact each item isItem piece inItem

theorem named {name : String} (ofName : good name) : SaysOnly good (Behaviour.named name).pieces :=
  List.forall_mem_singleton.mpr ofName

end SaysOnly

/-- A text law that also holds of the signs between and around processes. -/
structure PieceLaw (isAllowed : Char → Bool) (good : String → Prop) : Prop
    extends TextLaw isAllowed good where
  semicolon : good "; "
  opening : good "("
  closing : good ")"

theorem pieceLaw_inline : PieceLaw isInline (ConsistsOf isInline) where
  toTextLaw := textLaw_inline
  semicolon := by decide
  opening := by decide
  closing := by decide

theorem PairRule.Tolerates.pieceLaw {β : Type} {rule : PairRule β} {isAllowed : Char → Bool}
    (tolerates : rule.Tolerates isAllowed) :
    PieceLaw isAllowed fun text => rule.within text = [] where
  toTextLaw := tolerates.textLaw
  semicolon := rule.within_border (by decide)
  opening := rule.within_border (by decide)
  closing := rule.within_border (by decide)

namespace Behaviour

variable {good : Behaviour → Prop} {fits : EventSet → Prop}
  (grouped : ∀ body, good body → good body.grouped)
  (synchronised : ∀ left events right,
    good left → fits events → good right → good (.synchronised left events right))
include grouped synchronised

/-- A composition is good if its labels fit and all its processes are good. -/
theorem holds_compose {first : Behaviour} {steps : List (EventSet × Behaviour)}
    (ofFirst : good first) (each : ∀ step ∈ steps, fits step.1 ∧ good step.2) :
    good (compose first steps) := by
  cases steps with
  | nil =>
      exact ofFirst
  | cons step rest =>
      obtain ⟨ofLabel, ofNext⟩ := each step List.mem_cons_self
      have started := synchronised first step.1 step.2 ofFirst ofLabel ofNext
      have ofRest := fun other member => each other (List.mem_cons_of_mem step member)
      rw [compose]
      clear ofFirst each ofLabel ofNext
      -- Every further step puts what is there in parentheses and joins one more process.
      generalize Behaviour.synchronised first step.1 step.2 = sofar at started ⊢
      induction rest generalizing sofar with
      | nil =>
          exact started
      | cons next others inductionHypothesis =>
          obtain ⟨nextLabel, ofJoined⟩ := ofRest next List.mem_cons_self
          apply inductionHypothesis
          · exact fun other member => ofRest other (List.mem_cons_of_mem next member)
          · exact synchronised sofar.grouped next.1 next.2 (grouped sofar started) nextLabel
              ofJoined

theorem holds_parallel {α : Type} {name : α → Except Fault Behaviour}
    {label : α → List α → Except Fault EventSet} {items : List α} {composed : Behaviour}
    (named : ∀ item process, name item = .ok process → good process)
    (labelled : ∀ item rest events, label item rest = .ok events → fits events)
    (done : parallel name label items = .ok composed) : good composed := by
  have ofSteps : ∀ items steps, parallelSteps name label items = .ok steps →
      ∀ step ∈ steps, fits step.1 ∧ good step.2 := by
    intro items
    induction items with
    | nil =>
        rintro _ ⟨⟩
        exact List.forall_mem_nil _
    | cons current rest inductionHypothesis =>
        intro steps stepsDone
        cases rest with
        | nil =>
            cases stepsDone
            exact List.forall_mem_nil _
        | cons next others =>
            obtain ⟨events, eventsDone, further⟩ := bind_eq_ok_iff.mp stepsDone
            obtain ⟨joined, joinedDone, further⟩ := bind_eq_ok_iff.mp further
            obtain ⟨later, laterDone, last⟩ := bind_eq_ok_iff.mp further
            cases last
            refine List.forall_mem_cons.mpr ⟨⟨?_, ?_⟩, inductionHypothesis later laterDone⟩
            · exact labelled current (next :: others) events eventsDone
            · exact named next joined joinedDone
  cases items with
  | nil =>
      cases done
  | cons first rest =>
      obtain ⟨start, startDone, further⟩ := bind_eq_ok_iff.mp done
      obtain ⟨steps, stepsDone, last⟩ := bind_eq_ok_iff.mp further
      cases last
      exact holds_compose grouped synchronised (named first start startDone)
        (ofSteps (first :: rest) steps stepsDone)

end Behaviour

namespace PieceLaw

variable {isAllowed : Char → Bool} {good : String → Prop} (law : PieceLaw isAllowed good)
include law

theorem saysOnly_skip : SaysOnly good Behaviour.skip.pieces :=
  .cons (law.fixed (by decide : isFixed "SKIP" = true)) .nil

theorem saysOnly_perform {event : Event} {next : Behaviour} (ofEvent : good event.text)
    (ofNext : SaysOnly good next.pieces) : SaysOnly good (Behaviour.perform event next).pieces :=
  .cons ofEvent (.cons (law.fixed (by decide : isFixed " -> " = true)) ofNext)

theorem saysOnly_andThen {first second : Behaviour} (ofFirst : SaysOnly good first.pieces)
    (ofSecond : SaysOnly good second.pieces) :
    SaysOnly good (Behaviour.andThen first second).pieces :=
  ofFirst.append (.cons law.semicolon ofSecond)

theorem saysOnly_grouped {body : Behaviour} (ofBody : SaysOnly good body.pieces) :
    SaysOnly good body.grouped.pieces :=
  .cons law.opening (ofBody.append (.cons law.closing .nil))

theorem saysOnly_interrupted {left right : Behaviour} (ofLeft : SaysOnly good left.pieces)
    (ofRight : SaysOnly good right.pieces) :
    SaysOnly good (Behaviour.interrupted left right).pieces :=
  ofLeft.append (.cons (law.fixed (by decide : isFixed " /\\ " = true)) ofRight)

theorem saysOnly_synchronised {left right : Behaviour} {events : EventSet}
    (ofLeft : SaysOnly good left.pieces) (ofEvents : good events.text)
    (ofRight : SaysOnly good right.pieces) :
    SaysOnly good (Behaviour.synchronised left events right).pieces := by
  have label : good (" [| " ++ events.text ++ " |] ") :=
    law.followed (by decide) (law.behind (by decide) ofEvents)
  exact ofLeft.append (.cons label ofRight)

theorem saysOnly_hiding {body : Behaviour} {events : EventSet} (ofBody : SaysOnly good body.pieces)
    (ofEvents : good events.text) : SaysOnly good (Behaviour.hiding body events).pieces := by
  have hidden : good (" \\ " ++ events.text) := law.behind (by decide) ofEvents
  exact ofBody.append (.cons hidden .nil)

theorem saysOnly_joinAll (operator : JoinOperator) {first : Behaviour} {rest : List Behaviour}
    (each : ∀ part ∈ first :: rest, SaysOnly good part.pieces) :
    SaysOnly good (Behaviour.joinAll operator first rest).pieces := by
  induction rest generalizing first with
  | nil =>
      exact each first List.mem_cons_self
  | cons next others inductionHypothesis =>
      have symbol : isFixed (" " ++ operator.symbol ++ " ") = true := by
        cases operator <;> decide
      obtain ⟨ofFirst, ofRest⟩ := List.forall_mem_cons.mp each
      exact ofFirst.append (.cons (law.fixed symbol) (inductionHypothesis ofRest))

end PieceLaw

namespace Setting

variable {isAllowed : Char → Bool} {good : String → Prop} {setting : Setting}

/-- The texts of the specification are over the alphabet of a law, and the interaction of
the setting is one of the specification. -/
structure Writes (setting : Setting) (isAllowed : Char → Bool) (good : String → Prop) :
    Prop where
  law : PieceLaw isAllowed good
  gives : setting.specification.GivesOnly (ConsistsOf isAllowed)
  placed : setting.specification.interaction setting.id = .ok setting.interaction

namespace Writes

variable (writes : setting.Writes isAllowed good)
include writes

theorem topic {entry : FragmentEntry} {topic : Topic}
    (inTable : entry ∈ setting.interaction.fragments) (inEntry : topic ∈ entry.topics) :
    ConsistsOf isAllowed topic.name := by
  have given := Diagram.topic_mem_givenTexts inTable inEntry
  exact writes.gives.interactions _ (mem_of_entryAt writes.placed) _ given

private theorem consistsOf_memoryOf {id : VariableId} {memory : String}
    (done : (setting.specification.memoryOf id).result = .ok memory) :
    ConsistsOf isAllowed memory :=
  writes.law.allowsNames.consistsOf_memoryOf (fun _ _ => writes.gives.interaction_name) done

theorem consistsOf_handshakeChannels :
    ∀ channel ∈ setting.handshakeChannels, ConsistsOf isAllowed channel := by
  intro channel member
  obtain ⟨synchronisation, _, rfl⟩ := List.mem_map.mp member
  apply writes.law.allowsNames.consistsOf
  cases synchronisation.kind <;> decide

private theorem consistsOf_internalChannels {internal : List String}
    (done : setting.internalChannels = .ok internal) :
    ∀ channel ∈ internal, ConsistsOf isAllowed channel := by
  obtain ⟨memory, memoryDone, last⟩ := bind_eq_ok_iff.mp done
  cases last
  have fixed : ∀ channel ∈ [tock, finish, terminate], ConsistsOf isNameCharacter channel := by
    decide
  have ofMemory := writes.law.allowsNames.consistsOf_memoryChannels
    (fun _ _ => writes.gives.interaction_name) (fun _ _ => writes.gives.variable_name) memoryDone
  rw [List.forall_mem_append, List.forall_mem_append]
  refine ⟨⟨?_, writes.consistsOf_handshakeChannels⟩, ofMemory⟩
  exact fun channel member => writes.law.allowsNames.consistsOf (fixed channel member)

private theorem good_termOf {id : ExpressionId} {term : Term}
    (done : setting.termOf id = .ok term) :
    good term.text :=
  writes.law.term (writes.gives.names_term done)

private theorem good_messageEvent {content : Message} {event : Event}
    (inTable : .message content ∈ setting.interaction.fragments)
    (done : setting.messageEvent content = .ok event) : good event.text := by
  obtain ⟨direction, fields, rfl, outputs, inputs⟩ := exists_fields_of_messageEvent done
  have ofTopic := writes.topic inTable List.mem_cons_self
  have ofName := writes.law.allowsNames.consistsOf_eventName ofTopic direction
  apply writes.law.fields (writes.law.given ofName)
  · intro value member
    obtain ⟨id, termDone⟩ := outputs value member
    exact writes.good_termOf termDone
  · intro name member
    obtain ⟨id, found, foundDone, rfl⟩ := inputs name member
    exact writes.law.given (writes.gives.variable_name foundDone)

private theorem good_handshake (kind : HandshakeKind) (number : Nat) (phase : Phase) :
    good (Event.handshake kind number phase).text := by
  have words : isFixed kind.channel = true ∧ isFixed phase.text = true := by
    cases kind <;> cases phase <;> decide
  have numbered := writes.law.followed (isSeparator_natural number)
    (writes.law.followed (by decide : isSeparator "." = true) (writes.law.fixed words.1))
  exact writes.law.separated (by decide) numbered (writes.law.fixed words.2)

/-- Every piece of a projection says something good: one case for each origin. -/
theorem good_content {piece : Piece} (arises : piece.Arises setting) : good piece.content := by
  have law := writes.law
  cases arises with
  | @layout text isLayout =>
      have known : ∀ text ∈ projectionLayout,
          isFixed text = true ∨ text = "; " ∨ text = "(" ∨ text = ")" := by decide
      rcases known text isLayout with fixed | rfl | rfl | rfl
      · exact law.fixed fixed
      · exact law.semicolon
      · exact law.opening
      · exact law.closing
  | guard termDone =>
      exact law.followed (by decide) (writes.good_termOf termDone)
  | wait termDone =>
      have word : isFixed "WAIT" = true := by decide
      exact law.application (law.fixed word)
        (List.forall_mem_singleton.mpr (writes.good_termOf termDone))
  | message inTable eventDone =>
      exact writes.good_messageEvent inTable eventDone
  | load foundDone memoryDone =>
      exact law.load (writes.consistsOf_memoryOf memoryDone) (writes.gives.variable_name foundDone)
  | store foundDone memoryDone =>
      exact law.store (writes.consistsOf_memoryOf memoryDone) (writes.gives.variable_name foundDone)
  | handshake kind number phase =>
      exact writes.good_handshake kind number phase
  | call body known found =>
      have words : ∀ function ∈ enclosingFunctions, isFixed function = true := by decide
      refine law.application (law.fixed (words _ known)) ?_
      simp only [List.map_map, List.forall_mem_map]
      intro term isTerm
      obtain ⟨id, termDone⟩ := found term isTerm
      exact writes.good_termOf termDone
  | @«until» intra child internal body inTable internalDone =>
      have ofTopics : ∀ chosen, intra = .topics chosen →
          ∀ topic ∈ chosen, ConsistsOf isAllowed topic.name := by
        rintro chosen rfl topic isChosen
        exact writes.topic inTable isChosen
      have ofInternal := writes.consistsOf_internalChannels internalDone
      have word : isFixed "AnyUntil" = true := by decide
      exact law.application (law.fixed word)
        (List.forall_mem_singleton.mpr (law.messageSet ofInternal ofTopics))
  | remark isRemark =>
      have words : ∀ remark ∈ fixedRemarks, isFixed remark = true := by decide
      exact law.fixed (words _ isRemark)
  | deadline actorDone =>
      have ofActor := writes.gives.actors _ (mem_of_entryAt actorDone)
      exact law.behind (by decide) (law.given ofActor)

theorem saysOnly {behaviour : Behaviour} (arises : behaviour.Arises setting) :
    SaysOnly good behaviour.pieces :=
  fun piece member => writes.good_content (arises piece member)

end Writes

end Setting

end SequenceChart
