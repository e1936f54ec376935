import SequenceChart.Proofs.CompositionLabels
import SequenceChart.Proofs.MemoryWrites

/-!
# Events of messages with the world

No label is written for the sake of a message with the world: one of its ends is
not a lifeline.  An event that is in no label is performed by one lifeline alone.
But an event tells the channel and the direction only.  Messages from the world
have a direction of their own, so their events are in no label.  The event of a
message to the world is in the label of every step across which lifelines use
the same channel.
-/

namespace SequenceChart

section Alone

variable {label : List ActorId → ActorId → List String}
variable {defined : String → Option Behaviour} {process : ActorId → Behaviour}

private theorem nested_update_of_not_mem {before rest : List ActorId} {left later : Behaviour}
    {actor : ActorId} (absent : actor ∉ rest) :
    nested label (Function.update process actor later) before left rest =
      nested label process before left rest := by
  induction rest generalizing before left with
  | nil =>
      rfl
  | cons next rest inductionHypothesis =>
      rw [List.mem_cons, not_or] at absent
      rw [nested, nested, Function.update_of_ne (Ne.symm absent.1), inductionHypothesis absent.2]

private theorem exists_of_leftSide_transition {before : List ActorId} {left final : Behaviour}
    {action : Action} (step : Transition defined (leftSide before left) action final) :
    ∃ later, Transition defined left action later ∧ final = leftSide before later := by
  by_cases single : before.length ≤ 1
  · simp only [leftSide, if_pos single] at step ⊢
    exact ⟨final, step, rfl⟩
  · simp only [leftSide, if_neg single] at step ⊢
    cases step with
    | grouped inner =>
        exact ⟨_, inner, rfl⟩

/-- An event that no further label holds is performed by what was composed before, or
by one of the lifelines that are joined to it. -/
private theorem transition_nested {before rest : List ActorId} {left final : Behaviour}
    {event : String} (distinct : rest.Nodup)
    (unshared : ∀ passed next after, rest = passed ++ next :: after →
      event ∉ label (before ++ passed) next)
    (step : Transition defined (nested label process before left rest) (.event event) final) :
    (∃ later, Transition defined left (.event event) later ∧
      final = nested label process before later rest) ∨
    ∃ actor ∈ rest, ∃ later, Transition defined (process actor) (.event event) later ∧
      final = nested label (Function.update process actor later) before left rest := by
  induction rest generalizing before left with
  | nil =>
      exact Or.inl ⟨final, step, rfl⟩
  | cons next rest inductionHypothesis =>
      obtain ⟨fresh, restDistinct⟩ := List.nodup_cons.mp distinct
      have notShared : event ∉ label before next := by
        simpa using unshared [] next rest rfl
      have restUnshared : ∀ passed other after, rest = passed ++ other :: after →
          event ∉ label (before ++ [next] ++ passed) other := by
        intro passed other after shape
        have inWhole := unshared (next :: passed) other after (by rw [shape, List.cons_append])
        rwa [List.append_assoc]
      rcases inductionHypothesis restDistinct restUnshared step with
        ⟨joined, joinedStep, rfl⟩ | ⟨actor, member, later, actorStep, rfl⟩
      · unfold joinedTo at joinedStep
        cases joinedStep with
        | left _ _ leftStep =>
            obtain ⟨later, innerStep, rfl⟩ := exists_of_leftSide_transition leftStep
            exact Or.inl ⟨later, innerStep, rfl⟩
        | @right _ later _ _ _ _ nextStep =>
            refine Or.inr ⟨next, List.mem_cons_self, later, nextStep, ?_⟩
            rw [nested, nested_update_of_not_mem fresh, Function.update_self]
            rfl
        | together shared _ _ =>
            exact absurd shared notShared
      · have apart : next ≠ actor := by
          rintro rfl
          exact fresh member
        refine Or.inr ⟨actor, List.mem_cons_of_mem next member, later, actorStep, ?_⟩
        rw [nested, Function.update_of_ne apart]

/-- `PerformedAlone label first rest event` means that, whatever the lifelines have become,
their composition performs the event by a step of one of them, and the others stay as
they are. -/
def PerformedAlone (label : List ActorId → ActorId → List String) (first : ActorId)
    (rest : List ActorId) (event : String) : Prop :=
  ∀ (defined : String → Option Behaviour) (process : ActorId → Behaviour) (final : Behaviour),
    Transition defined (nested label process [first] (process first) rest) (.event event) final →
    ∃ actor ∈ first :: rest, ∃ later, Transition defined (process actor) (.event event) later ∧
      final = nested label (Function.update process actor later) [first]
        (Function.update process actor later first) rest

private theorem performedAlone_of_unshared {first : ActorId} {rest : List ActorId} {event : String}
    (distinct : (first :: rest).Nodup)
    (unshared : ∀ before next, IsStep (first :: rest) before next → event ∉ label before next) :
    PerformedAlone label first rest event := by
  intro defined process final step
  obtain ⟨fresh, restDistinct⟩ := List.nodup_cons.mp distinct
  have inRest : ∀ passed next after, rest = passed ++ next :: after →
      event ∉ label ([first] ++ passed) next := by
    intro passed next after shape
    exact unshared _ next ⟨by simp, after, by rw [shape]; rfl⟩
  rcases transition_nested restDistinct inRest step with
    ⟨later, firstStep, rfl⟩ | ⟨actor, member, later, actorStep, rfl⟩
  · refine ⟨first, List.mem_cons_self, later, firstStep, ?_⟩
    rw [nested_update_of_not_mem fresh, Function.update_self]
  · have apart : first ≠ actor := by
      rintro rfl
      exact fresh member
    refine ⟨actor, List.mem_cons_of_mem first member, later, actorStep, ?_⟩
    rw [Function.update_of_ne apart]

end Alone

namespace Specification

variable {specification : Specification}

private theorem direction_eq (message : Message) :
    specification.direction message =
      if specification.representsWorld message.sender then .incoming else .outgoing := by
  unfold direction representsWorld actor entryAt
  cases specification.actors[message.sender.index]? with
  | none =>
      rfl
  | some found =>
      rfl

/-- Two messages have one event if they have the same direction and channel. -/
theorem eventOf_eq_iff {one other : Message} :
    specification.eventOf one = specification.eventOf other ↔
      specification.direction one = specification.direction other ∧
        one.topic.channel = other.topic.channel := by
  constructor
  · intro same
    have characters := congrArg String.toList same
    simp only [eventOf, Message.eventName, String.toList_append] at characters
    -- the last character tells the directions apart
    have last := congrArg List.getLast? characters
    have sameDirection : specification.direction one = specification.direction other := by
      revert last
      cases specification.direction one <;> cases specification.direction other <;>
        simp [Direction.text]
    rw [sameDirection, List.append_assoc, List.append_assoc] at characters
    exact ⟨sameDirection, String.toList_injective (List.append_cancel_right characters)⟩
  · rintro ⟨sameDirection, sameChannel⟩
    rw [eventOf, eventOf, Message.eventName, Message.eventName, sameDirection, sameChannel]

end Specification

/-- The message goes from one of the lifelines to another. -/
def Message.IsBetween (message : Message) (lifelines : List ActorId) : Prop :=
  message.sender ∈ lifelines ∧ message.receiver ∈ lifelines ∧ message.sender ≠ message.receiver

theorem Message.joins_eq_true_iff {message : Message} {before : List ActorId} {next : ActorId}
    (absent : next ∉ before) :
    message.joins before next = true ↔
      (message.sender ∈ before ∧ message.receiver = next) ∨
        (message.receiver ∈ before ∧ message.sender = next) := by
  rw [← @Specification.connects_link (.empty "") before next absent message]
  simp only [Link.connects, Specification.link, Bool.or_eq_true, Bool.and_eq_true,
    List.contains_iff_mem]
  exact or_congr (and_congr_right fun _ => decide_eq_true_iff)
    (and_congr_right fun _ => decide_eq_true_iff)

theorem IsStep.isBetween {lifelines before : List ActorId} {next : ActorId} {message : Message}
    (step : IsStep lifelines before next) (distinct : lifelines.Nodup)
    (across : message.joins before next = true) : message.IsBetween lifelines := by
  have absent := step.absent distinct
  obtain ⟨after, rfl⟩ := step.split
  rcases (Message.joins_eq_true_iff absent).mp across with ⟨earlier, here⟩ | ⟨earlier, here⟩
  · refine ⟨List.mem_append_left _ earlier, by simp [here], ?_⟩
    intro same
    exact absent (here ▸ same ▸ earlier)
  · refine ⟨by simp [here], List.mem_append_left _ earlier, ?_⟩
    intro same
    exact absent (here ▸ same ▸ earlier)

/-- A message between two lifelines goes across the step that joins the later one. -/
theorem Message.IsBetween.exists_step {lifelines : List ActorId} {message : Message}
    (between : message.IsBetween lifelines) (distinct : lifelines.Nodup) :
    ∃ before next, IsStep lifelines before next ∧ message.joins before next = true := by
  obtain ⟨isSender, isReceiver, apart⟩ := between
  obtain ⟨before, after, shape⟩ := List.append_of_mem isReceiver
  rw [shape] at isSender
  rcases List.mem_append.mp isSender with earlier | later
  · have step : IsStep lifelines before message.receiver :=
      ⟨List.ne_nil_of_mem earlier, after, shape⟩
    refine ⟨before, message.receiver, step, ?_⟩
    exact (joins_eq_true_iff (step.absent distinct)).mpr (Or.inl ⟨earlier, rfl⟩)
  · have inAfter := (List.mem_cons.mp later).resolve_left apart
    obtain ⟨middle, last, rfl⟩ := List.append_of_mem inAfter
    have step : IsStep lifelines (before ++ message.receiver :: middle) message.sender :=
      ⟨by simp, last, by rw [shape]; simp⟩
    refine ⟨_, message.sender, step, ?_⟩
    exact (joins_eq_true_iff (step.absent distinct)).mpr (Or.inr ⟨by simp, rfl⟩)

namespace Setting

variable {setting : Setting}

private theorem eventOf_notMem_handshakeChannels (message : Message) :
    setting.specification.eventOf message ∉ setting.handshakeChannels := by
  intro member
  obtain ⟨synchronisation, _, same⟩ := List.mem_map.mp member
  have plain : '.' ∉ synchronisation.kind.channel.toList := by
    cases synchronisation.kind <;> decide
  exact Specification.eventOf_ne plain message same.symm

/-- The event of a message is in the label of a step if it is not sent by the world, and
its channel is used across the step. -/
theorem eventOf_mem_stepEvents_iff {messages : List Message} {before : List ActorId}
    {next : ActorId} (distinct : setting.lifelines.Nodup)
    (inside : ∀ actor ∈ setting.lifelines,
      setting.specification.representsWorld actor = false)
    (step : IsStep setting.lifelines before next) (message : Message) :
    setting.specification.eventOf message ∈
        setting.stepEvents (messages.map setting.specification.link) before next ↔
      setting.specification.representsWorld message.sender = false ∧
        ∃ other ∈ messages, other.joins before next = true ∧
          other.topic.channel = message.topic.channel := by
  have shared : setting.specification.eventOf message ∈
      setting.stepEvents (messages.map setting.specification.link) before next ↔
        ∃ other ∈ messages, other.joins before next = true ∧
          setting.specification.eventOf other = setting.specification.eventOf message := by
    rw [← Specification.eventOf_mem_sharedEvents_iff (step.absent distinct)]
    exact List.mem_append.trans (or_iff_left (eventOf_notMem_handshakeChannels message))
  -- what goes across a step is sent by a lifeline, and so never comes from the world
  have outgoing : ∀ {other : Message}, other.joins before next = true →
      setting.specification.direction other = .outgoing := by
    intro other across
    rw [Specification.direction_eq, inside _ (step.isBetween distinct across).1]
    rfl
  rw [shared]
  cases fromWorld : setting.specification.representsWorld message.sender with
  | true =>
      refine iff_of_false ?_ (by simp)
      rintro ⟨other, _, across, same⟩
      have sameDirection := (Specification.eventOf_eq_iff.mp same).1
      rw [outgoing across, Specification.direction_eq, fromWorld] at sameDirection
      cases sameDirection
  | false =>
      have isOutgoing : setting.specification.direction message = .outgoing := by
        rw [Specification.direction_eq, fromWorld]
        rfl
      rw [eq_self, true_and]
      constructor
      · rintro ⟨other, member, across, same⟩
        exact ⟨other, member, across, (Specification.eventOf_eq_iff.mp same).2⟩
      · rintro ⟨other, member, across, same⟩
        refine ⟨other, member, across, Specification.eventOf_eq_iff.mpr ⟨?_, same⟩⟩
        rw [outgoing across, isOutgoing]

/-- The event of a message is in no label if it is sent by the world, or its channel is
not used between lifelines. -/
theorem forall_eventOf_notMem_stepEvents_iff {messages : List Message}
    (distinct : setting.lifelines.Nodup)
    (inside : ∀ actor ∈ setting.lifelines,
      setting.specification.representsWorld actor = false) (message : Message) :
    (∀ before next, IsStep setting.lifelines before next →
      setting.specification.eventOf message ∉
        setting.stepEvents (messages.map setting.specification.link) before next) ↔
      (setting.specification.representsWorld message.sender = true ∨
        ∀ other ∈ messages, other.IsBetween setting.lifelines →
          other.topic.channel ≠ message.topic.channel) := by
  constructor
  · intro unshared
    by_cases fromWorld : setting.specification.representsWorld message.sender = true
    · exact Or.inl fromWorld
    · refine Or.inr fun other member between same => ?_
      obtain ⟨before, next, step, across⟩ := between.exists_step distinct
      refine unshared before next step ?_
      rw [eventOf_mem_stepEvents_iff distinct inside step]
      exact ⟨by simpa using fromWorld, other, member, across, same⟩
  · intro separate before next step shared
    rw [eventOf_mem_stepEvents_iff distinct inside step] at shared
    obtain ⟨notFromWorld, other, member, across, same⟩ := shared
    rcases separate with fromWorld | channelsApart
    · rw [notFromWorld] at fromWorld
      cases fromWorld
    · exact channelsApart other member (step.isBetween distinct across) same

end Setting

namespace Specification

/-- An event is in the label of a step if its message is not sent by the world, and its
channel is used across the step.  So a message from the world is always performed by one
lifeline alone, and a message to the world if lifelines do not use its channel among
themselves. -/
theorem event_in_label_iff_channel_shared {specification : Specification} {id : InteractionId}
    {setting : Setting} (found : specification.setting id = .ok setting)
    (several : 2 ≤ setting.lifelines.length) (distinct : setting.lifelines.Nodup)
    (inside : ∀ actor ∈ setting.lifelines, specification.representsWorld actor = false)
    {composed : Behaviour} (done : setting.composition = .ok composed) :
    ∃ places first rest label,
      setting.interaction.toDiagram.Walk setting.interaction.body places ∧
      setting.lifelines = first :: rest ∧
      composed = setting.nestedComposition label first rest ∧
      ∀ message ∈ places.filterMap setting.interaction.messageAt,
        (∀ before next, IsStep setting.lifelines before next →
          (specification.eventOf message ∈ label before next ↔
            specification.representsWorld message.sender = false ∧
              ∃ other ∈ places.filterMap setting.interaction.messageAt,
                other.joins before next = true ∧
                  other.topic.channel = message.topic.channel)) ∧
        ((∀ before next, IsStep setting.lifelines before next →
            specification.eventOf message ∉ label before next) ↔
          (specification.representsWorld message.sender = true ∨
            ∀ other ∈ places.filterMap setting.interaction.messageAt,
              other.IsBetween setting.lifelines →
                other.topic.channel ≠ message.topic.channel)) ∧
        ((∀ before next, IsStep setting.lifelines before next →
            specification.eventOf message ∉ label before next) →
          PerformedAlone label first rest (specification.eventOf message)) := by
  obtain ⟨rfl, searched⟩ := searched_of_setting found
  obtain ⟨places, walk, _, listed⟩ := Setting.exists_walk searched
  obtain ⟨first, next, rest, shape⟩ := exists_cons_cons several
  have composedAs := ((Setting.composition_eq_ok_iff listed distinct shape).mp done).2
  refine ⟨places, first, next :: rest, _, walk, shape, composedAs, ?_⟩
  intro message _
  refine ⟨?_, ?_, ?_⟩
  · intro before joined step
    exact Setting.eventOf_mem_stepEvents_iff distinct inside step message
  · exact Setting.forall_eventOf_notMem_stepEvents_iff distinct inside message
  · intro unshared
    rw [shape] at distinct unshared
    exact performedAlone_of_unshared distinct unshared

end Specification

open Interaction.PlainExchange

def relaySetting : Setting :=
  .withoutMeetings relaySpecification ⟨0⟩ relay

/-- In the relay, what comes from the world is performed alone, though the components use
the same channel. -/
theorem performedAlone_relay :
    relaySpecification.setting ⟨0⟩ = .ok relaySetting ∧
      2 ≤ relaySetting.lifelines.length ∧ relaySetting.lifelines.Nodup ∧
      (∀ actor ∈ relaySetting.lifelines, relaySpecification.representsWorld actor = false) ∧
      ∃ composed label, relaySetting.composition = .ok composed ∧
        composed = relaySetting.nestedComposition label ⟨1⟩ [⟨2⟩, ⟨3⟩] ∧
        PerformedAlone label ⟨1⟩ [⟨2⟩, ⟨3⟩] "c.in" := by
  have found : relaySpecification.setting ⟨0⟩ = .ok relaySetting := rfl
  have inside : ∀ actor ∈ relaySetting.lifelines,
      relaySpecification.representsWorld actor = false := by decide
  obtain ⟨composed, done⟩ : ∃ composed, relaySetting.composition = .ok composed := ⟨_, rfl⟩
  obtain ⟨places, first, rest, label, walk, shape, composedAs, each⟩ :=
    Specification.event_in_label_iff_channel_shared found (by decide) (by decide) inside done
  have lifelines : [⟨1⟩, ⟨2⟩, ⟨3⟩] = first :: rest := shape
  cases lifelines
  have onWalk : (⟨0⟩ : FragmentId) ∈ places := walk.mem_iff.mpr ⟨⟨0⟩, by decide, .refl⟩
  have isMessage : relay.messageAt ⟨0⟩ = some (.signal ⟨0⟩ ⟨1⟩ "c") := by decide
  obtain ⟨_, absent, alone⟩ := each _ (List.mem_filterMap.mpr ⟨_, onWalk, isMessage⟩)
  exact ⟨found, by decide, by decide, inside, composed, label, done, composedAs,
    alone (absent.mpr (Or.inl (by decide)))⟩

/-- The label of the reports holds the event of the report to the world. -/
theorem event_in_label_reports :
    ∃ setting label message,
      reportsSpecification.setting ⟨0⟩ = .ok setting ∧
      2 ≤ setting.lifelines.length ∧ setting.lifelines.Nodup ∧
      (∀ actor ∈ setting.lifelines, reportsSpecification.representsWorld actor = false) ∧
      setting.composition = .ok (.synchronised (.named "Lifeline_A") (.productions label)
        (.named "Lifeline_B")) ∧
      setting.interaction.toDiagram.Visited false ⟨0⟩ ∧
      setting.interaction.messageAt ⟨0⟩ = some message ∧
      reportsSpecification.representsWorld message.receiver = true ∧
      reportsSpecification.eventOf message ∈ label := by
  refine ⟨.withoutMeetings reportsSpecification ⟨0⟩ reports, ["c.out", tock, finish],
    .signal ⟨1⟩ ⟨0⟩ "c", rfl, by decide, by decide, by decide, rfl, ?_, by decide, by decide,
    by decide⟩
  exact ⟨⟨0⟩, by decide, .refl⟩

end SequenceChart
