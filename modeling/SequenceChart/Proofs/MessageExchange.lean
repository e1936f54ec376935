import SequenceChart.InteractionModule
import SequenceChart.Proofs.NestedComposition
import SequenceChart.Proofs.ProjectionSuccess

/-!
# Interactions of plain messages

In the simplest interactions, the body is a list of messages without
arguments, each of which a lifeline exchanges with another one or with the
world.  This module works out the definitions that such an interaction is
turned into: every lifeline performs the messages that involve it in the order
of the body and then stays at `Finish`, and the lifelines are nested to the left
with one label a step.
-/

namespace SequenceChart

def Message.involves (message : Message) (actor : ActorId) : Bool :=
  message.sender = actor || message.receiver = actor

namespace Specification

variable (specification : Specification)

def direction (message : Message) : Direction :=
  if specification.actors[message.sender.index]?.any Actor.isWorld then
    .incoming
  else
    .outgoing

def eventOf (message : Message) : String :=
  message.eventName (specification.direction message)

def processName (actor : ActorId) : String :=
  "Lifeline_" ++ (specification.actors[actor.index]?.map Actor.name).getD ""

variable {specification}

theorem directionOf_eq {message : Message}
    (known : message.sender.index < specification.actors.size) :
    specification.directionOf message = .ok (specification.direction message) := by
  simp [directionOf, direction, actor, entryAt, known]

theorem lifelineName_eq {actor : ActorId}
    (known : actor.index < specification.actors.size) :
    specification.lifelineName actor = .ok (specification.processName actor) := by
  simp [lifelineName, processName, Specification.actor, entryAt, known]

end Specification

/-- The body of the interaction is a list of messages without arguments, and
each of them is exchanged between two lifelines or by a lifeline with the
world. -/
structure Interaction.PlainExchange (interaction : Interaction)
    (specification : Specification) (messages : List Message) : Prop where
  several : 2 ≤ interaction.lifelines.length
  distinct : interaction.lifelines.Nodup
  lifelinesKnown : ∀ actor ∈ interaction.lifelines,
    actor.index < specification.actors.size
  body : interaction.body.map (fun id => interaction.fragments[id.index]?) =
    messages.map fun message => some (.message message)
  plain : ∀ message ∈ messages, message.arguments = []
  ends : ∀ message ∈ messages, ∀ actor ∈ [message.sender, message.receiver],
    actor ∈ interaction.lifelines ∨
      specification.actors[actor.index]?.any Actor.isWorld = true
  exchanged : ∀ message ∈ messages,
    ∃ actor ∈ interaction.lifelines, message.involves actor = true

namespace Fragment

private theorem listMeetings_map_message (messages : List Message) :
    listMeetings (messages.map .message) = .ok [] := by
  induction messages with
  | nil =>
      rfl
  | cons message rest inductionHypothesis =>
      rw [List.map_cons, listMeetings, inductionHypothesis]
      rfl

private theorem listMessages_map_message (messages : List Message) :
    listMessages (messages.map .message) = .ok messages := by
  induction messages with
  | nil =>
      rfl
  | cons message rest inductionHypothesis =>
      rw [List.map_cons, listMessages, inductionHypothesis]
      rfl

end Fragment

theorem Diagram.fragment_eq_message {diagram : Diagram} {id : FragmentId}
    {message : Message} (found : diagram.fragments[id.index]? = some (.message message)) :
    diagram.fragment id = .message message := by
  rw [fragment, unfoldFragment, entryAt_eq_ok_iff.mpr found]

/-- The setting of an interaction in which lifelines never meet. -/
def Setting.withoutMeetings (specification : Specification) (id : InteractionId)
    (interaction : Interaction) : Setting where
  specification := specification
  id := id
  interaction := interaction
  meetings := []

namespace Interaction.PlainExchange

variable {interaction : Interaction} {specification : Specification}
variable {messages : List Message}

private theorem known_of_mem (exchange : interaction.PlainExchange specification messages)
    {message : Message} (member : message ∈ messages) {actor : ActorId}
    (isEnd : actor ∈ [message.sender, message.receiver]) :
    actor.index < specification.actors.size := by
  rcases exchange.ends message member actor isEnd with lifeline | world
  · exact exchange.lifelinesKnown actor lifeline
  · by_contra outside
    rw [Array.getElem?_eq_none (Nat.not_lt.mp outside)] at world
    cases world

private theorem bodyFragments_eq (exchange : interaction.PlainExchange specification messages) :
    interaction.bodyFragments = messages.map .message := by
  have followed : ∀ (ids : List FragmentId) (listed : List Message),
      ids.map (fun id => interaction.fragments[id.index]?) =
        listed.map (fun message => some (.message message)) →
      ids.map interaction.fragment = listed.map .message := by
    intro ids
    induction ids with
    | nil =>
        intro listed same
        cases listed with
        | nil =>
            rfl
        | cons message rest =>
            simp at same
    | cons id ids inductionHypothesis =>
        intro listed same
        cases listed with
        | nil =>
            simp at same
        | cons message rest =>
            simp only [List.map_cons, List.cons.injEq] at same ⊢
            exact ⟨Diagram.fragment_eq_message same.1, inductionHypothesis rest same.2⟩
  exact followed interaction.body messages exchange.body

theorem setting_eq (exchange : interaction.PlainExchange specification messages)
    {id : InteractionId} (found : specification.interaction id = .ok interaction) :
    specification.setting id = .ok (.withoutMeetings specification id interaction) := by
  rw [Specification.setting, found]
  change Except.bind (Fragment.listMeetings interaction.bodyFragments) _ = _
  rw [exchange.bodyFragments_eq, Fragment.listMeetings_map_message]
  rfl

end Interaction.PlainExchange

namespace Specification

variable (specification : Specification)

/-- What a lifeline does at a message without arguments. -/
def exchangeOf (message : Message) : Behaviour :=
  .idle (.perform (.message message (specification.direction message) []) .skip)

/-- What a lifeline does at the messages that involve it, up to its end. -/
def lifelineBody (messages : List Message) (actor : ActorId) : Behaviour :=
  match messages.filter fun message => message.involves actor with
  | [] => .finished
  | first :: rest =>
      .andThen (.sequence ((first :: rest).map specification.exchangeOf)) .finished

/-- The events of the messages that involve an actor, in order. -/
def eventsOf (messages : List Message) (actor : ActorId) : List String :=
  (messages.filter fun message => message.involves actor).map specification.eventOf

end Specification

private theorem filterMap_id_map_ite {α β : Type} (chosen : α → Bool) (value : α → β)
    (items : List α) :
    (items.map fun item => if chosen item then some (value item) else none).filterMap id =
      (items.filter chosen).map value := by
  induction items with
  | nil =>
      rfl
  | cons item rest inductionHypothesis =>
      by_cases isChosen : chosen item = true
      · simpa [isChosen] using inductionHypothesis
      · simpa [isChosen] using inductionHypothesis

namespace Setting

variable {setting : Setting} {message : Message}

private theorem messageEvent_eq_of_plain (plain : message.arguments = [])
    (senderKnown : message.sender.index < setting.specification.actors.size) :
    setting.messageEvent message =
      .ok (.message message (setting.specification.direction message) []) := by
  rw [messageEvent, plain]
  change Except.bind (setting.specification.directionOf message) _ = _
  rw [Specification.directionOf_eq senderKnown]
  rfl

private theorem result_projectMessage_of_plain (plain : message.arguments = [])
    (senderKnown : message.sender.index < setting.specification.actors.size)
    (receiverKnown : message.receiver.index < setting.specification.actors.size)
    (view : Viewpoint) :
    (setting.projectMessage view message).result =
      .ok (setting.specification.exchangeOf message) := by
  obtain ⟨storing, stored⟩ := view.exists_storesFor receiverKnown
  have noValues : message.values = [] := by
    simp [Message.values, plain]
  have noBindings : message.bindings = [] := by
    simp [Message.bindings, plain]
  rw [projectMessage]
  simp only [Attempt.result_bind, Attempt.result_liftM,
    messageEvent_eq_of_plain plain senderKnown, stored, noValues, noBindings]
  cases storing <;> rfl

end Setting

namespace Interaction.PlainExchange

variable {interaction : Interaction} {specification : Specification}
variable {messages : List Message} {id : InteractionId}

private theorem result_project (exchange : interaction.PlainExchange specification messages)
    {message : Message} (member : message ∈ messages) (actor : ActorId) :
    ((Fragment.message message).project (.withoutMeetings specification id interaction)
        (.lifeline actor)).result =
      .ok (if message.involves actor then some (specification.exchangeOf message)
        else none) := by
  have seen : ((Viewpoint.lifeline actor).isFor message.sender ||
      (Viewpoint.lifeline actor).isFor message.receiver) = message.involves actor := by
    simp [Viewpoint.isFor, Message.involves, eq_comm]
  rw [Fragment.project, seen]
  split
  · rw [Attempt.result_bind, Setting.result_projectMessage_of_plain
      (exchange.plain message member)
      (exchange.known_of_mem member (by simp)) (exchange.known_of_mem member (by simp))]
    rfl
  · rfl

/-- A lifeline sees the messages that involve it, in order. -/
private theorem result_projectSequence
    (exchange : interaction.PlainExchange specification messages) (actor : ActorId) :
    ((Setting.withoutMeetings specification id interaction).projectSequence
        (.lifeline actor)
        (Setting.withoutMeetings specification id interaction).body).result =
      .ok (match messages.filter fun message => message.involves actor with
        | [] => none
        | first :: rest =>
            some (.sequence ((first :: rest).map specification.exchangeOf))) := by
  have projected : (messages.map Fragment.message).mapM (fun fragment =>
      (fragment.project (.withoutMeetings specification id interaction)
        (.lifeline actor)).result) =
      .ok (messages.map fun message =>
        if message.involves actor then some (specification.exchangeOf message)
          else none) := by
    rw [List.mapM_map]
    exact mapM_eq_ok_map fun message isMessage => exchange.result_project isMessage actor
  have body : (Setting.withoutMeetings specification id interaction).body =
      messages.map Fragment.message :=
    exchange.bodyFragments_eq
  rw [body, Setting.projectSequence, inSequence, Fragment.inTurn_projections,
    Attempt.result_bind, Attempt.result_mapM, projected]
  change Except.ok _ = _
  rw [filterMap_id_map_ite]
  cases messages.filter fun message => message.involves actor <;> rfl

/-- The definition of a lifeline. -/
theorem result_lifelineDefinition
    (exchange : interaction.PlainExchange specification messages)
    {actor : ActorId} (member : actor ∈ interaction.lifelines) :
    ((Setting.withoutMeetings specification id interaction).lifelineDefinition
        actor).result =
      .ok (.process (specification.processName actor)
        (specification.lifelineBody messages actor)) := by
  have name : (Setting.withoutMeetings specification id
      interaction).specification.lifelineName actor = .ok (specification.processName actor) :=
    Specification.lifelineName_eq (exchange.lifelinesKnown actor member)
  rw [Setting.lifelineDefinition, Attempt.result_bind, exchange.result_projectSequence]
  change (liftM _ >>= _ : Attempt Declaration).result = _
  rw [Attempt.result_bind, Attempt.result_liftM, name]
  change Except.ok _ = _
  rw [Specification.lifelineBody]
  cases messages.filter fun message => message.involves actor <;> rfl

end Interaction.PlainExchange

/-! ## The composition -/

namespace Specification

variable (specification : Specification)

def link (message : Message) : Link :=
  ⟨message.sender, message.receiver, specification.eventOf message⟩

/-- What a lifeline shares with those before it: the events of the messages
between them, time, and termination. -/
def sharedEvents (messages : List Message) (before : List ActorId) (next : ActorId) :
    List String :=
  firstOccurrences (((messages.map specification.link).filter fun link =>
    link.connects before next).map Link.eventName) ++ [tock, finish]

def exchangeComposition (messages : List Message) (first : ActorId)
    (rest : List ActorId) : Behaviour :=
  nested (specification.sharedEvents messages)
    (fun actor => .named (specification.processName actor)) [first]
    (.named (specification.processName first)) rest

def exchangeDefinitions (messages : List Message) (first : ActorId)
    (rest : List ActorId) : List Declaration :=
  (first :: rest).map (fun actor =>
      .process (specification.processName actor)
        (specification.lifelineBody messages actor)) ++
    [.process Setting.lifelinesName
      (specification.exchangeComposition messages first rest)]

end Specification

namespace Setting

private theorem isRequired_withoutMeetings (specification : Specification) (id : InteractionId)
    (interaction : Interaction) (kind : HandshakeKind) :
    ((withoutMeetings specification id interaction).synchronisation kind).isRequired =
      false := by
  rw [synchronisation_eq]
  simp [Synchronisation.isRequired, Interaction.synchronisation, withoutMeetings]

private theorem stepEvents_withoutMeetings (specification : Specification) (id : InteractionId)
    (interaction : Interaction) (messages : List Message) :
    (withoutMeetings specification id interaction).stepEvents
        (messages.map specification.link) =
      specification.sharedEvents messages := by
  funext before next
  have noUntils : (withoutMeetings specification id interaction).untils.isRequired = false :=
    isRequired_withoutMeetings specification id interaction .until
  have noPars : (withoutMeetings specification id interaction).pars.isRequired = false :=
    isRequired_withoutMeetings specification id interaction .par
  simp [stepEvents, Specification.sharedEvents, handshakeChannels, noUntils, noPars]

end Setting

namespace Interaction.PlainExchange

variable {interaction : Interaction} {specification : Specification}
variable {messages : List Message} {id : InteractionId}

private theorem links_eq (exchange : interaction.PlainExchange specification messages) :
    (Setting.withoutMeetings specification id interaction).links =
      .ok (messages.map specification.link) := by
  have body : (Setting.withoutMeetings specification id interaction).body =
      messages.map Fragment.message :=
    exchange.bodyFragments_eq
  rw [Setting.links, body, Fragment.listMessages_map_message]
  apply mapM_eq_ok_map
  intro message member
  change Except.bind (specification.directionOf message) _ = _
  rw [Specification.directionOf_eq
    (exchange.known_of_mem member (by simp))]
  rfl

private theorem composition_eq (exchange : interaction.PlainExchange specification messages)
    {first : ActorId} {rest : List ActorId}
    (shape : interaction.lifelines = first :: rest) :
    (Setting.withoutMeetings specification id interaction).composition =
      .ok (specification.exchangeComposition messages first rest) := by
  have noUntils : (Setting.withoutMeetings specification id
      interaction).untils.isRequired = false :=
    Setting.isRequired_withoutMeetings specification id interaction .until
  rw [Setting.composition_eq exchange.links_eq
    (fun actor member => Specification.lifelineName_eq (exchange.lifelinesKnown actor member))
    exchange.distinct shape, Setting.untilSteps, noUntils, Setting.stepEvents_withoutMeetings]
  simp only [Bool.false_eq_true, if_false, List.append_nil]
  rw [compose_stepsBehind]
  rfl

/-- The definitions that a plain exchange is turned into. -/
theorem result_lifelineDefinitions
    (exchange : interaction.PlainExchange specification messages)
    {first : ActorId} {rest : List ActorId}
    (shape : interaction.lifelines = first :: rest) :
    (Setting.withoutMeetings specification id interaction).lifelineDefinitions.result =
      .ok (specification.exchangeDefinitions messages first rest) := by
  have notSequential :
      (Setting.withoutMeetings specification id interaction).isSequential = false := by
    have several := exchange.several
    exact decide_eq_false (Nat.not_le.mpr several)
  have lifelines :
      (interaction.lifelines.mapM fun actor =>
        ((Setting.withoutMeetings specification id interaction).lifelineDefinition
          actor).result) =
        .ok (interaction.lifelines.map fun actor =>
          .process (specification.processName actor)
            (specification.lifelineBody messages actor)) :=
    mapM_eq_ok_map fun actor member => exchange.result_lifelineDefinition member
  have noUntils : (Setting.withoutMeetings specification id
      interaction).untils.isRequired = false :=
    Setting.isRequired_withoutMeetings specification id interaction .until
  rw [Setting.lifelineDefinitions, notSequential]
  simp only [Bool.false_eq_true, if_false, Attempt.result_bind, Attempt.result_mapM]
  change (interaction.lifelines.mapM _ >>= _) = _
  rw [lifelines, Setting.untilProcess, noUntils]
  change ((Setting.withoutMeetings specification id interaction).composition >>= _) = _
  rw [exchange.composition_eq shape, Specification.exchangeDefinitions, ← shape]
  change Except.ok (_ ++ [] ++ _) = _
  rw [List.append_nil]

end Interaction.PlainExchange

/-- The body of a definition of the given name, if it is one without
parameters. -/
def Declaration.bodyNamed (name : String) : Declaration → Option Behaviour
  | .definition ⟨defined, [], false, body⟩ => if defined = name then some body else none
  | _ => none

def processNamed (declarations : List Declaration) (name : String) : Option Behaviour :=
  declarations.findSome? (Declaration.bodyNamed name)

def Specification.ActorsNamedApart (specification : Specification) : Prop :=
  (specification.actors.toList.map Actor.name).Nodup

instance (specification : Specification) : Decidable specification.ActorsNamedApart :=
  inferInstanceAs (Decidable (List.Nodup _))

namespace Specification

variable {specification : Specification} {messages : List Message}

private theorem processName_injective (apart : specification.ActorsNamedApart)
    {one other : ActorId}
    (oneKnown : one.index < specification.actors.size)
    (otherKnown : other.index < specification.actors.size)
    (same : specification.processName one = specification.processName other) :
    one = other := by
  have nameEq : specification.actors[one.index].name =
      specification.actors[other.index].name := by
    have characters := congrArg String.toList same
    simpa [processName, oneKnown, otherKnown, String.toList_inj] using characters
  have indexEq : one.index = other.index := by
    have names : (specification.actors.toList.map Actor.name).length =
        specification.actors.size := by
      simp
    exact (@List.Nodup.getElem_inj_iff _ _ apart _ (names ▸ oneKnown) _
      (names ▸ otherKnown)).mp (by simpa using nameEq)
  cases one
  cases other
  exact congrArg TableId.mk indexEq

private theorem processName_ne_lifelinesName (actor : ActorId) :
    specification.processName actor ≠ Setting.lifelinesName := by
  intro same
  have characters := congrArg String.toList same
  simp [processName, Setting.lifelinesName] at characters

private theorem processName_ne_finish (actor : ActorId) :
    specification.processName actor ≠ "Finish" := by
  intro same
  have characters := congrArg String.toList same
  simp [processName] at characters

@[simp]
theorem text_message_nil (message : Message) (direction : Direction) :
    (Event.message message direction []).text = message.eventName direction := by
  simp [Event.text, concatenate, appendAll]

/-- Messages in sequence perform their events in order. -/
theorem scripted_sequence (first : Message) (rest : List Message) :
    Scripted (.sequence ((first :: rest).map specification.exchangeOf))
      ((first :: rest).map specification.eventOf) := by
  have single : ∀ message, Scripted (specification.exchangeOf message)
      [specification.eventOf message] := by
    intro message
    have performed := Scripted.perform
      (.message message (specification.direction message) []) Scripted.skip
    rw [text_message_nil] at performed
    exact performed.idle
  induction rest generalizing first with
  | nil =>
      exact single first
  | cons next rest inductionHypothesis =>
      exact (single first).andThen (inductionHypothesis next)

/-- A lifeline performs the events of its messages and then stays at `Finish`. -/
theorem awaits_lifelineBody (defined : String → Option Behaviour) (messages : List Message)
    (actor : ActorId) :
    Awaits defined (specification.lifelineBody messages actor)
      (specification.eventsOf messages actor) := by
  rw [lifelineBody, eventsOf]
  cases messages.filter fun message => message.involves actor with
  | nil =>
      exact .finished
  | cons first rest =>
      rw [← List.append_nil ((first :: rest).map specification.eventOf)]
      exact .andThen (scripted_sequence first rest) .finished

private theorem bodyNamed_process (name other : String) (body : Behaviour) :
    (Declaration.process other body).bodyNamed name = if other = name then some body else none :=
  rfl

variable {first : ActorId} {rest : List ActorId}

/-- Nothing goes by a name that neither a lifeline nor the composition has. -/
theorem processNamed_eq_none {name : String}
    (noLifeline : ∀ actor, specification.processName actor ≠ name)
    (notComposed : Setting.lifelinesName ≠ name) :
    processNamed (specification.exchangeDefinitions messages first rest) name = none := by
  rw [processNamed, List.findSome?_eq_none_iff]
  intro declaration member
  rw [exchangeDefinitions, List.mem_append, List.mem_map, List.mem_singleton] at member
  rcases member with ⟨actor, _, rfl⟩ | rfl
  · rw [bodyNamed_process, if_neg (noLifeline actor)]
  · rw [bodyNamed_process, if_neg notComposed]

theorem processNamed_finish :
    processNamed (specification.exchangeDefinitions messages first rest) "Finish" = none :=
  processNamed_eq_none processName_ne_finish (by decide)

theorem processNamed_lifelines :
    processNamed (specification.exchangeDefinitions messages first rest)
        Setting.lifelinesName =
      some (specification.exchangeComposition messages first rest) := by
  have noLifeline : ((first :: rest).map fun actor =>
      Declaration.process (specification.processName actor)
        (specification.lifelineBody messages actor)).findSome?
          (Declaration.bodyNamed Setting.lifelinesName) = none := by
    rw [List.findSome?_eq_none_iff]
    intro declaration member
    obtain ⟨actor, _, rfl⟩ := List.mem_map.mp member
    rw [bodyNamed_process, if_neg (processName_ne_lifelinesName actor)]
  rw [processNamed, exchangeDefinitions, List.findSome?_append, noLifeline]
  rfl

theorem processNamed_lifeline (apart : specification.ActorsNamedApart)
    (known : ∀ actor ∈ first :: rest, actor.index < specification.actors.size)
    {actor : ActorId} (member : actor ∈ first :: rest) :
    processNamed (specification.exchangeDefinitions messages first rest)
        (specification.processName actor) =
      some (specification.lifelineBody messages actor) := by
  have found : ∀ actors : List ActorId, actor ∈ actors → (∀ other ∈ actors,
      other.index < specification.actors.size) →
      (actors.map fun other => Declaration.process (specification.processName other)
        (specification.lifelineBody messages other)).findSome?
          (Declaration.bodyNamed (specification.processName actor)) =
        some (specification.lifelineBody messages actor) := by
    intro actors
    induction actors with
    | nil =>
        intro absent
        simp at absent
    | cons head tail inductionHypothesis =>
        intro present actorsKnown
        rw [List.map_cons, List.findSome?_cons, bodyNamed_process]
        by_cases same : specification.processName head = specification.processName actor
        · have equal := processName_injective apart
            (actorsKnown head List.mem_cons_self) (actorsKnown actor present) same
          rw [if_pos same, equal]
        · rw [if_neg same]
          have later : actor ∈ tail := by
            rcases List.mem_cons.mp present with rfl | later
            · exact absurd rfl same
            · exact later
          exact inductionHypothesis later fun other isOther =>
            actorsKnown other (List.mem_cons_of_mem head isOther)
  rw [processNamed, exchangeDefinitions, List.findSome?_append, found _ member known]
  rfl

end Specification

end SequenceChart
