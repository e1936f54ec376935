import SequenceChart.Proofs.ExchangeTraces
import SequenceChart.Proofs.Landmarks
import SequenceChart.Proofs.Walks

/-!
# Labels of the composition

The lifelines of an interaction are joined one after the other in their order.
What a lifeline shares with those before it is read off the walk through the
body: the events of the messages between them, each once and in the order in
which they are first come by, then time, the common end and the handshakes that
are in use.  The process that runs until bodies is joined last, if there is one.

The composition is written whenever the lifelines and the senders of the
messages exist, and only then.
-/

namespace SequenceChart

/-- `ListsFirst items listed` means that `listed` holds the items of `items`, each once
and in the order of their first places. -/
structure ListsFirst {α : Type} [DecidableEq α] (items listed : List α) : Prop where
  distinct : listed.Nodup
  mem_iff : ∀ item, item ∈ listed ↔ item ∈ items
  ordered : listed.Pairwise fun one other => items.idxOf one < items.idxOf other

private theorem pairwise_unseenOccurrences {α : Type} [DecidableEq α] (seen items : List α) :
    (unseenOccurrences seen items).Pairwise fun one other =>
      items.idxOf one < items.idxOf other := by
  induction items generalizing seen with
  | nil =>
      exact .nil
  | cons head rest inductionHypothesis =>
      have apart : ∀ {passed item}, head ∈ passed → item ∈ unseenOccurrences passed rest →
          head ≠ item := by
        rintro passed item isPassed listed rfl
        exact (mem_unseenOccurrences.mp listed).2 isPassed
      -- what is listed behind the head is found one place later than in the rest
      have later : ∀ passed, head ∈ passed → (unseenOccurrences passed rest).Pairwise
          fun one other => (head :: rest).idxOf one < (head :: rest).idxOf other := by
        intro passed isPassed
        refine (inductionHypothesis passed).imp_of_mem ?_
        intro one other oneListed otherListed earlier
        rw [List.idxOf_cons_ne _ (apart isPassed oneListed),
          List.idxOf_cons_ne _ (apart isPassed otherListed)]
        omega
      rw [unseenOccurrences]
      by_cases known : head ∈ seen
      · rw [if_pos known]
        exact later seen known
      · rw [if_neg known, List.pairwise_cons]
        refine ⟨?_, later _ List.mem_cons_self⟩
        intro other listed
        rw [List.idxOf_cons_self, List.idxOf_cons_ne _ (apart List.mem_cons_self listed)]
        omega

private theorem listsFirst_firstOccurrences {α : Type} [DecidableEq α] (items : List α) :
    ListsFirst items (firstOccurrences items) where
  distinct := by
    refine (pairwise_unseenOccurrences [] items).imp ?_
    rintro one other earlier rfl
    exact Nat.lt_irrefl _ earlier
  mem_iff := fun _ => mem_firstOccurrences
  ordered := pairwise_unseenOccurrences [] items

/-- A step of the composition joins `next` to the lifelines before it. -/
structure IsStep (lifelines before : List ActorId) (next : ActorId) : Prop where
  started : before ≠ []
  split : ∃ after, lifelines = before ++ next :: after

theorem IsStep.absent {lifelines before : List ActorId} {next : ActorId}
    (step : IsStep lifelines before next) (distinct : lifelines.Nodup) : next ∉ before := by
  obtain ⟨after, shape⟩ := step.split
  exact not_mem_of_nodup distinct shape

namespace Setting

variable (setting : Setting)

/-- The composition of the lifelines, and what is joined to it last. -/
def withUntilProcess (lifelines : Behaviour) : Behaviour :=
  if setting.untils.isRequired then
    .synchronised (.grouped lifelines)
      (.productions [HandshakeKind.until.channel, finish]) (.named untilProcessName)
  else
    lifelines

variable {setting}

private theorem compose_steps (label : List ActorId → ActorId → List String)
    (process : ActorId → Behaviour) (left : Behaviour) (first next : ActorId)
    (rest : List ActorId) :
    Behaviour.compose left
        (stepsBehind label process [first] (next :: rest) ++ setting.untilSteps) =
      setting.withUntilProcess (nested label process [first] left (next :: rest)) := by
  rw [← compose_stepsBehind]
  unfold untilSteps withUntilProcess
  split
  · exact List.foldl_append
  · rw [List.append_nil]

/-- With distinct lifelines, a label names the messages that go across its step. -/
theorem stepEvents_eq {messages : List Message} {before : List ActorId} {next : ActorId}
    (absent : next ∉ before) :
    setting.stepEvents (messages.map setting.specification.link) before next =
      firstOccurrences ((messages.filter fun message => message.joins before next).map
        setting.specification.eventOf) ++ [tock, finish] ++ setting.handshakeChannels := by
  have across : ((messages.map setting.specification.link).filter fun link =>
      link.connects before next).map Link.eventName =
        (messages.filter fun message => message.joins before next).map
          setting.specification.eventOf := by
    rw [List.filter_map, List.map_map]
    have same : (fun link : Link => link.connects before next) ∘ setting.specification.link =
        fun message => message.joins before next :=
      funext (Specification.connects_link absent)
    rw [same]
    rfl
  rw [stepEvents, across]

end Setting

theorem Specification.known_of_actor {specification : Specification} {id : ActorId}
    {found : Actor} (done : specification.actor id = .ok found) :
    id.index < specification.actors.size :=
  (Array.getElem?_eq_some_iff.mp (entryAt_eq_ok_iff.mp done)).1

/-- All items of a composition have a process. -/
theorem Behaviour.exists_name_of_parallel {α : Type} {name : α → Except Fault Behaviour}
    {label : α → List α → Except Fault EventSet} {items : List α} {composed : Behaviour}
    (done : Behaviour.parallel name label items = .ok composed) :
    ∀ item ∈ items, ∃ process, name item = .ok process := by
  have ofSteps : ∀ {rest : List α} {current : α} {steps : List (EventSet × Behaviour)},
      Behaviour.parallelSteps name label (current :: rest) = .ok steps →
      ∀ item ∈ rest, ∃ process, name item = .ok process := by
    intro rest
    induction rest with
    | nil =>
        intro _ _ _ item member
        cases member
    | cons next rest inductionHypothesis =>
        intro current steps stepsDone item member
        obtain ⟨_, _, others⟩ := bind_eq_ok_iff.mp stepsDone
        obtain ⟨process, named, more⟩ := bind_eq_ok_iff.mp others
        obtain ⟨_, laterDone, _⟩ := bind_eq_ok_iff.mp more
        rcases List.mem_cons.mp member with rfl | later
        · exact ⟨process, named⟩
        · exact inductionHypothesis laterDone item later
  cases items with
  | nil =>
      cases done
  | cons first rest =>
      obtain ⟨start, named, others⟩ := bind_eq_ok_iff.mp done
      obtain ⟨_, stepsDone, _⟩ := bind_eq_ok_iff.mp others
      intro item member
      rcases List.mem_cons.mp member with rfl | later
      · exact ⟨start, named⟩
      · exact ofSteps stepsDone item later

namespace Setting

variable {setting : Setting}

/-- Messages have links exactly if their senders exist. -/
theorem links_eq_ok_iff {messages : List Message} {links : List Link}
    (listed : Fragment.listMessages setting.body = .ok messages) :
    setting.links = .ok links ↔
      (∀ message ∈ messages,
        message.sender.index < setting.specification.actors.size) ∧
      links = messages.map setting.specification.link := by
  have linked : (∀ message ∈ messages,
        message.sender.index < setting.specification.actors.size) →
      messages.mapM setting.specification.linkOf =
        .ok (messages.map setting.specification.link) := by
    intro known
    apply mapM_eq_ok_map
    intro message member
    change Except.bind (setting.specification.directionOf message) _ = _
    rw [Specification.directionOf_eq (known message member)]
    rfl
  rw [Setting.links, listed]
  change messages.mapM setting.specification.linkOf = .ok links ↔ _
  constructor
  · intro done
    have known : ∀ message ∈ messages,
        message.sender.index < setting.specification.actors.size := by
      intro message member
      obtain ⟨_, _, linkDone⟩ := exists_right_of_mem (mapM_eq_ok_iff.mp done) member
      obtain ⟨_, directionDone, _⟩ := bind_eq_ok_iff.mp linkDone
      obtain ⟨_, senderDone, _⟩ := bind_eq_ok_iff.mp directionDone
      exact Specification.known_of_actor senderDone
    rw [linked known] at done
    cases done
    exact ⟨known, rfl⟩
  · rintro ⟨known, rfl⟩
    exact linked known

variable (setting) in
/-- The lifelines exist, and so do the senders of the messages. -/
structure PartiesExist (messages : List Message) : Prop where
  lifelines : ∀ actor ∈ setting.lifelines, actor.index < setting.specification.actors.size
  senders : ∀ message ∈ messages, message.sender.index < setting.specification.actors.size

variable (setting) in
/-- The lifelines nested to the left in their order, and the until process. -/
def nestedComposition (label : List ActorId → ActorId → List String) (first : ActorId)
    (rest : List ActorId) : Behaviour :=
  setting.withUntilProcess
    (nested label (fun actor => .named (setting.specification.processName actor)) [first]
      (.named (setting.specification.processName first)) rest)

/-- The composition of two or more distinct lifelines. -/
theorem composition_eq_ok_iff {messages : List Message} {first next : ActorId}
    {rest : List ActorId} {composed : Behaviour}
    (listed : Fragment.listMessages setting.body = .ok messages)
    (distinct : setting.lifelines.Nodup)
    (shape : setting.lifelines = first :: next :: rest) :
    setting.composition = .ok composed ↔
      setting.PartiesExist messages ∧
      composed = setting.nestedComposition
        (setting.stepEvents (messages.map setting.specification.link)) first (next :: rest) := by
  have written : setting.PartiesExist messages → setting.composition = .ok
      (setting.nestedComposition (setting.stepEvents (messages.map setting.specification.link))
        first (next :: rest)) := by
    intro exist
    rw [composition_eq ((links_eq_ok_iff listed).mpr ⟨exist.senders, rfl⟩)
      (fun actor member => Specification.lifelineName_eq (exist.lifelines actor member))
      distinct shape, compose_steps]
    rfl
  constructor
  · intro done
    obtain ⟨links, linksDone, parallelDone⟩ := bind_eq_ok_iff.mp done
    have exist : setting.PartiesExist messages := by
      refine ⟨?_, ((links_eq_ok_iff listed).mp linksDone).1⟩
      intro actor member
      have takesPart : .lifeline actor ∈ setting.participants :=
        List.mem_append_left _ (List.mem_map_of_mem member)
      obtain ⟨_, processDone⟩ := Behaviour.exists_name_of_parallel parallelDone _ takesPart
      obtain ⟨_, nameDone, _⟩ := bind_eq_ok_iff.mp processDone
      obtain ⟨_, actorDone, _⟩ := bind_eq_ok_iff.mp nameDone
      exact Specification.known_of_actor actorDone
    rw [written exist] at done
    cases done
    exact ⟨exist, rfl⟩
  · rintro ⟨exist, rfl⟩
    exact written exist

end Setting

theorem exists_cons_cons {lifelines : List ActorId} (several : 2 ≤ lifelines.length) :
    ∃ first next rest, lifelines = first :: next :: rest := by
  match lifelines, several with
  | first :: next :: rest, _ =>
      exact ⟨first, next, rest, rfl⟩

namespace Specification

/-- The composition nests the lifelines in their order.  Each label names the messages
across its step, and the until process comes last. -/
theorem composition_nests_lifelines {specification : Specification} {id : InteractionId}
    {setting : Setting} (found : specification.setting id = .ok setting)
    (several : 2 ≤ setting.lifelines.length) (distinct : setting.lifelines.Nodup) :
    ∃ places first rest,
      setting.interaction.toDiagram.Walk setting.interaction.body places ∧
      setting.lifelines = first :: rest ∧
      ((∃ composed, setting.composition = .ok composed) ↔
        setting.PartiesExist (places.filterMap setting.interaction.messageAt)) ∧
      ∀ composed, setting.composition = .ok composed →
        ∃ label, composed = setting.nestedComposition label first rest ∧
          ∀ before next, IsStep setting.lifelines before next →
            ∃ events, label before next =
                events ++ [tock, finish] ++ setting.handshakeChannels ∧
              ListsFirst
                (((places.filterMap setting.interaction.messageAt).filter fun message =>
                  message.joins before next).map specification.eventOf) events := by
  obtain ⟨rfl, searched⟩ := searched_of_setting found
  obtain ⟨places, walk, _, listed⟩ := Setting.exists_walk searched
  obtain ⟨first, next, rest, shape⟩ := exists_cons_cons several
  refine ⟨places, first, next :: rest, walk, shape, ?_, ?_⟩
  · constructor
    · rintro ⟨composed, done⟩
      exact ((Setting.composition_eq_ok_iff listed distinct shape).mp done).1
    · intro exist
      exact ⟨_, (Setting.composition_eq_ok_iff listed distinct shape).mpr ⟨exist, rfl⟩⟩
  · intro composed done
    refine ⟨_, ((Setting.composition_eq_ok_iff listed distinct shape).mp done).2, ?_⟩
    intro before joined step
    exact ⟨_, Setting.stepEvents_eq (step.absent distinct), listsFirst_firstOccurrences _⟩

end Specification

def errandSetting : Setting where
  specification := errandSpecification
  id := ⟨0⟩
  interaction := errand
  meetings := [⟨.until, ⟨5⟩⟩]

/-- Two gifts are one event of the first label.  The gift in the until body and the
report to the world are in none. -/
theorem composition_nests_lifelines_errand :
    errandSpecification.setting ⟨0⟩ = .ok errandSetting ∧
      2 ≤ errandSetting.lifelines.length ∧ errandSetting.lifelines.Nodup ∧
      errandSetting.composition.map Behaviour.text = .ok
        ("((Lifeline_A [| \x7b| give.out, tock, finish, until |\x7d |] Lifeline_B) " ++
          "[| \x7b| pass.out, tock, finish, until |\x7d |] Lifeline_C) " ++
          "[| \x7b| until, finish |\x7d |] UntilSync") ∧
      ∃ composed places label events,
        errandSetting.composition = .ok composed ∧
        errand.toDiagram.Walk errand.body places ∧
        composed = errandSetting.nestedComposition label ⟨0⟩ [⟨1⟩, ⟨2⟩] ∧
        label [⟨0⟩, ⟨1⟩] ⟨2⟩ = events ++ [tock, finish] ++ errandSetting.handshakeChannels ∧
        ListsFirst (((places.filterMap errand.messageAt).filter fun message =>
          message.joins [⟨0⟩, ⟨1⟩] ⟨2⟩).map errandSpecification.eventOf) events := by
  have found : errandSpecification.setting ⟨0⟩ = .ok errandSetting := rfl
  obtain ⟨composed, done⟩ : ∃ composed, errandSetting.composition = .ok composed := ⟨_, rfl⟩
  obtain ⟨places, first, rest, walk, shape, _, described⟩ :=
    Specification.composition_nests_lifelines found (by decide) (by decide)
  have lifelines : [⟨0⟩, ⟨1⟩, ⟨2⟩] = first :: rest := shape
  cases lifelines
  obtain ⟨label, nested, labels⟩ := described composed done
  obtain ⟨events, written, listed⟩ := labels [⟨0⟩, ⟨1⟩] ⟨2⟩ ⟨by decide, [], rfl⟩
  exact ⟨found, by decide, by decide, by decide +kernel, composed, places, label, events, done,
    walk, nested, written, listed⟩

end SequenceChart
