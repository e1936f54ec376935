import SequenceChart.Proofs.MessageExchange

/-!
# Words of plain exchanges

The words that the lifelines of a plain exchange perform together.  If messages
with the same event have the same ends, these are the words that agree with the
order of the body at every lifeline.  In general not even the body itself need
be such a word: an event names a channel and a direction only, so a label that
joins a lifeline to the ones before it also holds the events of other messages
on the same channel, which one side has to perform alone.  The body is
performed exactly if this happens at no step.
-/

namespace SequenceChart

/-- The message goes between a lifeline and one of those before it. -/
def Message.joins (message : Message) (before : List ActorId) (next : ActorId) : Bool :=
  before.any message.involves && message.involves next

def Message.SameEnds (one other : Message) : Prop :=
  (one.sender = other.sender ∧ one.receiver = other.receiver) ∨
    (one.sender = other.receiver ∧ one.receiver = other.sender)

instance (one other : Message) : Decidable (one.SameEnds other) :=
  inferInstanceAs (Decidable (_ ∨ _))

theorem Message.SameEnds.involves_eq {one other : Message} (same : one.SameEnds other) :
    one.involves = other.involves := by
  funext actor
  rcases same with ⟨senders, receivers⟩ | ⟨crossed, crossedBack⟩
  · rw [involves, involves, senders, receivers]
  · rw [involves, involves, crossed, crossedBack, Bool.or_comm]

/-- A message that reaches the step, and shares its event with a message across
the step, goes across it too. -/
def Specification.StepSeparates (specification : Specification) (messages : List Message)
    (before : List ActorId) (next : ActorId) : Prop :=
  ∀ message ∈ messages, ∀ other ∈ messages,
    specification.eventOf message = specification.eventOf other →
    message.joins before next = true →
    (before ++ [next]).any other.involves = true →
    other.joins before next = true

instance (specification : Specification) (messages : List Message) (before : List ActorId)
    (next : ActorId) : Decidable (specification.StepSeparates messages before next) :=
  inferInstanceAs (Decidable (∀ message ∈ messages, ∀ other ∈ messages, _ → _ → _ → _))

/-- Every step of the composition separates the messages across it from all
others that reach it. -/
def Specification.StepsSeparate (specification : Specification) (messages : List Message)
    (lifelines : List ActorId) : Prop :=
  ∀ before next after, lifelines = before ++ next :: after →
    specification.StepSeparates messages before next

instance (specification : Specification) (messages : List Message)
    (lifelines : List ActorId) :
    Decidable (specification.StepsSeparate messages lifelines) :=
  decidable_of_iff
    (∀ place : Fin lifelines.length,
      specification.StepSeparates messages (lifelines.take place) (lifelines.get place)) <| by
    constructor
    · rintro each before next after rfl
      simpa using each ⟨before.length, by simp⟩
    · intro separate place
      apply separate _ _ (lifelines.drop (place + 1))
      simp

namespace Specification

variable {specification : Specification} {messages : List Message}

theorem connects_link {before : List ActorId} {next : ActorId} (absent : next ∉ before)
    (message : Message) :
    (specification.link message).connects before next = message.joins before next := by
  have apart : ∀ actor ∈ before, actor ≠ next := by
    rintro actor earlier rfl
    exact absent earlier
  rw [Bool.eq_iff_iff]
  simp only [Link.connects, link, Message.joins, Message.involves, Bool.or_eq_true,
    Bool.and_eq_true, List.contains_iff_mem, List.any_eq_true, decide_eq_true_eq]
  constructor
  · rintro (⟨earlier, here⟩ | ⟨earlier, here⟩)
    · exact ⟨⟨_, earlier, Or.inl rfl⟩, Or.inr (of_decide_eq_true here)⟩
    · exact ⟨⟨_, earlier, Or.inr rfl⟩, Or.inl (of_decide_eq_true here)⟩
  · rintro ⟨⟨actor, earlier, rfl | rfl⟩, here | here⟩
    · exact absurd here (apart _ earlier)
    · exact Or.inl ⟨earlier, decide_eq_true here⟩
    · exact Or.inr ⟨earlier, decide_eq_true here⟩
    · exact absurd here (apart _ earlier)

/-- Message events hold a dot, unlike time and termination. -/
theorem eventOf_ne {text : String} (plain : '.' ∉ text.toList) (message : Message) :
    specification.eventOf message ≠ text := by
  rintro rfl
  apply plain
  simp [eventOf, Message.eventName]

theorem eventOf_mem_sharedEvents_iff {before : List ActorId} {next : ActorId}
    (absent : next ∉ before) (message : Message) :
    specification.eventOf message ∈ specification.sharedEvents messages before next ↔
      ∃ other ∈ messages, other.joins before next = true ∧
        specification.eventOf other = specification.eventOf message := by
  have notTock : specification.eventOf message ≠ tock := eventOf_ne (by decide) message
  have notFinish : specification.eventOf message ≠ finish := eventOf_ne (by decide) message
  simp only [sharedEvents, List.mem_append, mem_firstOccurrences, List.mem_map,
    List.mem_filter, List.mem_cons, List.not_mem_nil, or_false, notTock, notFinish]
  constructor
  · rintro ⟨_, ⟨⟨other, member, rfl⟩, connected⟩, same⟩
    exact ⟨other, member, connects_link absent other ▸ connected, same⟩
  · rintro ⟨other, member, joined, same⟩
    exact ⟨_, ⟨⟨other, member, rfl⟩, (connects_link absent other).trans joined⟩, same⟩

variable {first : ActorId} {rest : List ActorId}

theorem awaits_lifeline (messages : List Message) (apart : specification.ActorsNamedApart)
    (known : ∀ actor ∈ first :: rest, actor.index < specification.actors.size)
    {actor : ActorId} (member : actor ∈ first :: rest) :
    Awaits (processNamed (specification.exchangeDefinitions messages first rest))
      (.named (specification.processName actor)) (specification.eventsOf messages actor) :=
  .named (processNamed_lifeline apart known member) (awaits_lifelineBody _ messages actor)

private theorem tally_eq_count_eventsOf (actor : ActorId) (tested : String) :
    tally specification.eventOf (fun actor message => message.involves actor) messages
        [actor] tested =
      (specification.eventsOf messages actor).count tested := by
  rw [tally, eventsOf, List.count_eq_countP, List.countP_map, List.countP_filter]
  apply List.countP_congr
  intro message _
  simp [and_comm]

end Specification

/-- Every lifeline of the composition stands at `Finish`. -/
def Behaviour.AllFinished : Behaviour → Prop
  | .synchronised left _ right => left.AllFinished ∧ right.AllFinished
  | .grouped body => body.AllFinished
  | process => process = .finished

private theorem allFinished_nested {label : List ActorId → ActorId → List String}
    (before rest : List ActorId) {left : Behaviour} (finished : left.AllFinished) :
    (nested label (fun _ => .finished) before left rest).AllFinished := by
  induction rest generalizing before left with
  | nil =>
      exact finished
  | cons next rest inductionHypothesis =>
      apply inductionHypothesis
      refine ⟨?_, rfl⟩
      rw [leftSide]
      split
      · exact finished
      · exact finished

namespace Specification

variable {specification : Specification} {messages : List Message}
variable {first : ActorId} {rest : List ActorId} {defined : String → Option Behaviour}

/-- If the steps are separate, the lifelines perform the body. -/
theorem isTrace_body (distinct : (first :: rest).Nodup)
    (awaits : ∀ actor ∈ first :: rest,
      Awaits defined (.named (specification.processName actor))
        (specification.eventsOf messages actor))
    (exchanged : ∀ message ∈ messages, (first :: rest).any message.involves = true)
    (separate : specification.StepsSeparate messages (first :: rest)) :
    IsTrace defined (specification.exchangeComposition messages first rest)
      (messages.map specification.eventOf) := by
  have course : ∀ actor ∈ first :: rest, ∃ later,
      Run defined (.named (specification.processName actor))
        (specification.eventsOf messages actor) later := by
    intro actor member
    have whole := awaits actor member
    rw [← List.append_nil (specification.eventsOf messages actor)] at whole
    obtain ⟨later, run, _⟩ := whole.exists_run
    exact ⟨later, run⟩
  have sharing : ∀ before next after, [first] ++ rest = before ++ next :: after →
      ∀ message ∈ messages,
        (before.any fun actor => message.involves actor) = true ∨
          message.involves next = true →
        (specification.eventOf message ∈ specification.sharedEvents messages before next ↔
          (before.any fun actor => message.involves actor) = true ∧
            message.involves next = true) := by
    intro before next after split message member touched
    rw [eventOf_mem_sharedEvents_iff (not_mem_of_nodup distinct split)]
    constructor
    · rintro ⟨other, isOther, joins, same⟩
      have reached : (before ++ [next]).any message.involves = true := by
        rw [List.any_append, Bool.or_eq_true]
        exact touched.imp_right (by simp)
      have across := separate before next after split other isOther message member same
        joins reached
      rwa [Message.joins, Bool.and_eq_true] at across
    · intro both
      exact ⟨message, member, by rwa [Message.joins, Bool.and_eq_true], rfl⟩
  obtain ⟨later, firstRun⟩ := course first List.mem_cons_self
  obtain ⟨final, joined⟩ := Joined.exists_of_selections specification.eventOf
    (fun actor message => message.involves actor) messages [first] rest later
    (fun actor member => course actor (List.mem_cons_of_mem first member)) sharing
  have everything : messages.filter (fun message => ([first] ++ rest).any fun actor =>
      message.involves actor) = messages :=
    List.filter_eq_self.mpr exchanged
  have alone : messages.filter (fun message => [first].any fun actor =>
      message.involves actor) = messages.filter fun message => message.involves first := by
    simp
  rw [everything, alone] at joined
  exact ⟨final, run_of_joined firstRun joined⟩

private theorem count_le_tally (undefinedFinish : defined "Finish" = none) {actor : ActorId}
    (awaits : Awaits defined (.named (specification.processName actor))
      (specification.eventsOf messages actor))
    {word : List String} {later : Behaviour}
    (run : Run defined (.named (specification.processName actor)) word later)
    (tested : String) :
    word.count tested ≤ tally specification.eventOf
      (fun actor message => message.involves actor) messages [actor] tested := by
  obtain ⟨remaining, events, _⟩ := awaits.of_run undefinedFinish run
  rw [tally_eq_count_eventsOf, events, List.count_append]
  omega

/-- A lifeline that has performed all its events comes to `Finish`. -/
private theorem finishes_of_count (undefinedFinish : defined "Finish" = none)
    {actor : ActorId}
    (awaits : Awaits defined (.named (specification.processName actor))
      (specification.eventsOf messages actor))
    {word : List String} {later : Behaviour}
    (run : Run defined (.named (specification.processName actor)) word later)
    (full : ∀ tested, word.count tested = tally specification.eventOf
      (fun actor message => message.involves actor) messages [actor] tested) :
    Run defined later [] .finished := by
  obtain ⟨remaining, events, laterAwaits⟩ := awaits.of_run undefinedFinish run
  apply laterAwaits.progress.1
  rw [List.eq_nil_iff_forall_not_mem]
  intro tested
  rw [← List.count_eq_zero]
  have counted := full tested
  rw [tally_eq_count_eventsOf, events, List.count_append] at counted
  omega

/-- If the lifelines perform the body, the steps are separate, and every
lifeline comes to `Finish`. -/
theorem separate_and_finishes (undefinedFinish : defined "Finish" = none)
    (distinct : (first :: rest).Nodup)
    (awaits : ∀ actor ∈ first :: rest,
      Awaits defined (.named (specification.processName actor))
        (specification.eventsOf messages actor))
    (exchanged : ∀ message ∈ messages, (first :: rest).any message.involves = true)
    {final : Behaviour}
    (run : Run defined (specification.exchangeComposition messages first rest)
      (messages.map specification.eventOf) final) :
    specification.StepsSeparate messages (first :: rest) ∧
      ∃ ended, Run defined final [] ended ∧ ended.AllFinished := by
  obtain ⟨word, later, firstRun, joined⟩ := exists_joined_of_run run
  have firstAwaits := awaits first List.mem_cons_self
  have restAwaits := fun actor member => awaits actor (List.mem_cons_of_mem first member)
  have labelled : ∀ before next after, [first] ++ rest = before ++ next :: after →
      ∀ message ∈ messages, (before.any fun actor => message.involves actor) = true →
        message.involves next = true →
        specification.eventOf message ∈ specification.sharedEvents messages before next := by
    intro before next after split message member earlier here
    rw [eventOf_mem_sharedEvents_iff (not_mem_of_nodup distinct split)]
    exact ⟨message, member, by rw [Message.joins, Bool.and_eq_true]; exact ⟨earlier, here⟩, rfl⟩
  have complete : ∀ tested, (messages.map specification.eventOf).count tested =
      tally specification.eventOf (fun actor message => message.involves actor) messages
        ([first] ++ rest) tested := by
    intro tested
    rw [tally, List.count_eq_countP, List.countP_map]
    apply List.countP_congr
    intro message member
    have reached := exchanged message member
    simp only [List.singleton_append, reached, Bool.true_and, Function.comp_apply]
  obtain ⟨firstFull, restFull, shares⟩ := joined.exhausted
    (fun actor member _ _ => count_le_tally undefinedFinish (restAwaits actor member))
    labelled (count_le_tally undefinedFinish firstAwaits firstRun) complete
  constructor
  · intro before next after split message member other isOther same joins reached
    cases before with
    | nil =>
        simp [Message.joins] at joins
    | cons head between =>
        obtain ⟨rfl, restSplit⟩ := List.cons.inj split
        have held : specification.eventOf other ∈
            specification.sharedEvents messages ([first] ++ between) next := by
          rw [List.singleton_append,
            eventOf_mem_sharedEvents_iff (not_mem_of_nodup distinct split)]
          exact ⟨message, member, joins, same⟩
        rw [List.any_append, Bool.or_eq_true] at reached
        have both := shares between next after restSplit other isOther held
          (reached.imp_right (by simp))
        rwa [Message.joins, Bool.and_eq_true]
  · have finishing := restFull.mono fun actor member _ _ course =>
      finishes_of_count undefinedFinish (restAwaits actor member) course.1 course.2
    exact ⟨_, finishing.run_to_end
      (finishes_of_count undefinedFinish firstAwaits firstRun firstFull),
      allFinished_nested [first] rest rfl⟩

/-- The lifelines perform the body exactly if the steps are separate. -/
theorem isTrace_body_iff (undefinedFinish : defined "Finish" = none)
    (distinct : (first :: rest).Nodup)
    (awaits : ∀ actor ∈ first :: rest,
      Awaits defined (.named (specification.processName actor))
        (specification.eventsOf messages actor))
    (exchanged : ∀ message ∈ messages, (first :: rest).any message.involves = true) :
    IsTrace defined (specification.exchangeComposition messages first rest)
        (messages.map specification.eventOf) ↔
      specification.StepsSeparate messages (first :: rest) := by
  constructor
  · rintro ⟨final, run⟩
    exact (separate_and_finishes undefinedFinish distinct awaits exchanged run).1
  · exact isTrace_body distinct awaits exchanged

/-- With one pair of ends per event, an event belongs to the lifelines that its
messages involve. -/
private theorem eventOf_mem_eventsOf_iff
    (sameEnds : ∀ message ∈ messages, ∀ other ∈ messages,
      specification.eventOf message = specification.eventOf other → message.SameEnds other)
    {message : Message} (member : message ∈ messages) (actor : ActorId) :
    specification.eventOf message ∈ specification.eventsOf messages actor ↔
      message.involves actor = true := by
  rw [eventsOf, List.mem_map]
  constructor
  · rintro ⟨other, selected, same⟩
    obtain ⟨isOther, involved⟩ := List.mem_filter.mp selected
    rwa [← (sameEnds other isOther message member same).involves_eq]
  · intro involved
    exact ⟨message, List.mem_filter.mpr ⟨member, involved⟩, rfl⟩

/-- With one pair of ends per event, a label holds the events of the messages
across its step only. -/
private theorem eventOf_mem_sharedEvents_iff_joins
    (sameEnds : ∀ message ∈ messages, ∀ other ∈ messages,
      specification.eventOf message = specification.eventOf other → message.SameEnds other)
    {message : Message} (member : message ∈ messages)
    {before : List ActorId} {next : ActorId} (absent : next ∉ before) :
    specification.eventOf message ∈ specification.sharedEvents messages before next ↔
      message.joins before next = true := by
  rw [eventOf_mem_sharedEvents_iff absent]
  constructor
  · rintro ⟨other, isOther, joins, same⟩
    rwa [Message.joins, ← (sameEnds other isOther message member same).involves_eq]
  · intro joins
    exact ⟨message, member, joins, rfl⟩

/-- A word of the lifelines agrees with the body at every lifeline. -/
theorem isPrefix_of_isTrace (undefinedFinish : defined "Finish" = none)
    (distinct : (first :: rest).Nodup)
    (awaits : ∀ actor ∈ first :: rest,
      Awaits defined (.named (specification.processName actor))
        (specification.eventsOf messages actor))
    (sameEnds : ∀ message ∈ messages, ∀ other ∈ messages,
      specification.eventOf message = specification.eventOf other → message.SameEnds other)
    {word : List String}
    (trace : IsTrace defined (specification.exchangeComposition messages first rest) word) :
    ∀ actor ∈ first :: rest,
      (word.filter fun event => event ∈ specification.eventsOf messages actor) <+:
        specification.eventsOf messages actor := by
  obtain ⟨final, run⟩ := trace
  obtain ⟨firstWord, later, firstRun, joined⟩ := exists_joined_of_run run
  have isPrefix : ∀ actor ∈ first :: rest, ∀ word later,
      Run defined (.named (specification.processName actor)) word later →
      word <+: specification.eventsOf messages actor := by
    intro actor member word later actorRun
    obtain ⟨remaining, events, _⟩ := (awaits actor member).of_run undefinedFinish actorRun
    exact ⟨remaining, events.symm⟩
  have firstPrefix := isPrefix first List.mem_cons_self firstWord later firstRun
  have courses := joined.mono fun actor member =>
    isPrefix actor (List.mem_cons_of_mem first member)
  refine courses.filter_isPrefix ?_ ?_ ?_
  · intro event member
    exact ⟨first, by simp, firstPrefix.subset member⟩
  · intro actor member
    rw [List.mem_singleton.mp member, List.filter_eq_self.mpr]
    · exact firstPrefix
    · simpa using fun event inWord => firstPrefix.subset inWord
  · rintro before next after split event ⟨actor, earlier, atActor⟩ atNext
    obtain ⟨message, selected, rfl⟩ := List.mem_map.mp atNext
    have member := (List.mem_filter.mp selected).1
    rw [eventOf_mem_eventsOf_iff sameEnds member] at atActor atNext
    rw [eventOf_mem_sharedEvents_iff_joins sameEnds member (not_mem_of_nodup distinct split),
      Message.joins, Bool.and_eq_true, List.any_eq_true]
    exact ⟨⟨actor, earlier, atActor⟩, atNext⟩

/-- A word of message events that agrees with the body at every lifeline is a
word of the lifelines. -/
theorem isTrace_of_isPrefix (distinct : (first :: rest).Nodup)
    (awaits : ∀ actor ∈ first :: rest,
      Awaits defined (.named (specification.processName actor))
        (specification.eventsOf messages actor))
    (exchanged : ∀ message ∈ messages, (first :: rest).any message.involves = true)
    (sameEnds : ∀ message ∈ messages, ∀ other ∈ messages,
      specification.eventOf message = specification.eventOf other → message.SameEnds other)
    {word : List String}
    (within : ∀ event ∈ word, event ∈ messages.map specification.eventOf)
    (agrees : ∀ actor ∈ first :: rest,
      (word.filter fun event => event ∈ specification.eventsOf messages actor) <+:
        specification.eventsOf messages actor) :
    IsTrace defined (specification.exchangeComposition messages first rest) word := by
  have course : ∀ actor ∈ first :: rest, ∃ later,
      Run defined (.named (specification.processName actor))
        ((word.filter fun event => event ∈ specification.eventsOf messages actor).map id)
        later := by
    intro actor member
    obtain ⟨remaining, events⟩ := agrees actor member
    have whole := awaits actor member
    rw [← events] at whole
    obtain ⟨later, run, _⟩ := whole.exists_run
    exact ⟨later, (List.map_id _).symm ▸ run⟩
  have sharing : ∀ before next after, [first] ++ rest = before ++ next :: after →
      ∀ event ∈ word,
        (before.any fun actor => event ∈ specification.eventsOf messages actor) = true ∨
          decide (event ∈ specification.eventsOf messages next) = true →
        (id event ∈ specification.sharedEvents messages before next ↔
          (before.any fun actor => event ∈ specification.eventsOf messages actor) = true ∧
            decide (event ∈ specification.eventsOf messages next) = true) := by
    intro before next after split event inWord _
    obtain ⟨message, member, rfl⟩ := List.mem_map.mp (within event inWord)
    rw [id, eventOf_mem_sharedEvents_iff_joins sameEnds member
      (not_mem_of_nodup distinct split), Message.joins, Bool.and_eq_true]
    simp only [eventOf_mem_eventsOf_iff sameEnds member, List.any_eq_true, decide_eq_true_eq]
  obtain ⟨later, firstRun⟩ := course first List.mem_cons_self
  obtain ⟨final, joined⟩ := Joined.exists_of_selections id
    (fun actor event => decide (event ∈ specification.eventsOf messages actor)) word [first]
    rest later (fun actor member => course actor (List.mem_cons_of_mem first member)) sharing
  have everything : word.filter (fun event => ([first] ++ rest).any fun actor =>
      event ∈ specification.eventsOf messages actor) = word := by
    apply List.filter_eq_self.mpr
    intro event inWord
    obtain ⟨message, member, rfl⟩ := List.mem_map.mp (within event inWord)
    simp only [eventOf_mem_eventsOf_iff sameEnds member, Bool.decide_eq_true]
    exact exchanged message member
  have alone : word.filter (fun event => [first].any fun actor =>
      event ∈ specification.eventsOf messages actor) =
        word.filter fun event => event ∈ specification.eventsOf messages first := by
    simp
  rw [everything, alone] at joined
  simp only [List.map_id] at firstRun joined
  exact ⟨final, run_of_joined firstRun joined⟩

end Specification

/-! ## The generated lifelines -/

def Interaction.ofMessages (lifelines : List ActorId) (messages : List Message) :
    Interaction where
  name := "I"
  body := (List.range messages.length).map TableId.mk
  lifelines := lifelines
  locals := []
  fragments := (messages.map FragmentEntry.message).toArray
  expressions := #[]
  locations := []
  group := ⟨0⟩

def Specification.ofMessages (actors : Array Actor) (lifelines : List ActorId)
    (messages : List Message) : Specification where
  name := "S"
  actors := actors
  actorsByName :=
    (actors.toList.mapIdx fun index actor => (actor.name, TableId.mk index)).reverse
  vars := #[]
  constants := #[]
  groups := #[⟨some "G", none, [⟨0⟩], [], []⟩]
  interactions := #[.ofMessages lifelines messages]
  scripts := #[]

def worldAnd (names : List String) : Array Actor :=
  (⟨"World", .world⟩ :: names.map fun name => ⟨name, .component⟩).toArray

/-- A message without arguments, on the channel of an event. -/
def Message.signal (sender receiver : ActorId) (channel : String) : Message :=
  ⟨sender, receiver, .event channel, []⟩

namespace Interaction.PlainExchange

variable {interaction : Interaction} {specification : Specification}
variable {messages : List Message} {id : InteractionId}

/-- The generated definitions, as far as the words of the composition depend on
them. -/
private theorem exists_definitions
    (exchange : interaction.PlainExchange specification messages)
    (apart : specification.ActorsNamedApart)
    (found : specification.interaction id = .ok interaction) :
    ∃ first rest setting declarations,
      interaction.lifelines = first :: rest ∧
      specification.setting id = .ok setting ∧
      setting.lifelineDefinitions.result = .ok declarations ∧
      processNamed declarations Setting.lifelinesName =
        some (specification.exchangeComposition messages first rest) ∧
      processNamed declarations "Finish" = none ∧
      ∀ actor ∈ first :: rest,
        Awaits (processNamed declarations) (.named (specification.processName actor))
          (specification.eventsOf messages actor) := by
  have several := exchange.several
  cases shape : interaction.lifelines with
  | nil =>
      simp [shape] at several
  | cons first rest =>
      have known : ∀ actor ∈ first :: rest, actor.index < specification.actors.size :=
        shape ▸ exchange.lifelinesKnown
      exact ⟨first, rest, _, _, rfl, exchange.setting_eq found,
        exchange.result_lifelineDefinitions shape, Specification.processNamed_lifelines,
        Specification.processNamed_finish,
        fun actor member => Specification.awaits_lifeline messages apart known member⟩

private theorem any_involves (exchange : interaction.PlainExchange specification messages) :
    ∀ message ∈ messages, interaction.lifelines.any message.involves = true := by
  intro message member
  exact List.any_eq_true.mpr (exchange.exchanged message member)

/-- The lifelines of a plain exchange perform its body exactly if the steps of
their composition are separate.  Whenever they have performed it, every lifeline
comes to stand at `Finish`. -/
theorem performs_body_iff (exchange : interaction.PlainExchange specification messages)
    (apart : specification.ActorsNamedApart)
    (found : specification.interaction id = .ok interaction) :
    ∃ setting declarations,
      specification.setting id = .ok setting ∧
      setting.lifelineDefinitions.result = .ok declarations ∧
      (IsTrace (processNamed declarations) (.named Setting.lifelinesName)
          (messages.map specification.eventOf) ↔
        specification.StepsSeparate messages interaction.lifelines) ∧
      ∀ final, Run (processNamed declarations) (.named Setting.lifelinesName)
          (messages.map specification.eventOf) final →
        ∃ ended, Run (processNamed declarations) final [] ended ∧ ended.AllFinished := by
  obtain ⟨first, rest, setting, declarations, shape, placed, defined, composed,
    undefinedFinish, awaits⟩ := exchange.exists_definitions apart found
  have distinct := exchange.distinct
  have exchanged := exchange.any_involves
  rw [shape] at distinct exchanged ⊢
  refine ⟨setting, declarations, placed, defined, ?_, ?_⟩
  · rw [isTrace_named_iff composed]
    exact Specification.isTrace_body_iff undefinedFinish distinct awaits exchanged
  · intro final run
    rcases run.of_named composed with ⟨empty, rfl⟩ | later
    · -- without messages, the lifelines may still have to be started
      have start : Run (processNamed declarations)
          (specification.exchangeComposition messages first rest)
          (messages.map specification.eventOf)
          (specification.exchangeComposition messages first rest) :=
        empty ▸ .refl _
      obtain ⟨ended, reached, finished⟩ := (Specification.separate_and_finishes
        undefinedFinish distinct awaits exchanged start).2
      exact ⟨ended, .silent (.named composed) reached, finished⟩
    · exact (Specification.separate_and_finishes undefinedFinish distinct awaits exchanged
        later).2

/-- Messages of the world and three components, on channels that are used in both
directions. -/
def relayed : List Message :=
  [.signal ⟨0⟩ ⟨1⟩ "c", .signal ⟨1⟩ ⟨2⟩ "c", .signal ⟨2⟩ ⟨1⟩ "c", .signal ⟨1⟩ ⟨3⟩ "d",
    .signal ⟨2⟩ ⟨3⟩ "d", .signal ⟨3⟩ ⟨0⟩ "e"]

def relay : Interaction :=
  .ofMessages [⟨1⟩, ⟨2⟩, ⟨3⟩] relayed

def relaySpecification : Specification :=
  .ofMessages (worldAnd ["A", "B", "C"]) [⟨1⟩, ⟨2⟩, ⟨3⟩] relayed

private theorem plainExchange_relay : relay.PlainExchange relaySpecification relayed where
  several := by decide
  distinct := by decide
  lifelinesKnown := by decide
  body := by decide
  plain := by decide
  ends := by decide
  exchanged := by decide

theorem performs_body_relay :
    relaySpecification.ActorsNamedApart ∧
      relaySpecification.interaction ⟨0⟩ = .ok relay ∧
      ∃ setting declarations,
        relaySpecification.setting ⟨0⟩ = .ok setting ∧
        setting.lifelineDefinitions.result = .ok declarations ∧
        IsTrace (processNamed declarations) (.named Setting.lifelinesName)
          ["c.in", "c.out", "c.out", "d.out", "d.out", "e.out"] := by
  have apart : relaySpecification.ActorsNamedApart := by decide
  have found : relaySpecification.interaction ⟨0⟩ = .ok relay := rfl
  obtain ⟨setting, declarations, placed, defined, performed, _⟩ :=
    plainExchange_relay.performs_body_iff apart found
  exact ⟨apart, found, setting, declarations, placed, defined, performed.mpr (by decide)⟩

/-- A component reports to the world and then to another component, on one
channel. -/
def reported : List Message :=
  [.signal ⟨1⟩ ⟨0⟩ "c", .signal ⟨1⟩ ⟨2⟩ "c"]

def reports : Interaction :=
  .ofMessages [⟨1⟩, ⟨2⟩] reported

def reportsSpecification : Specification :=
  .ofMessages (worldAnd ["A", "B"]) [⟨1⟩, ⟨2⟩] reported

private theorem plainExchange_reports : reports.PlainExchange reportsSpecification reported where
  several := by decide
  distinct := by decide
  lifelinesKnown := by decide
  body := by decide
  plain := by decide
  ends := by decide
  exchanged := by decide

/-- The label holds the event of the report to the world too, and the other
component has only one such event to share. -/
theorem not_performs_reports :
    ∃ setting declarations,
      reportsSpecification.setting ⟨0⟩ = .ok setting ∧
      setting.lifelineDefinitions.result = .ok declarations ∧
      ¬ IsTrace (processNamed declarations) (.named Setting.lifelinesName)
        ["c.out", "c.out"] := by
  have found : reportsSpecification.interaction ⟨0⟩ = .ok reports := rfl
  obtain ⟨first, rest, setting, declarations, shape, placed, defined, composed,
    undefinedFinish, awaits⟩ := plainExchange_reports.exists_definitions (by decide) found
  have distinct := plainExchange_reports.distinct
  have exchanged := plainExchange_reports.any_involves
  rw [shape] at distinct exchanged
  refine ⟨setting, declarations, placed, defined, fun trace => ?_⟩
  rw [isTrace_named_iff composed] at trace
  have separate := (Specification.isTrace_body_iff undefinedFinish distinct awaits
    exchanged).mp trace
  rw [← shape] at separate
  exact absurd separate (by decide)

/-- If messages with the same event have the same ends, the lifelines perform
exactly the words that agree with the order of the body at every lifeline. -/
theorem performs_iff_agrees (exchange : interaction.PlainExchange specification messages)
    (apart : specification.ActorsNamedApart)
    (found : specification.interaction id = .ok interaction)
    (sameEnds : ∀ message ∈ messages, ∀ other ∈ messages,
      specification.eventOf message = specification.eventOf other →
        message.SameEnds other) :
    ∃ setting declarations,
      specification.setting id = .ok setting ∧
      setting.lifelineDefinitions.result = .ok declarations ∧
      ∀ word : List String,
        (∀ event ∈ word, event ∈ messages.map specification.eventOf) →
        (IsTrace (processNamed declarations) (.named Setting.lifelinesName) word ↔
          ∀ actor ∈ interaction.lifelines,
            (word.filter fun event => event ∈ specification.eventsOf messages actor) <+:
              specification.eventsOf messages actor) := by
  obtain ⟨first, rest, setting, declarations, shape, placed, defined, composed,
    undefinedFinish, awaits⟩ := exchange.exists_definitions apart found
  have distinct := exchange.distinct
  have exchanged := exchange.any_involves
  rw [shape] at distinct exchanged ⊢
  refine ⟨setting, declarations, placed, defined, ?_⟩
  intro word within
  rw [isTrace_named_iff composed]
  constructor
  · exact Specification.isPrefix_of_isTrace undefinedFinish distinct awaits sameEnds
  · exact Specification.isTrace_of_isPrefix distinct awaits exchanged sameEnds within

/-- A component is called and answers, while another one tells the world. -/
def called : List Message :=
  [.signal ⟨0⟩ ⟨1⟩ "c", .signal ⟨1⟩ ⟨2⟩ "c", .signal ⟨2⟩ ⟨1⟩ "c", .signal ⟨3⟩ ⟨0⟩ "d"]

def call : Interaction :=
  .ofMessages [⟨1⟩, ⟨2⟩, ⟨3⟩] called

def callSpecification : Specification :=
  .ofMessages (worldAnd ["A", "B", "C"]) [⟨1⟩, ⟨2⟩, ⟨3⟩] called

private theorem plainExchange_call : call.PlainExchange callSpecification called where
  several := by decide
  distinct := by decide
  lifelinesKnown := by decide
  body := by decide
  plain := by decide
  ends := by decide
  exchanged := by decide

/-- The world may be told at any time, but nobody is called before the world has
asked for it. -/
theorem performs_iff_agrees_call :
    callSpecification.ActorsNamedApart ∧
      callSpecification.interaction ⟨0⟩ = .ok call ∧
      (∀ message ∈ called, ∀ other ∈ called,
        callSpecification.eventOf message = callSpecification.eventOf other →
          message.SameEnds other) ∧
      ∃ setting declarations,
        callSpecification.setting ⟨0⟩ = .ok setting ∧
        setting.lifelineDefinitions.result = .ok declarations ∧
        IsTrace (processNamed declarations) (.named Setting.lifelinesName)
          ["c.in", "d.out", "c.out"] ∧
        ¬ IsTrace (processNamed declarations) (.named Setting.lifelinesName)
          ["d.out", "c.out"] := by
  have apart : callSpecification.ActorsNamedApart := by decide
  have found : callSpecification.interaction ⟨0⟩ = .ok call := rfl
  have sameEnds : ∀ message ∈ called, ∀ other ∈ called,
      callSpecification.eventOf message = callSpecification.eventOf other →
        message.SameEnds other := by decide
  obtain ⟨setting, declarations, placed, defined, performed⟩ :=
    plainExchange_call.performs_iff_agrees apart found sameEnds
  refine ⟨apart, found, sameEnds, setting, declarations, placed, defined, ?_, ?_⟩
  · exact (performed _ (by decide)).mpr (by decide)
  · exact fun trace => absurd ((performed _ (by decide)).mp trace) (by decide)

end Interaction.PlainExchange

end SequenceChart
