import SequenceChart.Composition
import SequenceChart.Proofs.ProcessTrace

/-!
# Compositions nested to the left

Processes of lifelines are joined one after the other, and each step shares
the events of its own label.  A run of such a composition is a run of every
lifeline whose words merge step by step.

What the words of a composition can be is settled here for items of any kind
that touch lifelines: messages, or the events of a word.  Two directions are
needed.  Selections of one list merge if every label holds the events of those
items only that touch both sides.  And if all events of the list happen, then
every lifeline has performed all of its own, and the labels did not hold the
event of an item that touches one side alone.
-/

namespace SequenceChart

/-- The left side of a step.  Only what is composed already has parentheses. -/
def leftSide (before : List ActorId) (left : Behaviour) : Behaviour :=
  if before.length ≤ 1 then left else .grouped left

section Shape

variable (label : List ActorId → ActorId → List String)
variable (process : ActorId → Behaviour)

def joinedTo (before : List ActorId) (left : Behaviour) (next : ActorId)
    (right : Behaviour) : Behaviour :=
  .synchronised (leftSide before left) (.productions (label before next)) right

/-- Lifelines joined in order to a composition of those before them. -/
def nested (before : List ActorId) (left : Behaviour) : List ActorId → Behaviour
  | [] => left
  | next :: rest =>
      nested (before ++ [next]) (joinedTo label before left next (process next)) rest

/-- The steps by which lifelines are joined to those before them. -/
def stepsBehind (before : List ActorId) : List ActorId → List (EventSet × Behaviour)
  | [] => []
  | next :: rest =>
      (.productions (label before next), process next) :: stepsBehind (before ++ [next]) rest

private theorem foldl_stepsBehind (before rest : List ActorId) (left : Behaviour)
    (composed : ¬ before.length ≤ 1) :
    (stepsBehind label process before rest).foldl
        (fun left step => .synchronised (.grouped left) step.1 step.2) left =
      nested label process before left rest := by
  induction rest generalizing before left with
  | nil =>
      rfl
  | cons next rest inductionHypothesis =>
      rw [stepsBehind, List.foldl_cons, nested, joinedTo, leftSide, if_neg composed]
      apply inductionHypothesis
      simp only [List.length_append, List.length_singleton]
      omega

/-- Steps behind a single lifeline nest to the left. -/
theorem compose_stepsBehind (first : ActorId) (rest : List ActorId) (left : Behaviour) :
    Behaviour.compose left (stepsBehind label process [first] rest) =
      nested label process [first] left rest := by
  cases rest with
  | nil =>
      rfl
  | cons next rest =>
      exact foldl_stepsBehind label process [first, next] rest _ (by simp)

end Shape

theorem not_mem_of_nodup {lifelines before after : List ActorId} {next : ActorId}
    (distinct : lifelines.Nodup) (split : lifelines = before ++ next :: after) :
    next ∉ before := by
  rw [split, List.nodup_append] at distinct
  intro earlier
  exact distinct.2.2 next earlier next List.mem_cons_self rfl

theorem idxOf?_append_cons {before after : List ActorId} {actor : ActorId}
    (absent : actor ∉ before) :
    (before ++ actor :: after).idxOf? actor = some before.length := by
  induction before with
  | nil =>
      simp [List.idxOf?_cons]
  | cons head rest inductionHypothesis =>
      simp only [List.mem_cons, not_or] at absent
      rw [List.cons_append, List.idxOf?_cons, inductionHypothesis absent.2]
      simp [Ne.symm absent.1]

namespace Setting

variable (setting : Setting)

def stepEvents (links : List Link) (before : List ActorId) (next : ActorId) : List String :=
  firstOccurrences ((links.filter fun link => link.connects before next).map Link.eventName) ++
    [tock, finish] ++ setting.handshakeChannels

def untilSteps : List (EventSet × Behaviour) :=
  if setting.untils.isRequired then
    [(.productions [HandshakeKind.until.channel, finish], .named untilProcessName)]
  else
    []

variable {setting}

/-- With distinct lifelines, the ones up to a lifeline are those before it and
itself. -/
theorem lifelinesUpTo_eq {before after : List ActorId} {actor : ActorId}
    (shape : setting.lifelines = before ++ actor :: after)
    (distinct : setting.lifelines.Nodup) :
    setting.lifelinesUpTo actor = .ok (before ++ [actor]) := by
  have absent := not_mem_of_nodup distinct shape
  have length : setting.lifelines.length = (before.length + after.length) + 1 := by
    rw [shape, List.length_append, List.length_cons]
    omega
  rw [lifelinesUpTo, length, oneLess, shape, idxOf?_append_cons absent]
  change Except.ok ((before ++ actor :: after).take (before.length + 1)) = _
  rw [List.take_append, List.take_of_length_le (Nat.le_succ _)]
  simp

private theorem parallelSteps_eq (links : List Link) {name : ActorId → String}
    (named : ∀ actor ∈ setting.lifelines,
      setting.specification.lifelineName actor = .ok (name actor))
    (distinct : setting.lifelines.Nodup)
    (before : List ActorId) {rest : List ActorId} {current : ActorId}
    (shape : setting.lifelines = before ++ current :: rest) :
    Behaviour.parallelSteps setting.participantProcess (setting.stepLabel links)
        ((current :: rest).map .lifeline ++
          (if setting.untils.isRequired then [.untilProcess] else [])) =
      .ok (stepsBehind (setting.stepEvents links) (fun actor => .named (name actor))
        (before ++ [current]) rest ++ setting.untilSteps) := by
  induction rest generalizing before current with
  | nil =>
      rw [untilSteps]
      split <;> rfl
  | cons next rest inductionHypothesis =>
      have later := inductionHypothesis (before ++ [current]) (by simpa using shape)
      have label : setting.stepLabel links (.lifeline current)
          ((next :: rest).map .lifeline ++
            (if setting.untils.isRequired then [.untilProcess] else [])) =
          .ok (.productions (setting.stepEvents links (before ++ [current]) next)) := by
        change Except.bind (setting.lifelinesUpTo current) _ = _
        rw [lifelinesUpTo_eq shape distinct]
        rfl
      have joined : setting.participantProcess (.lifeline next) = .ok (.named (name next)) := by
        rw [participantProcess, named next (by simp [shape])]
        rfl
      rw [List.map_cons, List.map_cons, List.cons_append, List.cons_append,
        Behaviour.parallelSteps]
      rw [List.map_cons, List.cons_append] at label later
      rw [label, joined, later]
      rfl

/-- The composition nests the lifelines to the left in their order, and joins
the until process last. -/
theorem composition_eq {links : List Link} {name : ActorId → String}
    (linked : setting.links = .ok links)
    (named : ∀ actor ∈ setting.lifelines,
      setting.specification.lifelineName actor = .ok (name actor))
    (distinct : setting.lifelines.Nodup)
    {first : ActorId} {rest : List ActorId}
    (shape : setting.lifelines = first :: rest) :
    setting.composition = .ok (.compose (.named (name first))
      (stepsBehind (setting.stepEvents links) (fun actor => .named (name actor)) [first]
        rest ++ setting.untilSteps)) := by
  have start : setting.participantProcess (.lifeline first) = .ok (.named (name first)) := by
    rw [participantProcess, named first (by simp [shape])]
    rfl
  have steps := parallelSteps_eq links named distinct [] shape
  rw [List.map_cons, List.cons_append] at steps
  rw [composition, linked]
  change Behaviour.parallel _ _ setting.participants = _
  rw [participants, shape, List.map_cons, List.cons_append, Behaviour.parallel, start, steps]
  rfl

end Setting

/-- `Joined label course before first left lifelines whole final` means that
the composition of the lifelines in `before`, which performed `first` and
became `left`, performs `whole` and becomes `final` together with further
lifelines.  Each of these follows a course: a word, and what it becomes. -/
inductive Joined (label : List ActorId → ActorId → List String)
    (course : ActorId → List String → Behaviour → Prop) :
    List ActorId → List String → Behaviour → List ActorId → List String → Behaviour → Prop
  | done (before : List ActorId) (word : List String) (left : Behaviour) :
      Joined label course before word left [] word left
  | join {before rest : List ActorId} {next : ActorId}
      {first word middle whole : List String} {left later final : Behaviour} :
      course next word later →
      Merge (label before next) first word middle →
      Joined label course (before ++ [next]) middle
        (joinedTo label before left next later) rest whole final →
      Joined label course before first left (next :: rest) whole final

variable {label : List ActorId → ActorId → List String}
variable {course : ActorId → List String → Behaviour → Prop}

section Runs

variable {defined : String → Option Behaviour}
variable {process : ActorId → Behaviour}

private theorem leftSide_run {left later : Behaviour} {word : List String}
    (before : List ActorId) (run : Run defined left word later) :
    Run defined (leftSide before left) word (leftSide before later) := by
  unfold leftSide
  split
  · exact run
  · exact run.grouped

private theorem exists_of_leftSide_run {left final : Behaviour} {word : List String}
    (before : List ActorId) (run : Run defined (leftSide before left) word final) :
    ∃ later, final = leftSide before later ∧ Run defined left word later := by
  by_cases single : before.length ≤ 1
  · simp only [leftSide, if_pos single] at run ⊢
    exact ⟨final, rfl, run⟩
  · simp only [leftSide, if_neg single] at run ⊢
    exact run.exists_of_grouped

/-- A run of a nested composition is a run of all its parts. -/
theorem exists_joined_of_run {before rest : List ActorId} {left final : Behaviour}
    {whole : List String}
    (run : Run defined (nested label process before left rest) whole final) :
    ∃ first later, Run defined left first later ∧
      Joined label (fun actor => Run defined (process actor))
        before first later rest whole final := by
  induction rest generalizing before left with
  | nil =>
      exact ⟨whole, final, run, .done before whole final⟩
  | cons next rest inductionHypothesis =>
      obtain ⟨middle, later, joinedRun, joined⟩ := inductionHypothesis run
      obtain ⟨leftLater, rightLater, first, word, rfl, leftRun, rightRun, merge⟩ :=
        joinedRun.exists_of_synchronised
      obtain ⟨inner, rfl, innerRun⟩ := exists_of_leftSide_run before leftRun
      exact ⟨first, inner, innerRun, .join rightRun merge joined⟩

/-- Runs of all parts whose words merge make a run of the composition. -/
theorem run_of_joined {before rest : List ActorId} {left later final : Behaviour}
    {first whole : List String}
    (run : Run defined left first later)
    (joined : Joined label (fun actor => Run defined (process actor))
      before first later rest whole final) :
    Run defined (nested label process before left rest) whole final := by
  induction joined generalizing left with
  | done =>
      exact run
  | join rightRun merge _ inductionHypothesis =>
      exact inductionHypothesis
        (Run.synchronised merge (leftSide_run _ run) rightRun)

end Runs

namespace Joined

/-- A course may be replaced by one that it implies. -/
theorem mono {weaker : ActorId → List String → Behaviour → Prop}
    {before rest : List ActorId} {left final : Behaviour} {first whole : List String}
    (implied : ∀ actor ∈ rest, ∀ word later,
      course actor word later → weaker actor word later)
    (joined : Joined label course before first left rest whole final) :
    Joined label weaker before first left rest whole final := by
  induction joined with
  | done before word left =>
      exact .done before word left
  | join follows merge _ inductionHypothesis =>
      exact .join (implied _ List.mem_cons_self _ _ follows) merge
        (inductionHypothesis fun actor member =>
          implied actor (List.mem_cons_of_mem _ member))

/-- Selections of one list can be performed together.  Every lifeline follows
the items that touch it, and a label holds the event of an item that touches
one of the lifelines so far only if the item touches both sides. -/
theorem exists_of_selections {α : Type} (event : α → String)
    (touches : ActorId → α → Bool) (items : List α)
    (before rest : List ActorId) (left : Behaviour)
    (follows : ∀ actor ∈ rest, ∃ later,
      course actor ((items.filter (touches actor)).map event) later)
    (sharing : ∀ earlier next after, before ++ rest = earlier ++ next :: after →
      ∀ item ∈ items,
        (earlier.any fun actor => touches actor item) = true ∨ touches next item = true →
        (event item ∈ label earlier next ↔
          (earlier.any fun actor => touches actor item) = true ∧
            touches next item = true)) :
    ∃ final, Joined label course before
      ((items.filter fun item => before.any fun actor => touches actor item).map event)
      left rest
      ((items.filter fun item =>
        (before ++ rest).any fun actor => touches actor item).map event)
      final := by
  induction rest generalizing before left with
  | nil =>
      refine ⟨left, ?_⟩
      rw [List.append_nil]
      exact .done before _ left
  | cons next rest inductionHypothesis =>
      obtain ⟨later, follow⟩ := follows next List.mem_cons_self
      have regroup : before ++ next :: rest = (before ++ [next]) ++ rest := by
        simp
      obtain ⟨final, joined⟩ := inductionHypothesis (before ++ [next])
        (joinedTo label before left next later)
        (fun actor member => follows actor (List.mem_cons_of_mem next member))
        (fun earlier other after shape => sharing earlier other after (regroup ▸ shape))
      have merge := Merge.of_selections event
        (fun item => before.any fun actor => touches actor item) (touches next) items
        (sharing before next rest rfl)
      have extended :
          (fun item => (before.any fun actor => touches actor item) || touches next item) =
            fun item => (before ++ [next]).any fun actor => touches actor item := by
        funext item
        simp
      rw [extended] at merge
      refine ⟨final, ?_⟩
      rw [regroup]
      exact .join follow merge joined

/-- Where every lifeline comes to the same end by itself, so does the
composition. -/
theorem run_to_end {defined : String → Option Behaviour} {ending leftEnd : Behaviour}
    {before rest : List ActorId} {left final : Behaviour} {first whole : List String}
    (joined : Joined label (fun _ _ later => Run defined later [] ending)
      before first left rest whole final)
    (run : Run defined left [] leftEnd) :
    Run defined final [] (nested label (fun _ => ending) before leftEnd rest) := by
  induction joined generalizing leftEnd with
  | done =>
      exact run
  | join rightRun _ _ inductionHypothesis =>
      exact inductionHypothesis (Run.synchronised .nil (leftSide_run _ run) rightRun)

/-- If a label holds every event that its lifeline has in common with the ones
before, a word of the composition cut back to the events of any lifeline is a
beginning of these. -/
theorem filter_isPrefix {events : ActorId → List String}
    {before rest : List ActorId} {left final : Behaviour} {first whole : List String}
    (joined : Joined label (fun actor word _ => word <+: events actor)
      before first left rest whole final)
    (within : ∀ event ∈ first, ∃ actor ∈ before, event ∈ events actor)
    (prefixes : ∀ actor ∈ before,
      (first.filter fun event => event ∈ events actor) <+: events actor)
    (overlap : ∀ earlier next after, before ++ rest = earlier ++ next :: after →
      ∀ event, (∃ actor ∈ earlier, event ∈ events actor) → event ∈ events next →
        event ∈ label earlier next) :
    ∀ actor ∈ before ++ rest,
      (whole.filter fun event => event ∈ events actor) <+: events actor := by
  induction joined with
  | done =>
      simpa using prefixes
  | @join before rest next first word middle whole left later final
      follow merge _ inductionHypothesis =>
      have regroup : before ++ next :: rest = (before ++ [next]) ++ rest := by
        simp
      have wordWithin : ∀ event ∈ word, event ∈ events next :=
        fun event member => follow.subset member
      have cutLeft :
          (middle.filter fun event => decide (∃ actor ∈ before, event ∈ events actor)) =
            first := by
        apply merge.filter_left _ fun event => decide (event ∈ events next)
        · simpa using within
        · simpa using wordWithin
        · simpa using overlap before next rest rfl
      have cutRight :
          (middle.filter fun event => decide (event ∈ events next)) = word := by
        apply merge.swap.filter_left _ fun event =>
          decide (∃ actor ∈ before, event ∈ events actor)
        · simpa using wordWithin
        · simpa using within
        · intro event here there
          exact overlap before next rest rfl event (by simpa using there)
            (by simpa using here)
      rw [regroup]
      apply inductionHypothesis
      · intro event member
        rcases merge.mem_or_mem member with inFirst | inWord
        · obtain ⟨actor, earlier, known⟩ := within event inFirst
          exact ⟨actor, List.mem_append_left [next] earlier, known⟩
        · exact ⟨next, by simp, wordWithin event inWord⟩
      · intro actor member
        rcases List.mem_append.mp member with earlier | new
        · have nestedCut :
              (middle.filter fun event => decide (event ∈ events actor)) =
                first.filter fun event => decide (event ∈ events actor) := by
            rw [← cutLeft, List.filter_filter]
            apply List.filter_congr
            intro event _
            by_cases known : event ∈ events actor
            · have someone : ∃ actor ∈ before, event ∈ events actor :=
                ⟨actor, earlier, known⟩
              simp [known, someone]
            · simp [known]
          rw [nestedCut]
          exact prefixes actor earlier
        · rw [List.mem_singleton.mp new, cutRight]
          exact follow
      · intro earlier other after shape
        exact overlap earlier other after (regroup ▸ shape)

end Joined

/-! ## Counting the events of all lifelines -/

section Counting

variable {α : Type} (event : α → String) (touches : ActorId → α → Bool)
variable (items : List α)

/-- How many items with a given event touch one of several lifelines. -/
def tally (actors : List ActorId) (tested : String) : Nat :=
  items.countP fun item =>
    (actors.any fun actor => touches actor item) && event item == tested

private theorem countP_either_add_both (one other : α → Bool) :
    items.countP (fun item => one item || other item) +
        items.countP (fun item => one item && other item) =
      items.countP one + items.countP other := by
  induction items with
  | nil =>
      rfl
  | cons item rest inductionHypothesis =>
      cases seenOne : one item <;> cases seenOther : other item <;>
        simp [seenOne, seenOther] <;> omega

private theorem imp_of_countP_eq (smaller larger : α → Bool)
    (included : ∀ item, smaller item = true → larger item = true)
    (equal : items.countP larger = items.countP smaller) :
    ∀ item ∈ items, larger item = true → smaller item = true := by
  induction items with
  | nil =>
      simp
  | cons head rest inductionHypothesis =>
      have bound : rest.countP smaller ≤ rest.countP larger :=
        List.countP_mono_left fun item _ => included item
      intro item member large
      simp only [List.countP_cons] at equal
      by_cases small : smaller head = true
      · have largeHead := included head small
        simp only [small, largeHead, if_true] at equal
        rcases List.mem_cons.mp member with rfl | later
        · exact small
        · exact inductionHypothesis (by omega) item later large
      · by_cases largeHead : larger head = true
        · simp only [small, largeHead, if_true] at equal
          simp at equal
          omega
        · simp only [small, largeHead] at equal
          rcases List.mem_cons.mp member with rfl | later
          · exact absurd large largeHead
          · exact inductionHypothesis (by simpa using equal) item later large

private theorem tally_le_append (before : List ActorId) (next : ActorId) (tested : String) :
    tally event touches items before tested ≤
      tally event touches items (before ++ [next]) tested := by
  apply List.countP_mono_left
  intro item _ counted
  simp only [List.any_append, Bool.and_eq_true, Bool.or_eq_true] at counted ⊢
  exact ⟨Or.inl counted.1, counted.2⟩

private theorem tally_singleton_le_append (before : List ActorId) (next : ActorId)
    (tested : String) :
    tally event touches items [next] tested ≤
      tally event touches items (before ++ [next]) tested := by
  apply List.countP_mono_left
  intro item _ counted
  simp only [List.any_append, Bool.and_eq_true, Bool.or_eq_true] at counted ⊢
  exact ⟨Or.inr counted.1, counted.2⟩

/-- How many items with the given event touch both sides of a step. -/
private theorem tally_append_add_both (before : List ActorId) (next : ActorId)
    (tested : String) :
    tally event touches items (before ++ [next]) tested +
        items.countP (fun item =>
          ((before.any fun actor => touches actor item) && event item == tested) &&
            (touches next item && event item == tested)) =
      tally event touches items before tested + tally event touches items [next] tested := by
  have counted := countP_either_add_both items
    (fun item => (before.any fun actor => touches actor item) && event item == tested)
    (fun item => touches next item && event item == tested)
  have either :
      (fun item => ((before.any fun actor => touches actor item) && event item == tested) ||
          (touches next item && event item == tested)) =
        fun item => ((before ++ [next]).any fun actor => touches actor item) &&
          event item == tested := by
    funext item
    cases event item == tested <;> simp
  rw [either] at counted
  simpa [tally] using counted

variable {event touches items}

/-- Without an item that touches both sides, the counts of the sides add up. -/
private theorem tally_append_of_apart {before : List ActorId} {next : ActorId}
    {tested : String}
    (apart : ∀ item ∈ items, event item = tested →
      (before.any fun actor => touches actor item) = true → touches next item = false) :
    tally event touches items (before ++ [next]) tested =
      tally event touches items before tested + tally event touches items [next] tested := by
  have counted := tally_append_add_both event touches items before next tested
  have none :
      items.countP (fun item =>
        ((before.any fun actor => touches actor item) && event item == tested) &&
          (touches next item && event item == tested)) = 0 := by
    rw [List.countP_eq_zero]
    intro item member both
    simp only [Bool.and_eq_true, beq_iff_eq] at both
    have absent := apart item member both.1.2 both.1.1
    rw [absent] at both
    exact absurd both.2.1 (by simp)
  omega

/-- If both sides have as many items with an event as the whole, every such
item touches both. -/
private theorem touches_both_of_tally_eq {before : List ActorId} {next : ActorId}
    {tested : String}
    (leftFull : tally event touches items before tested =
      tally event touches items (before ++ [next]) tested)
    (rightFull : tally event touches items [next] tested =
      tally event touches items (before ++ [next]) tested)
    {item : α} (member : item ∈ items) (same : event item = tested)
    (touched : (before.any fun actor => touches actor item) = true ∨
      touches next item = true) :
    (before.any fun actor => touches actor item) = true ∧ touches next item = true := by
  have counted := tally_append_add_both event touches items before next tested
  have both := imp_of_countP_eq items
    (fun item =>
      ((before.any fun actor => touches actor item) && event item == tested) &&
        (touches next item && event item == tested))
    (fun item =>
      ((before ++ [next]).any fun actor => touches actor item) && event item == tested)
    (by
      intro other small
      simp only [Bool.and_eq_true] at small
      simp only [List.any_append, Bool.and_eq_true, Bool.or_eq_true]
      exact ⟨Or.inl small.1.1, small.1.2⟩)
    (by
      rw [leftFull, rightFull] at counted
      exact (Nat.add_left_cancel counted).symm)
    item member
    (by
      simp only [List.any_append, Bool.and_eq_true, Bool.or_eq_true, beq_iff_eq]
      exact ⟨touched.imp_right (by simp), same⟩)
  simp only [Bool.and_eq_true] at both
  exact ⟨both.1.1, both.2.1⟩

/-- If a composition performs every event of the list, then every lifeline has
performed all of its own, and no label holds the event of an item that touches
one side of its step alone.  The counts are compared from the last step back to
the first: a label that holds such an event leaves the whole one short. -/
theorem Joined.exhausted {before rest : List ActorId} {left final : Behaviour}
    {first whole : List String}
    (joined : Joined label course before first left rest whole final)
    (bounded : ∀ actor ∈ rest, ∀ word later, course actor word later →
      ∀ tested, word.count tested ≤ tally event touches items [actor] tested)
    (labelled : ∀ earlier next after, before ++ rest = earlier ++ next :: after →
      ∀ item ∈ items, (earlier.any fun actor => touches actor item) = true →
        touches next item = true → event item ∈ label earlier next)
    (start : ∀ tested, first.count tested ≤ tally event touches items before tested)
    (complete : ∀ tested,
      whole.count tested = tally event touches items (before ++ rest) tested) :
    (∀ tested, first.count tested = tally event touches items before tested) ∧
      Joined label (fun actor word later => course actor word later ∧
          ∀ tested, word.count tested = tally event touches items [actor] tested)
        before first left rest whole final ∧
      (∀ between next after, rest = between ++ next :: after →
        ∀ item ∈ items, event item ∈ label (before ++ between) next →
          ((before ++ between).any fun actor => touches actor item) = true ∨
            touches next item = true →
          ((before ++ between).any fun actor => touches actor item) = true ∧
            touches next item = true) := by
  induction joined with
  | done before word left =>
      refine ⟨?_, .done before word left, ?_⟩
      · simpa using complete
      · intro between next after shape
        simp at shape
  | @join before rest next first word middle whole left later final
      follow merge _ inductionHypothesis =>
      have regroup : before ++ next :: rest = (before ++ [next]) ++ rest := by
        simp
      have wordBound := bounded next List.mem_cons_self word later follow
      have apartOf : ∀ tested, tested ∉ label before next →
          tally event touches items (before ++ [next]) tested =
            tally event touches items before tested +
              tally event touches items [next] tested := by
        intro tested absent
        apply tally_append_of_apart
        intro item member same seen
        by_contra touched
        have held := labelled before next rest rfl item member seen (by simpa using touched)
        exact absent (same ▸ held)
      have middleBound : ∀ tested,
          middle.count tested ≤ tally event touches items (before ++ [next]) tested := by
        intro tested
        by_cases shared : tested ∈ label before next
        · have counted := merge.count_left_of_shared shared
          have grown := tally_le_append event touches items before next tested
          have bound := start tested
          omega
        · have counted := merge.count_of_not_shared shared
          have split := apartOf tested shared
          have bound := start tested
          have nextBound := wordBound tested
          omega
      obtain ⟨middleFull, restFull, restShares⟩ := inductionHypothesis
        (fun actor member => bounded actor (List.mem_cons_of_mem next member))
        (fun earlier other after shape => labelled earlier other after (regroup ▸ shape))
        middleBound (regroup ▸ complete)
      have sides : ∀ tested,
          first.count tested = tally event touches items before tested ∧
            word.count tested = tally event touches items [next] tested ∧
            (tested ∈ label before next →
              tally event touches items before tested =
                  tally event touches items (before ++ [next]) tested ∧
                tally event touches items [next] tested =
                  tally event touches items (before ++ [next]) tested) := by
        intro tested
        have full := middleFull tested
        have bound := start tested
        have nextBound := wordBound tested
        by_cases shared : tested ∈ label before next
        · have countedLeft := merge.count_left_of_shared shared
          have countedRight := merge.swap.count_left_of_shared shared
          have grownLeft := tally_le_append event touches items before next tested
          have grownRight := tally_singleton_le_append event touches items before next tested
          refine ⟨by omega, by omega, fun _ => ⟨by omega, by omega⟩⟩
        · have counted := merge.count_of_not_shared shared
          have split := apartOf tested shared
          exact ⟨by omega, by omega, fun held => absurd held shared⟩
      refine ⟨fun tested => (sides tested).1,
        .join ⟨follow, fun tested => (sides tested).2.1⟩ merge restFull, ?_⟩
      intro between other after shape item member held touched
      cases between with
      | nil =>
          obtain ⟨rfl, rfl⟩ := List.cons.inj shape
          rw [List.append_nil] at held touched ⊢
          obtain ⟨leftFull, rightFull⟩ := (sides (event item)).2.2 held
          exact touches_both_of_tally_eq leftFull rightFull member rfl touched
      | cons head tail =>
          obtain ⟨rfl, restShape⟩ := List.cons.inj shape
          have moved : before ++ next :: tail = (before ++ [next]) ++ tail := by
            simp
          rw [moved] at held touched ⊢
          exact restShares tail other after restShape item member held touched

end Counting

end SequenceChart
