import SequenceChart.Proofs.Completion
import SequenceChart.Proofs.LibraryMeaning

/-!
# How often loops repeat their body

A loop ends after as many runs of its body as its bound allows.  The counters of the library
are followed down to zero.  The loops without a counter are followed through the calls that
a word comes from.
-/

namespace SequenceChart

/-- `Repeats run times word` means that `word` consists of so many runs. -/
inductive Repeats (run : List String → Prop) : Nat → List String → Prop
  | zero : Repeats run 0 []
  | succ {times : Nat} {first rest : List String} :
      run first → Repeats run times rest → Repeats run (times + 1) (first ++ rest)

namespace Repeats

variable {run : List String → Prop} {word : List String}

@[simp]
theorem zero_iff : Repeats run 0 word ↔ word = [] := by
  constructor
  · rintro ⟨⟩
    rfl
  · rintro rfl
    exact .zero

theorem succ_iff {times : Nat} :
    Repeats run (times + 1) word ↔
      ∃ first rest, word = first ++ rest ∧ run first ∧ Repeats run times rest := by
  constructor
  · rintro (_ | ⟨isRun, later⟩)
    exact ⟨_, _, rfl, isRun, later⟩
  · rintro ⟨first, rest, rfl, isRun, later⟩
    exact .succ isRun later

/-- Runs can be counted in two parts. -/
theorem add_iff {times others : Nat} :
    Repeats run (times + others) word ↔
      ∃ before after, word = before ++ after ∧ Repeats run times before ∧
        Repeats run others after := by
  induction times generalizing word with
  | zero =>
      simp
  | succ times inductionHypothesis =>
      rw [Nat.succ_add, succ_iff]
      constructor
      · rintro ⟨first, rest, rfl, isRun, later⟩
        obtain ⟨before, after, rfl, inBefore, inAfter⟩ := inductionHypothesis.mp later
        exact ⟨first ++ before, after, (List.append_assoc ..).symm, .succ isRun inBefore, inAfter⟩
      · rintro ⟨before, after, rfl, inBefore, inAfter⟩
        obtain ⟨first, rest, rfl, isRun, later⟩ := succ_iff.mp inBefore
        exact ⟨first, rest ++ after, List.append_assoc .., isRun,
          inductionHypothesis.mpr ⟨rest, after, rfl, later, inAfter⟩⟩

/-- Runs that must be made, followed by runs that may be. -/
theorem exists_add_iff {least : Nat} {optional : Nat → Prop} :
    (∃ before after, word = before ++ after ∧ Repeats run least before ∧
        ∃ others, optional others ∧ Repeats run others after) ↔
      ∃ times, (least ≤ times ∧ optional (times - least)) ∧ Repeats run times word := by
  constructor
  · rintro ⟨before, after, split, inBefore, others, allowed, inAfter⟩
    refine ⟨least + others, ⟨Nat.le_add_right .., ?_⟩, add_iff.mpr ⟨_, _, split, inBefore, inAfter⟩⟩
    rwa [Nat.add_sub_cancel_left]
  · rintro ⟨times, ⟨enough, allowed⟩, repeats⟩
    obtain ⟨others, rfl⟩ := Nat.exists_eq_add_of_le enough
    obtain ⟨before, after, split, inBefore, inAfter⟩ := add_iff.mp repeats
    rw [Nat.add_sub_cancel_left] at allowed
    exact ⟨before, after, split, inBefore, others, allowed, inAfter⟩

/-- Runs of one event each can be told from the length of the word. -/
theorem iff_replicate {event : String} {times : Nat} :
    Repeats (fun first => first = [event]) times word ↔ word = List.replicate times event := by
  induction times generalizing word with
  | zero =>
      simp
  | succ times inductionHypothesis =>
      simp [succ_iff, inductionHypothesis, List.replicate_succ]

end Repeats

variable {meaning : Meaning} {body : Behaviour} {word : List String} {ended : Bool}

theorem performs_loopStar_iff :
    Performs meaning (callAround "LoopStar" [] body) word ended ↔
      word = [] ∨ Performs meaning (.andThen body (callAround "LoopStar" [] body)) word ended := by
  have found : Library.definitionOf "LoopStar" = some _ := rfl
  exact (performs_wrapped_iff found rfl rfl).trans
    (performs_choice_iff.trans (or_congr performs_skip_iff performs_grouped_iff))

/-- A counted loop without alternatives makes the next run, unless the counter has run out. -/
theorem performs_boundedLoop_iff {count : Term} {value : Int}
    (known : meaning.number count = some value) :
    Performs meaning (callAround "BoundedLoop" [count] body) word ended ↔
      if 0 < value then
        Performs meaning (.andThen body (callAround "BoundedLoop" [count.lessOne] body)) word ended
      else
        word = [] := by
  have found : Library.definitionOf "BoundedLoop" = some _ := rfl
  refine (performs_wrapped_iff found rfl rfl).trans
    ((performs_conditional_iff (Meaning.truth_positive known)).trans ?_)
  by_cases more : 0 < value
  · simp only [more, decide_true, if_true]
    rfl
  · simp only [more, decide_false, if_false, Bool.false_eq_true]
    exact performs_skip_iff

/-- A counted loop with an upper limit stops, or makes the next run. -/
theorem performs_boundedLoopUpper_iff {count : Term} {value : Int}
    (known : meaning.number count = some value) :
    Performs meaning (callAround "BoundedLoopUpper" [count] body) word ended ↔
      word = [] ∨ (0 < value ∧
        Performs meaning
          (.andThen body (callAround "BoundedLoopUpper" [count.lessOne] body)) word ended) := by
  have found : Library.definitionOf "BoundedLoopUpper" = some _ := rfl
  refine (performs_wrapped_iff found rfl rfl).trans
    ((performs_conditional_iff (Meaning.truth_positive known)).trans ?_)
  by_cases more : 0 < value
  · simp only [more, decide_true, if_true, true_and]
    exact performs_choice_iff.trans (or_congr performs_skip_iff performs_grouped_iff)
  · simp only [more, decide_false, if_false, Bool.false_eq_true, false_and, or_false]
    exact performs_skip_iff

theorem performs_boundedLoopLower_iff {count : Term} :
    Performs meaning (callAround "BoundedLoopLower" [count] body) word ended ↔
      Performs meaning
        (.andThen (callAround "BoundedLoop" [count] body) (callAround "LoopStar" [] body))
        word ended := by
  have found : Library.definitionOf "BoundedLoopLower" = some _ := rfl
  exact performs_wrapped_iff found rfl rfl

theorem performs_boundedLoopRange_iff {lower upper : Term} :
    Performs meaning (callAround "BoundedLoopRange" [lower, upper] body) word ended ↔
      Performs meaning
        (.andThen (callAround "BoundedLoop" [lower] body)
          (callAround "BoundedLoopUpper" [.binary .sub upper lower] body))
        word ended := by
  have found : Library.definitionOf "BoundedLoopRange" = some _ := rfl
  exact performs_wrapped_iff found rfl rfl

/-- The endless loop does not end: there is no last call. -/
theorem not_completes_loop : ¬ Completes meaning (callAround "Loop" [] body) word := by
  -- Calls pass through these two processes, and each has ended only if the next one has.
  suffices unending : ∀ {process : Behaviour} {word : List String} {ended : Bool},
      Performs meaning process word ended →
        process = callAround "Loop" [] body ∨ process = .andThen body (callAround "Loop" [] body) →
          ended = false by
    intro completes
    cases unending completes (.inl rfl)
  intro process word ended performs
  induction performs with
  | start | first =>
      intro _
      rfl
  | second _ _ _ inductionHypothesis =>
      rintro (equal | equal) <;> cases equal
      exact inductionHypothesis (.inl rfl)
  | wrapped found _ _ _ inductionHypothesis =>
      rintro (equal | equal) <;> cases equal
      cases found
      exact inductionHypothesis (.inr rfl)
  | _ =>
      rintro (equal | equal) <;> cases equal

/-- The starred loop makes any number of runs. -/
theorem completes_loopStar_iff :
    Completes meaning (callAround "LoopStar" [] body) word ↔
      ∃ times, Repeats (Completes meaning body) times word := by
  constructor
  · -- Again calls pass through a few processes, each a step further in the definition.
    suffices counted : ∀ {process : Behaviour} {word : List String} {ended : Bool},
        Performs meaning process word ended → ended = true →
          process = callAround "LoopStar" [] body ∨
            process = .andThen body (callAround "LoopStar" [] body) ∨
            process = .grouped (.andThen body (callAround "LoopStar" [] body)) ∨
            process = Library.either .skip
              (.grouped (.andThen body (callAround "LoopStar" [] body))) →
          ∃ times, Repeats (Completes meaning body) times word by
      intro completes
      exact counted completes rfl (.inl rfl)
    intro process word ended performs isEnd
    induction performs with
    | start | first =>
        cases isEnd
    | second isRun _ _ inductionHypothesis =>
        rintro (equal | equal | equal | equal) <;> cases equal
        obtain ⟨times, repeats⟩ := inductionHypothesis isEnd (.inl rfl)
        exact ⟨times + 1, .succ isRun repeats⟩
    | grouped _ inductionHypothesis =>
        rintro (equal | equal | equal | equal) <;> cases equal
        exact inductionHypothesis isEnd (.inr (.inl rfl))
    | left _ inLeft _ =>
        rintro (equal | equal | equal | equal) <;> cases equal
        obtain rfl := performs_skip_iff.mp inLeft
        exact ⟨0, .zero⟩
    | right _ _ inductionHypothesis =>
        rintro (equal | equal | equal | equal) <;> cases equal
        exact inductionHypothesis isEnd (.inr (.inr (.inl rfl)))
    | wrapped found _ _ _ inductionHypothesis =>
        rintro (equal | equal | equal | equal) <;> cases equal
        cases found
        exact inductionHypothesis isEnd (.inr (.inr (.inr rfl)))
    | _ =>
        rintro (equal | equal | equal | equal) <;> cases equal
  · rintro ⟨times, repeats⟩
    induction repeats with
    | zero =>
        exact performs_loopStar_iff.mpr (.inl rfl)
    | succ isRun _ inductionHypothesis =>
        exact performs_loopStar_iff.mpr (.inr (.second isRun inductionHypothesis))

/-- A counted loop without alternatives makes all of its runs. -/
theorem completes_boundedLoop_iff {count : Term} {value : Int}
    (known : meaning.number count = some value) :
    Completes meaning (callAround "BoundedLoop" [count] body) word ↔
      Repeats (Completes meaning body) value.toNat word := by
  generalize remaining : value.toNat = times
  induction times generalizing count value word with
  | zero =>
      have done : ¬ 0 < value := by omega
      rw [Completes, performs_boundedLoop_iff known, if_neg done, Repeats.zero_iff]
  | succ times inductionHypothesis =>
      have more : 0 < value := by omega
      have later : (value - 1).toNat = times := by omega
      rw [Completes, performs_boundedLoop_iff known, if_pos more, performs_andThen_true_iff,
        Repeats.succ_iff]
      simp only [← inductionHypothesis (Meaning.number_lessOne known) later, Completes]

/-- A counted loop with an upper limit makes any number of runs within it. -/
theorem completes_boundedLoopUpper_iff {count : Term} {value : Int}
    (known : meaning.number count = some value) :
    Completes meaning (callAround "BoundedLoopUpper" [count] body) word ↔
      ∃ times ≤ value.toNat, Repeats (Completes meaning body) times word := by
  generalize remaining : value.toNat = limit
  induction limit generalizing count value word with
  | zero =>
      have done : ¬ 0 < value := by omega
      rw [Completes, performs_boundedLoopUpper_iff known]
      simp [done]
  | succ limit inductionHypothesis =>
      have more : 0 < value := by omega
      have later : (value - 1).toNat = limit := by omega
      have next := fun rest : List String =>
        @inductionHypothesis rest _ _ (Meaning.number_lessOne known) later
      rw [Completes, performs_boundedLoopUpper_iff known, performs_andThen_true_iff]
      constructor
      · rintro (rfl | ⟨_, first, rest, rfl, isRun, afterRun⟩)
        · exact ⟨0, Nat.zero_le _, .zero⟩
        · obtain ⟨times, within, repeats⟩ := (next rest).mp afterRun
          exact ⟨times + 1, Nat.succ_le_succ within, .succ isRun repeats⟩
      · rintro ⟨_ | times, within, repeats⟩
        · exact .inl (Repeats.zero_iff.mp repeats)
        · obtain ⟨first, rest, rfl, isRun, others⟩ := Repeats.succ_iff.mp repeats
          exact .inr ⟨more, first, rest, rfl, isRun,
            (next rest).mpr ⟨times, Nat.le_of_succ_le_succ within, others⟩⟩

/-- A loop with a lower limit makes all runs up to it, and any number of others. -/
theorem completes_boundedLoopLower_iff {count : Term} {least : Nat}
    (known : meaning.number count = some least) :
    Completes meaning (callAround "BoundedLoopLower" [count] body) word ↔
      ∃ times, least ≤ times ∧ Repeats (Completes meaning body) times word := by
  rw [Completes, performs_boundedLoopLower_iff, performs_andThen_true_iff]
  have parts := @Repeats.exists_add_iff (Completes meaning body) word least fun _ => True
  simp only [true_and, and_true] at parts
  rw [← parts]
  refine exists_congr fun before => exists_congr fun after => and_congr_right fun _ => ?_
  exact and_congr (completes_boundedLoop_iff known) completes_loopStar_iff

/-- A loop with two limits makes all runs up to the lower one, and others up to the upper one. -/
theorem completes_boundedLoopRange_iff {lower upper : Term} {least most : Nat}
    (lowerKnown : meaning.number lower = some least)
    (upperKnown : meaning.number upper = some most) :
    Completes meaning (callAround "BoundedLoopRange" [lower, upper] body) word ↔
      ∃ times, (least ≤ times ∧ times ≤ max least most) ∧
        Repeats (Completes meaning body) times word := by
  have rest : meaning.number (.binary .sub upper lower) = some ((most : Int) - least) :=
    meaning.number_sub upperKnown lowerKnown
  rw [Completes, performs_boundedLoopRange_iff, performs_andThen_true_iff]
  trans ∃ times, (least ≤ times ∧ times - least ≤ ((most : Int) - least).toNat) ∧
    Repeats (Completes meaning body) times word
  · rw [← @Repeats.exists_add_iff _ _ _ fun others => others ≤ ((most : Int) - least).toNat]
    refine exists_congr fun before => exists_congr fun after => and_congr_right fun _ => ?_
    exact and_congr (completes_boundedLoop_iff lowerKnown) (completes_boundedLoopUpper_iff rest)
  · refine exists_congr fun times => and_congr_left fun _ => and_congr_right fun enough => ?_
    omega

/-- Only the value of the counter matters. -/
theorem performs_boundedLoopUpper_congr {count other : Term} {value : Int}
    (known : meaning.number count = some value) (otherKnown : meaning.number other = some value) :
    Performs meaning (callAround "BoundedLoopUpper" [count] body) word ended ↔
      Performs meaning (callAround "BoundedLoopUpper" [other] body) word ended := by
  generalize remaining : value.toNat = limit
  induction limit generalizing count other value word with
  | zero =>
      have done : ¬ 0 < value := by omega
      simp only [performs_boundedLoopUpper_iff known, performs_boundedLoopUpper_iff otherKnown,
        done, false_and]
  | succ limit inductionHypothesis =>
      have later : (value - 1).toNat = limit := by omega
      have next := fun rest : List String => @inductionHypothesis rest _ _ _
        (Meaning.number_lessOne known) (Meaning.number_lessOne otherKnown) later
      simp only [performs_boundedLoopUpper_iff known, performs_boundedLoopUpper_iff otherKnown,
        performs_andThen_iff, next]

/-- With zero as its lower limit, a loop with two limits is one with an upper limit. -/
theorem performs_boundedLoopRange_zero_iff {upper : Term} {value : Int}
    (known : meaning.number upper = some value) :
    Performs meaning (callAround "BoundedLoopRange" [.natural 0, upper] body) word ended ↔
      Performs meaning (callAround "BoundedLoopUpper" [upper] body) word ended := by
  have zero : meaning.number (.natural 0) = some (0 : Int) := meaning.number_natural 0
  have rest : meaning.number (.binary .sub upper (.natural 0)) = some value := by
    simpa using meaning.number_sub known zero
  rw [performs_boundedLoopRange_iff, performs_andThen_iff,
    ← performs_boundedLoopUpper_congr rest known]
  simp only [performs_boundedLoop_iff zero, Int.lt_irrefl, if_false]
  constructor
  · rintro (⟨rfl, rfl⟩ | ⟨_, after, rfl, rfl, inUpper⟩)
    · exact .start _
    · exact inUpper
  · intro inUpper
    exact .inr ⟨[], word, rfl, rfl, inUpper⟩

/-- The literal zero has zero as its term. -/
theorem Expression.term_of_isZero {expression : Expression} (specification : Specification)
    (zero : expression.isZero = .ok true) :
    expression.term specification = .ok (.natural 0) := by
  induction expression with
  | natural value =>
      have isZero : value = 0 := by simpa [Expression.isZero] using zero
      rw [isZero]
      rfl
  | deferred content inductionHypothesis =>
      exact inductionHypothesis () zero
  | _ =>
      cases zero

/-! ## The loops that headers choose -/

/-- The numbers of runs that the sides of a bound allow: no number without any bound, and
exactly the upper one if it stands alone. -/
def AllowedTimes : Option Nat → Option Nat → Nat → Prop
  | none, none, _ => False
  | some lower, none, times => lower ≤ times
  | none, some upper, times => times = upper
  | some lower, some upper, times => lower ≤ times ∧ times ≤ max lower upper

/-- Every body can run exactly so many times under the header, which ends then. -/
def Header.LetsRepeat (header : Header) (meaning : Meaning) (times : Nat) : Prop :=
  ∀ body word, Repeats (Completes meaning body) times word →
    Completes meaning (header.around body) word

variable {header : Header}

/-- The runs under a header can be told apart by a body that performs one event. -/
theorem Header.letsRepeat_iff {allowed : Nat → Prop}
    (completes : ∀ body word, Completes meaning (header.around body) word ↔
      ∃ times, allowed times ∧ Repeats (Completes meaning body) times word) (times : Nat) :
    header.LetsRepeat meaning times ↔ allowed times := by
  constructor
  · intro lets
    have runs : Completes meaning Library.ending = fun word => word = [finish] := by
      funext word
      simp [Completes, Library.ending, Event.text]
    have repeats := Repeats.iff_replicate.mpr (Eq.refl (List.replicate times finish))
    rw [← runs] at repeats
    obtain ⟨others, isAllowed, otherRuns⟩ := (completes _ _).mp (lets _ _ repeats)
    rw [runs, Repeats.iff_replicate] at otherRuns
    have same : times = others := by simpa using congrArg List.length otherRuns
    exact same ▸ isAllowed
  · intro isAllowed body word repeats
    exact (completes body word).mpr ⟨times, isAllowed, repeats⟩

namespace Specification

variable {specification : Specification} {diagram : Diagram} {bound : Option Bound}
  {lower upper : Option Nat}

/-- What ends under the header of a loop are the allowed numbers of runs. -/
theorem completes_loopHeader_iff
    (made : specification.loopHeader diagram bound = .ok header)
    (lowerKnown : Option.Rel (specification.HasNumber diagram meaning)
      (bound.bind Bound.lower) lower)
    (upperKnown : Option.Rel (specification.HasNumber diagram meaning)
      (bound.bind Bound.upper) upper) :
    Completes meaning (header.around body) word ↔
      ∃ times, AllowedTimes lower upper times ∧ Repeats (Completes meaning body) times word := by
  match bound, made, lowerKnown, upperKnown with
  | none, made, .none, .none =>
      cases made
      simpa [Header.around_callOn, AllowedTimes] using not_completes_loop
  | some ⟨some first, none⟩, made, .some ⟨term, isTerm, known⟩, .none =>
      simp only [loopHeader, isTerm] at made
      cases made
      exact completes_boundedLoopLower_iff known
  | some ⟨none, some last⟩, made, .none, .some ⟨term, isTerm, known⟩ =>
      simp only [loopHeader, isTerm] at made
      cases made
      simpa [Header.around_callOn, AllowedTimes] using completes_boundedLoop_iff known
  | some ⟨some first, some last⟩, made, .some ⟨term, isTerm, known⟩,
      .some ⟨otherTerm, isOther, otherKnown⟩ =>
      obtain ⟨fromZero, decided, made⟩ := bind_eq_ok_iff.mp made
      cases fromZero with
      | true =>
          have isNatural := isTerm.symm.trans (Expression.term_of_isZero specification decided)
          obtain rfl := Except.ok.inj isNatural
          simp only [isOther] at made
          cases made
          have isZero := known.symm.trans (meaning.number_natural 0)
          obtain rfl := Int.ofNat.inj (Option.some.inj isZero)
          simpa [Header.around_callOn, AllowedTimes] using
            completes_boundedLoopUpper_iff otherKnown
      | false =>
          simp only [isTerm, isOther] at made
          cases made
          exact completes_boundedLoopRange_iff known otherKnown

/-- A loop runs its body as often as its bound allows: at least the lower side, exactly an upper
side that stands alone, and with both sides any number from the lower one up to the larger one.
Without a bound it does not end.  The loop that is chosen for a literal zero behaves like the
general one. -/
theorem loops_end_after_allowed_times
    (made : specification.loopHeader diagram bound = .ok header)
    (lowerKnown : Option.Rel (specification.HasNumber diagram meaning)
      (bound.bind Bound.lower) lower)
    (upperKnown : Option.Rel (specification.HasNumber diagram meaning)
      (bound.bind Bound.upper) upper) :
    (∀ times, header.LetsRepeat meaning times ↔ AllowedTimes lower upper times) ∧
      (∀ body word, Completes meaning (header.around body) word ↔
        ∃ times, AllowedTimes lower upper times ∧ Repeats (Completes meaning body) times word) ∧
      ∀ (term : Term) (value : Nat), meaning.number term = some value → ∀ body word ended,
        Performs meaning ((Header.callOn "BoundedLoopUpper" [term]).around body) word ended ↔
          Performs meaning ((Header.callOn "BoundedLoopRange" [.natural 0, term]).around body)
            word ended := by
  have completes := fun body word =>
    @completes_loopHeader_iff _ body word _ _ _ _ _ _ made lowerKnown upperKnown
  refine ⟨Header.letsRepeat_iff completes, completes, ?_⟩
  intro term value known body word ended
  exact (performs_boundedLoopRange_zero_iff known).symm

end Specification

def laps : Specification :=
  { Specification.empty "Laps" with constants := #[⟨"extra", "Race::extra"⟩] }

/-- A race of two laps at least, and of some extra laps on top of these at most. -/
def race : Diagram where
  name := "Race"
  body := [⟨0⟩]
  lifelines := []
  locals := []
  fragments := #[.loop (some ⟨some ⟨0⟩, some ⟨2⟩⟩) ⟨1⟩, .operand none []]
  expressions := #[.natural 2, .const ⟨0⟩, .binary .add ⟨1⟩ ⟨0⟩]
  locations := []

def raceMeaning : Meaning :=
  .counting (fun name => if name = "Race::extra" then some 3 else none)
    fun name word _ => name = "Lap" ∧ word = ["lap"]

theorem loops_end_after_allowed_times_race :
    let header : Header := .callOn "BoundedLoopRange"
      [.natural 2, .binary .add (.name "Race::extra") (.natural 2)]
    laps.loopHeader race (some ⟨some ⟨0⟩, some ⟨2⟩⟩) = .ok header ∧
      (∀ times, header.LetsRepeat raceMeaning times ↔ 2 ≤ times ∧ times ≤ 5) ∧
      Completes raceMeaning (header.around (.named "Lap")) ["lap", "lap", "lap"] := by
  have made : laps.loopHeader race (some ⟨some ⟨0⟩, some ⟨2⟩⟩) = .ok _ := rfl
  have lower : laps.HasNumber race raceMeaning ⟨0⟩ 2 := ⟨_, rfl, rfl⟩
  have upper : laps.HasNumber race raceMeaning ⟨2⟩ 5 := ⟨_, rfl, rfl⟩
  obtain ⟨lets, completes, _⟩ :=
    Specification.loops_end_after_allowed_times made (.some lower) (.some upper)
  have lap : Completes raceMeaning (.named "Lap") ["lap"] := .given rfl ⟨rfl, rfl⟩
  have threeLaps : Repeats (Completes raceMeaning (.named "Lap")) 3 ["lap", "lap", "lap"] :=
    .succ lap (.succ lap (.succ lap .zero))
  exact ⟨made, lets, (completes _ _).mpr ⟨3, by simp [AllowedTimes], threeLaps⟩⟩

end SequenceChart
