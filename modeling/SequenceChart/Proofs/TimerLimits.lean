import SequenceChart.Proofs.LoopRepetitions

/-!
# When timers let a process finish

A timer counts `tock` and takes part in `finish` when enough time has passed, and not too
much.  Timers are built from a few constructs, and each of them turns limits of its parts
into limits of its own.  A process that runs under a timer ends within the limits.
-/

namespace SequenceChart

/-- A timer that has done its part: it took part in `finish`, or it ended. -/
def Finished (word : List String) (ended : Bool) : Prop :=
  finish ∈ word ∨ ended = true

/-- The word of a timer that takes part in `finish` after some units of time. -/
def finishAfter (tocks : Nat) : List String :=
  List.replicate tocks tock ++ [finish]

/-- Once it has done its part, the process has let an allowed number of units of time pass and
taken part in `finish`, and it has done nothing else. -/
def IsTimer (meaning : Meaning) (timer : Behaviour) (allowed : Nat → Prop) : Prop :=
  ∀ word ended, Finished word ended →
    (Performs meaning timer word ended ↔ ∃ tocks, allowed tocks ∧ word = finishAfter tocks)

variable {meaning : Meaning} {body : Behaviour} {word : List String} {ended : Bool}

private theorem finished_finishAfter (tocks : Nat) (ended : Bool) :
    Finished (finishAfter tocks) ended :=
  .inl (by simp [finishAfter])

private theorem finishAfter_injective {tocks others : Nat}
    (same : finishAfter tocks = finishAfter others) :
    tocks = others := by
  simpa [finishAfter] using congrArg List.length same

/-- A timer that has done its part has started. -/
theorem Finished.not_start (finished : Finished word ended) : ¬ (word = [] ∧ ended = false) := by
  rintro ⟨rfl, rfl⟩
  rcases finished with member | isEnd
  · cases member
  · cases isEnd

@[simp]
theorem finished_tock_cons_iff : Finished (tock :: word) ended ↔ Finished word ended := by
  have apart : finish ≠ tock := by decide
  simp [Finished, apart]

namespace IsTimer

variable {timer left right : Behaviour} {allowed others : Nat → Prop}

/-- A timer can finish after exactly the allowed numbers of units. -/
theorem performs_finishAfter_iff (isTimer : IsTimer meaning timer allowed) {tocks : Nat} :
    Performs meaning timer (finishAfter tocks) ended ↔ allowed tocks := by
  rw [isTimer _ _ (finished_finishAfter tocks ended)]
  constructor
  · rintro ⟨others, isAllowed, same⟩
    exact finishAfter_injective same ▸ isAllowed
  · intro isAllowed
    exact ⟨tocks, isAllowed, rfl⟩

private theorem congr (isTimer : IsTimer meaning timer allowed)
    (same : ∀ tocks, allowed tocks ↔ others tocks) : IsTimer meaning timer others := by
  intro word ended finished
  simp only [isTimer word ended finished, same]

/-- Processes with the same words are timers with the same limits. -/
theorem of_iff (isTimer : IsTimer meaning timer allowed)
    (same : ∀ word ended, Performs meaning left word ended ↔ Performs meaning timer word ended) :
    IsTimer meaning left allowed := by
  intro word ended finished
  rw [same, isTimer word ended finished]

private theorem ending : IsTimer meaning Library.ending fun tocks => tocks = 0 := by
  intro word ended finished
  simp only [Library.ending, performs_perform_iff, performs_skip_iff, exists_eq_left]
  constructor
  · rintro (start | ⟨_, rfl, rfl⟩)
    · exact (finished.not_start start).elim
    · rfl
  · rintro rfl
    exact .inr ⟨[], rfl, rfl⟩

/-- A unit of time goes by first. -/
theorem afterTock (isTimer : IsTimer meaning timer allowed) :
    IsTimer meaning (Library.afterTock timer) fun tocks => 0 < tocks ∧ allowed (tocks - 1) := by
  intro word ended finished
  simp only [Library.afterTock, performs_perform_iff]
  constructor
  · rintro (start | ⟨rest, rfl, later⟩)
    · exact (finished.not_start start).elim
    · obtain ⟨tocks, isAllowed, rfl⟩ :=
        (isTimer rest ended (finished_tock_cons_iff.mp finished)).mp later
      exact ⟨tocks + 1, ⟨Nat.succ_pos _, isAllowed⟩, rfl⟩
  · rintro ⟨_ | tocks, ⟨positive, isAllowed⟩, rfl⟩
    · cases positive
    · exact .inr ⟨_, rfl, isTimer.performs_finishAfter_iff.mpr isAllowed⟩

private theorem either (first : IsTimer meaning left allowed)
    (second : IsTimer meaning right others) :
    IsTimer meaning (Library.either left right) fun tocks => allowed tocks ∨ others tocks := by
  intro word ended finished
  rw [Library.either, performs_choice_iff, first word ended finished,
    second word ended finished, ← exists_or]
  simp only [or_and_right]

private theorem guarded_true {condition : Term} (known : meaning.truth condition = some true)
    (isTimer : IsTimer meaning timer allowed) :
    IsTimer meaning (.guarded condition timer) allowed := by
  intro word ended finished
  simp only [performs_guarded_iff known, finished.not_start, true_and, false_or,
    isTimer word ended finished]

/-- A process that is not let in never finishes. -/
theorem guarded_false {condition : Term} (body : Behaviour)
    (known : meaning.truth condition = some false) :
    IsTimer meaning (.guarded condition body) fun _ => False := by
  intro word ended finished
  simp [performs_guarded_iff known, finished.not_start]

private theorem grouped (isTimer : IsTimer meaning timer allowed) :
    IsTimer meaning (.grouped timer) allowed :=
  isTimer.of_iff fun _ _ => performs_grouped_iff

private theorem conditional {condition : Term} {holds : Bool}
    (known : meaning.truth condition = some holds)
    (isTimer : IsTimer meaning (if holds then left else right) allowed) :
    IsTimer meaning (.conditional condition left right) allowed :=
  isTimer.of_iff fun _ _ => performs_conditional_iff known

end IsTimer

theorem performs_finished_iff :
    Performs meaning .finished word ended ↔
      Performs meaning (.idle Library.ending) word ended := by
  have found : Library.definitionOf "Finish" = some _ := rfl
  exact performs_named_iff found rfl rfl

theorem performs_idle_iff :
    Performs meaning (.idle body) word ended ↔
      Performs meaning (Library.either body (Library.afterTock (.idle body))) word ended := by
  have found : Library.definitionOf "Idle" = some _ := rfl
  exact performs_wrapped_iff found rfl rfl

variable {count lower upper : Term}

theorem performs_wait_iff :
    Performs meaning (Library.call "WAIT" [count]) word ended ↔
      Performs meaning
        (.conditional count.positive
          (Library.afterTock (Library.call "WAIT" [count.lessOne])) .skip) word ended := by
  have found : Library.definitionOf "WAIT" = some _ := rfl
  exact performs_applied_iff found rfl rfl

theorem performs_atLeast_iff :
    Performs meaning (Library.call "AtLeast" [count]) word ended ↔
      Performs meaning
        (.conditional count.positive
          (Library.afterTock (Library.call "AtLeast" [count.lessOne])) .finished) word ended := by
  have found : Library.definitionOf "AtLeast" = some _ := rfl
  exact performs_applied_iff found rfl rfl

theorem performs_atMost_iff :
    Performs meaning (Library.call "AtMost" [count]) word ended ↔
      Performs meaning
        (Library.either Library.ending
          (.grouped (.guarded count.positive
            (Library.afterTock (Library.call "AtMost" [count.lessOne]))))) word ended := by
  have found : Library.definitionOf "AtMost" = some _ := rfl
  exact performs_applied_iff found rfl rfl

theorem performs_between_iff :
    Performs meaning (Library.call "Between" [lower, upper]) word ended ↔
      Performs meaning
        (.conditional lower.positive
          (Library.afterTock (Library.call "Between" [lower.lessOne, upper.lessOne]))
          (Library.call "AtMost" [upper])) word ended := by
  have found : Library.definitionOf "Between" = some _ := rfl
  exact performs_applied_iff found rfl rfl

/-- The end may come at any time. -/
theorem isTimer_finished : IsTimer meaning .finished fun _ => True := by
  have step : ∀ {word : List String} {ended : Bool}, Finished word ended →
      (Performs meaning (.idle Library.ending) word ended ↔ word = [finish] ∨
        ∃ rest, word = tock :: rest ∧ Performs meaning (.idle Library.ending) rest ended) := by
    intro word ended finished
    have last : Performs meaning Library.ending word ended ↔ word = [finish] := by
      simpa [finishAfter] using IsTimer.ending word ended finished
    rw [performs_idle_iff, Library.either, performs_choice_iff, last, Library.afterTock,
      performs_perform_iff]
    simp only [finished.not_start, false_or]
    rfl
  intro word ended finished
  simp only [performs_finished_iff, true_and]
  constructor
  · intro performs
    induction word with
    | nil =>
        simpa using (step finished).mp performs
    | cons event rest inductionHypothesis =>
        rcases (step finished).mp performs with isLast | ⟨_, ⟨⟩, later⟩
        · exact ⟨0, isLast⟩
        · obtain ⟨tocks, rfl⟩ := inductionHypothesis (finished_tock_cons_iff.mp finished) later
          exact ⟨tocks + 1, rfl⟩
  · rintro ⟨tocks, rfl⟩
    induction tocks with
    | zero =>
        exact (step finished).mpr (.inl rfl)
    | succ tocks inductionHypothesis =>
        have later := inductionHypothesis (finished_tock_cons_iff.mp finished)
        exact (step finished).mpr (.inr ⟨_, rfl, later⟩)

/-- The counter runs down before the end may come. -/
theorem isTimer_atLeast {value : Int} (known : meaning.number count = some value) :
    IsTimer meaning (Library.call "AtLeast" [count]) fun tocks => value.toNat ≤ tocks := by
  generalize remaining : value.toNat = least
  induction least generalizing count value with
  | zero =>
      have done : ¬ 0 < value := by omega
      refine IsTimer.of_iff (.conditional (Meaning.truth_positive known) ?_)
        fun _ _ => performs_atLeast_iff
      simpa [done] using isTimer_finished
  | succ least inductionHypothesis =>
      have more : 0 < value := by omega
      have later := inductionHypothesis (Meaning.number_lessOne known) (by omega)
      have whole := later.afterTock.congr fun tocks =>
        show 0 < tocks ∧ least ≤ tocks - 1 ↔ least + 1 ≤ tocks by omega
      refine IsTimer.of_iff (.conditional (Meaning.truth_positive known) ?_)
        fun _ _ => performs_atLeast_iff
      rw [if_pos (decide_eq_true more)]
      exact whole

/-- The end may come until the counter has run down. -/
theorem isTimer_atMost {value : Int} (known : meaning.number count = some value) :
    IsTimer meaning (Library.call "AtMost" [count]) fun tocks => tocks ≤ value.toNat := by
  have tested := Meaning.truth_positive known
  generalize remaining : value.toNat = most
  induction most generalizing count value with
  | zero =>
      have done : ¬ 0 < value := by omega
      simp only [done, decide_false] at tested
      refine (IsTimer.of_iff (.either .ending (.grouped (.guarded_false _ tested)))
        fun _ _ => performs_atMost_iff).congr fun tocks => ?_
      simp
  | succ most inductionHypothesis =>
      have more : 0 < value := by omega
      simp only [more, decide_true] at tested
      have known := Meaning.number_lessOne known
      have later := inductionHypothesis known (Meaning.truth_positive known) (by omega)
      refine (IsTimer.of_iff (.either .ending (.grouped (.guarded_true tested later.afterTock)))
        fun _ _ => performs_atMost_iff).congr fun tocks => ?_
      omega

/-- The first counter runs down before the end may come, and the second one goes along. -/
theorem isTimer_between {least : Nat} {value : Int}
    (lowerKnown : meaning.number lower = some least)
    (upperKnown : meaning.number upper = some value) :
    IsTimer meaning (Library.call "Between" [lower, upper])
      fun tocks => least ≤ tocks ∧ tocks ≤ max least value.toNat := by
  have tested := Meaning.truth_positive lowerKnown
  induction least generalizing lower upper value with
  | zero =>
      refine (IsTimer.of_iff (.conditional tested (isTimer_atMost upperKnown))
        fun _ _ => performs_between_iff).congr fun tocks => ?_
      simp
  | succ least inductionHypothesis =>
      have lowerKnown : meaning.number lower.lessOne = some (least : Int) := by
        simpa using Meaning.number_lessOne lowerKnown
      have later := inductionHypothesis lowerKnown (Meaning.number_lessOne upperKnown)
        (Meaning.truth_positive lowerKnown)
      have more : (0 : Int) < (least + 1 : Nat) := by omega
      simp only [more, decide_true] at tested
      refine (IsTimer.of_iff (.conditional tested later.afterTock)
        fun _ _ => performs_between_iff).congr fun tocks => ?_
      omega

/-- `WAIT` lets exactly the given time pass, and ends then. -/
theorem performs_wait_iff_replicate {value : Nat} (known : meaning.number count = some value) :
    Performs meaning (Library.call "WAIT" [count]) word ended ↔
      ∃ tocks ≤ value, word = List.replicate tocks tock ∧ (ended = true → tocks = value) := by
  induction value generalizing count word with
  | zero =>
      rw [performs_wait_iff, performs_conditional_iff (Meaning.truth_positive known)]
      simp
  | succ value inductionHypothesis =>
      have lessKnown : meaning.number count.lessOne = some (value : Int) := by
        simpa using Meaning.number_lessOne known
      have more : (0 : Int) < (value + 1 : Nat) := by omega
      rw [performs_wait_iff, performs_conditional_iff (Meaning.truth_positive known)]
      simp only [more, decide_true, if_true, Library.afterTock, performs_perform_iff,
        inductionHypothesis lessKnown]
      constructor
      · rintro (⟨rfl, rfl⟩ | ⟨_, rfl, tocks, within, rfl, atEnd⟩)
        · exact ⟨0, Nat.zero_le _, rfl, fun isEnd => by cases isEnd⟩
        · exact ⟨tocks + 1, Nat.succ_le_succ within, rfl, fun isEnd => by rw [atEnd isEnd]⟩
      · rintro ⟨_ | tocks, within, rfl, atEnd⟩
        · refine .inl ⟨rfl, ?_⟩
          cases ended with
          | false =>
              rfl
          | true =>
              cases atEnd rfl
        · exact .inr ⟨_, rfl, tocks, Nat.le_of_succ_le_succ within, rfl,
            fun isEnd => Nat.succ.inj (atEnd isEnd)⟩

/-! ## Processes under a timer -/

/-- A process under a timer: time passes for both, and they finish together. -/
def timed (timer body : Behaviour) : Behaviour :=
  .hiding
    (.grouped
      (.synchronised (.grouped (.andThen body .finished)) (.members [tock, finish]) timer))
    (.members [finish])

/-- A process that finishes has run to its end and may then have waited. -/
theorem completes_andThen_finished_iff :
    Completes meaning (.andThen body .finished) word ↔
      ∃ run wait, Completes meaning body run ∧ word = run ++ finishAfter wait := by
  have atEnd : ∀ after,
      Performs meaning .finished after true ↔ ∃ wait, after = finishAfter wait := by
    intro after
    simpa using isTimer_finished after true (.inr rfl)
  rw [Completes, performs_andThen_true_iff]
  constructor
  · rintro ⟨run, after, rfl, inBody, inFinish⟩
    obtain ⟨wait, rfl⟩ := (atEnd after).mp inFinish
    exact ⟨run, wait, inBody, rfl⟩
  · rintro ⟨run, wait, inBody, rfl⟩
    exact ⟨run, _, rfl, inBody, (atEnd _).mpr ⟨wait, rfl⟩⟩

/-- What the timer takes part in, if the process does not perform `finish` by itself. -/
theorem filter_append_finishAfter {run : List String} (silent : finish ∉ run) (wait : Nat) :
    ((run ++ finishAfter wait).filter fun event => event ∈ [tock, finish]) =
      finishAfter (run.count tock + wait) := by
  have counted : (run.filter fun event => event ∈ [tock, finish]) =
      List.replicate (run.count tock) tock := by
    rw [← List.filter_eq]
    refine List.filter_congr fun event member => ?_
    have other : event ≠ finish := fun same => silent (same ▸ member)
    simp [other]
  have waited : ((finishAfter wait).filter fun event => event ∈ [tock, finish]) =
      finishAfter wait := by
    simp [finishAfter]
  rw [List.filter_append, counted, waited, finishAfter, finishAfter, List.replicate_add,
    List.append_assoc]

/-- What is seen of a process under a timer. -/
theorem filter_hide_finish {run : List String} (silent : finish ∉ run) (wait : Nat) :
    ((run ++ finishAfter wait).filter fun event => event ∉ [finish]) =
      run ++ List.replicate wait tock := by
  have apart : tock ≠ finish := by decide
  have kept : (run.filter fun event => event ∉ [finish]) = run := by
    refine List.filter_eq_self.mpr fun event member => ?_
    have other : event ≠ finish := fun same => silent (same ▸ member)
    simp [other]
  simp only [List.filter_append, kept, finishAfter]
  simp [apart]

/-- A process that ends under a timer has run to its end and may then have waited.  The time
that went by altogether is what the timer allows. -/
theorem IsTimer.completes_timed_iff {timer : Behaviour} {allowed : Nat → Prop}
    (isTimer : IsTimer meaning timer allowed)
    (silent : ∀ run, Completes meaning body run → finish ∉ run) :
    Completes meaning (timed timer body) word ↔
      ∃ run wait, Completes meaning body run ∧ word = run ++ List.replicate wait tock ∧
        allowed (run.count tock + wait) := by
  have within : ∀ tocks, ∀ event ∈ finishAfter tocks, event ∈ [tock, finish] := by
    intro tocks event member
    rcases List.mem_append.mp member with isTock | isFinish
    · simp [List.eq_of_mem_replicate isTock]
    · simp [List.mem_singleton.mp isFinish]
  have shared : (EventSet.members [tock, finish]).listed = some [tock, finish] := rfl
  simp only [Completes, timed, performs_hiding_iff, performs_grouped_iff,
    performs_synchronised_iff shared]
  constructor
  · rintro ⟨whole, ⟨left, right, leftEnded, rightEnded, inLeft, inRight, merge, both⟩, rfl⟩
    obtain ⟨rfl, rfl⟩ : leftEnded = true ∧ rightEnded = true := by
      simpa using both.symm
    obtain ⟨run, wait, inBody, rfl⟩ := completes_andThen_finished_iff.mp inLeft
    obtain ⟨tocks, isAllowed, rfl⟩ := (isTimer right true (.inr rfl)).mp inRight
    obtain ⟨rfl, taken⟩ := (Merge.iff_of_within (within tocks)).mp merge
    rw [filter_append_finishAfter (silent run inBody)] at taken
    refine ⟨run, wait, inBody, filter_hide_finish (silent run inBody) wait, ?_⟩
    exact finishAfter_injective taken ▸ isAllowed
  · rintro ⟨run, wait, inBody, rfl, isAllowed⟩
    have merge := (Merge.iff_of_within (within (run.count tock + wait))).mpr
      ⟨rfl, filter_append_finishAfter (silent run inBody) wait⟩
    refine ⟨_, ⟨_, _, true, true, ?_, ?_, merge, rfl⟩,
      (filter_hide_finish (silent run inBody) wait).symm⟩
    · exact completes_andThen_finished_iff.mpr ⟨run, wait, inBody, rfl⟩
    · exact isTimer.performs_finishAfter_iff.mpr isAllowed

/-- The units of time that the sides of a bound allow. -/
def AllowedTocks : Option Nat → Option Nat → Nat → Prop
  | none, none, _ => True
  | some lower, none, tocks => lower ≤ tocks
  | none, some upper, tocks => tocks ≤ upper
  | some lower, some upper, tocks => lower ≤ tocks ∧ tocks ≤ max lower upper

/-- A header puts the timer around every body. -/
def Header.SetsTimer (header : Header) (meaning : Meaning) (timer : Behaviour) : Prop :=
  ∀ body word ended, Performs meaning (header.around body) word ended ↔
    Performs meaning (timed timer body) word ended

structure Header.Limits (header : Header) (meaning : Meaning) (timer : Behaviour)
    (allowed : Nat → Prop) : Prop where
  around : header.SetsTimer meaning timer
  /-- The timer can perform `finish` after an allowed number of units, and after no other. -/
  finishes : ∀ tocks,
    Performs meaning timer (List.replicate tocks tock ++ [finish]) false ↔ allowed tocks
  /-- A body ends under the header after an allowed number of units, and after no other. -/
  lasts : ∀ body, (∀ run, Completes meaning body run → finish ∉ run) → ∀ word,
    (Completes meaning (header.around body) word ↔
      ∃ run wait, Completes meaning body run ∧ word = run ++ List.replicate wait tock ∧
        allowed (run.count tock + wait))

theorem IsTimer.limits {header : Header} {timer : Behaviour} {allowed : Nat → Prop}
    (isTimer : IsTimer meaning timer allowed) (around : header.SetsTimer meaning timer) :
    header.Limits meaning timer allowed where
  around := around
  finishes _ := isTimer.performs_finishAfter_iff
  lasts body silent word := (around body word true).trans (isTimer.completes_timed_iff silent)

theorem performs_timed_iff {function : String} {terms : List Term} :
    Performs meaning (.wrapped "Timed" [.call function terms] body) word ended ↔
      Performs meaning (timed (Library.call function terms) body) word ended := by
  have found : Library.definitionOf "Timed" = some _ := rfl
  exact performs_wrapped_iff found rfl rfl

private theorem setsTimer_durationLower :
    (Header.callOn "DurationLower" [lower]).SetsTimer meaning
      (Library.call "AtLeast" [lower]) := by
  intro body word ended
  have found : Library.definitionOf "DurationLower" = some _ := rfl
  exact (performs_wrapped_iff found rfl rfl).trans performs_timed_iff

private theorem setsTimer_durationUpper :
    (Header.callOn "DurationUpper" [upper]).SetsTimer meaning
      (Library.call "AtMost" [upper]) := by
  intro body word ended
  have found : Library.definitionOf "DurationUpper" = some _ := rfl
  exact (performs_wrapped_iff found rfl rfl).trans performs_timed_iff

private theorem setsTimer_durationRange :
    (Header.callOn "DurationRange" [lower, upper]).SetsTimer meaning
      (Library.call "Between" [lower, upper]) := by
  intro body word ended
  have found : Library.definitionOf "DurationRange" = some _ := rfl
  exact (performs_wrapped_iff found rfl rfl).trans performs_timed_iff

private theorem setsTimer_deadline :
    (Header.callOn "Deadline" [count]).SetsTimer meaning
      (Library.call "AtMost" [count]) := by
  intro body word ended
  have found : Library.definitionOf "Deadline" = some _ := rfl
  exact (performs_wrapped_iff found rfl rfl).trans performs_timed_iff

namespace Specification

variable {specification : Specification} {diagram : Diagram}

private theorem exists_durationHeader {bound : Bound} {least most : Option Nat}
    (bounded : bound.sides ≠ [])
    (lowerKnown : Option.Rel (specification.HasNumber diagram meaning) bound.lower least)
    (upperKnown : Option.Rel (specification.HasNumber diagram meaning) bound.upper most) :
    ∃ header timer, specification.durationHeader diagram bound = .ok header ∧
      header.Limits meaning timer (AllowedTocks least most) := by
  match bound, bounded, lowerKnown, upperKnown with
  | ⟨none, none⟩, bounded, _, _ =>
      exact (bounded rfl).elim
  | ⟨some _, none⟩, _, .some ⟨term, isTerm, known⟩, .none =>
      refine ⟨_, _, ?_, (isTimer_atLeast known).limits setsTimer_durationLower⟩
      simp only [durationHeader, isTerm]
      rfl
  | ⟨none, some _⟩, _, .none, .some ⟨term, isTerm, known⟩ =>
      refine ⟨_, _, ?_, (isTimer_atMost known).limits setsTimer_durationUpper⟩
      simp only [durationHeader, isTerm]
      rfl
  | ⟨some _, some _⟩, _, .some ⟨term, isTerm, known⟩, .some ⟨other, isOther, otherKnown⟩ =>
      refine ⟨_, _, ?_, (isTimer_between known otherKnown).limits setsTimer_durationRange⟩
      simp only [durationHeader, isTerm, isOther]
      rfl

private theorem exists_deadlineHeader {view : Viewpoint} {owner : ActorId} {units : ExpressionId}
    {most : Nat} (enforced : view.isFor owner = true ∨ diagram.lifelines.length ≤ 1)
    (known : specification.HasNumber diagram meaning units most) :
    ∃ header timer, specification.deadlineHeader diagram view owner units = .ok header ∧
      header.Limits meaning timer fun tocks => tocks ≤ most := by
  obtain ⟨term, isTerm, known⟩ := known
  refine ⟨_, _, ?_, (isTimer_atMost known).limits setsTimer_deadline⟩
  have enforced : (view.isFor owner || diagram.lifelines.length ≤ 1) = true := by
    simpa using enforced
  simp only [deadlineHeader, enforced, isTerm, if_true]
  rfl

/-- Timers let a process finish within the limits of their fragment: not before the lower side
of a duration, and not after its upper side, unless the lower one is larger; and not after a
deadline.  Waiting takes exactly the given time. -/
theorem timers_finish_within_limits (specification : Specification) (diagram : Diagram)
    (meaning : Meaning) :
    (∀ bound least most, bound.sides ≠ [] →
      Option.Rel (specification.HasNumber diagram meaning) bound.lower least →
      Option.Rel (specification.HasNumber diagram meaning) bound.upper most →
      ∃ header timer, specification.durationHeader diagram bound = .ok header ∧
        header.Limits meaning timer (AllowedTocks least most)) ∧
    (∀ view owner units most, view.isFor owner = true ∨ diagram.lifelines.length ≤ 1 →
      specification.HasNumber diagram meaning units most →
      ∃ header timer, specification.deadlineHeader diagram view owner units = .ok header ∧
        header.Limits meaning timer (AllowedTocks none (some most))) ∧
    ∀ (count : Term) (value : Nat), meaning.number count = some value → ∀ word ended,
      (Performs meaning (Library.call "WAIT" [count]) word ended ↔
        ∃ tocks ≤ value, word = List.replicate tocks tock ∧ (ended = true → tocks = value)) := by
  refine ⟨?_, ?_, ?_⟩
  · intro bound least most
    exact exists_durationHeader
  · intro view owner units most
    exact exists_deadlineHeader
  · intro count value known word ended
    exact performs_wait_iff_replicate known

end Specification

theorem timers_finish_within_limits_race :
    (∃ header timer, laps.durationHeader race ⟨some ⟨0⟩, some ⟨2⟩⟩ = .ok header ∧
      header.Limits raceMeaning timer (AllowedTocks (some 2) (some 5))) ∧
    (∃ header timer, laps.deadlineHeader race (.lifeline ⟨1⟩) ⟨1⟩ ⟨2⟩ = .ok header ∧
      header.Limits raceMeaning timer (AllowedTocks none (some 5))) ∧
    Completes raceMeaning (Library.call "WAIT" [.natural 2]) [tock, tock] := by
  have lower : laps.HasNumber race raceMeaning ⟨0⟩ 2 := ⟨_, rfl, rfl⟩
  have upper : laps.HasNumber race raceMeaning ⟨2⟩ 5 := ⟨_, rfl, rfl⟩
  obtain ⟨durations, deadlines, waits⟩ :=
    Specification.timers_finish_within_limits laps race raceMeaning
  refine ⟨durations _ _ _ (by decide) (.some lower) (.some upper), ?_, ?_⟩
  · exact deadlines _ _ _ _ (.inl (by decide)) upper
  · exact (waits _ 2 rfl _ _).mpr ⟨2, Nat.le_refl 2, rfl, fun _ => rfl⟩

end SequenceChart
