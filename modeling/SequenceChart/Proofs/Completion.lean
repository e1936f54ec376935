import SequenceChart.Report.Desk
import Mathlib.Data.List.Forall2

/-!
# Attempts that complete

An attempt completes if it meets no fault, makes notices of an allowed kind
only, and yields a value with a given property.  Completion goes through the
steps of an attempt one by one, so a chain of steps completes if each step
does.  A desk that can take in all allowed notices then carries the attempt
through to its value.

Where only the value matters, `result` is followed instead.
-/

namespace SequenceChart

theorem exists_left_of_mem {α β : Type} {holds : α → β → Prop} {items : List α}
    {values : List β} (related : List.Forall₂ holds items values) {value : β}
    (member : value ∈ values) :
    ∃ item ∈ items, holds item value := by
  induction related with
  | nil =>
      simp at member
  | cons headHolds _ inductionHypothesis =>
      rcases List.mem_cons.mp member with rfl | later
      · exact ⟨_, List.mem_cons_self, headHolds⟩
      · obtain ⟨item, isItem, itemHolds⟩ := inductionHypothesis later
        exact ⟨item, List.mem_cons_of_mem _ isItem, itemHolds⟩

theorem exists_right_of_mem {α β : Type} {holds : α → β → Prop} {items : List α}
    {values : List β} (related : List.Forall₂ holds items values) {item : α}
    (member : item ∈ items) :
    ∃ value ∈ values, holds item value :=
  exists_left_of_mem related.flip member

theorem bind_eq_ok_iff {α β : Type} {first : Except Fault α} {next : α → Except Fault β}
    {value : β} :
    (first >>= next) = .ok value ↔ ∃ middle, first = .ok middle ∧ next middle = .ok value := by
  cases first with
  | error fault =>
      constructor
      · intro equal
        cases equal
      · rintro ⟨_, equal, _⟩
        cases equal
  | ok middle =>
      constructor
      · intro equal
        exact ⟨middle, rfl, equal⟩
      · rintro ⟨_, equal, rest⟩
        cases equal
        exact rest

/-- Two computations in a row succeed if both do. -/
theorem exists_bind_eq_ok {α β : Type} {first : Except Fault α}
    {next : α → Except Fault β}
    (firstSucceeds : ∃ value, first = .ok value)
    (nextSucceeds : ∀ value, first = .ok value → ∃ last, next value = .ok last) :
    ∃ last, (first >>= next) = .ok last := by
  obtain ⟨value, done⟩ := firstSucceeds
  obtain ⟨last, lastDone⟩ := nextSucceeds value done
  exact ⟨last, bind_eq_ok_iff.mpr ⟨value, done, lastDone⟩⟩

@[simp]
theorem pure_eq_ok_iff {α : Type} {given value : α} :
    (pure given : Except Fault α) = .ok value ↔ given = value := by
  constructor
  · intro equal
    cases equal
    rfl
  · rintro rfl
    rfl

/-- Work on a list comes to what it comes to on the items. -/
theorem mapM_eq_ok_iff {α β : Type} {work : α → Except Fault β} {items : List α}
    {values : List β} :
    items.mapM work = .ok values ↔
      List.Forall₂ (fun item value => work item = .ok value) items values := by
  induction items generalizing values with
  | nil =>
      rw [List.mapM_nil, pure_eq_ok_iff, List.forall₂_nil_left_iff, eq_comm]
  | cons item rest inductionHypothesis =>
      simp only [List.mapM_cons, bind_eq_ok_iff, pure_eq_ok_iff, inductionHypothesis,
        List.forall₂_cons_left_iff]
      constructor
      · rintro ⟨value, done, others, restDone, rfl⟩
        exact ⟨value, others, done, restDone, rfl⟩
      · rintro ⟨value, others, done, restDone, rfl⟩
        exact ⟨value, done, others, restDone, rfl⟩

/-- Work that succeeds on every item succeeds on the list. -/
theorem exists_mapM_forall₂ {α β : Type} {work : α → Except Fault β}
    {holds : α → β → Prop} {items : List α}
    (each : ∀ item ∈ items, ∃ value, work item = .ok value ∧ holds item value) :
    ∃ values, items.mapM work = .ok values ∧ List.Forall₂ holds items values := by
  induction items with
  | nil =>
      exact ⟨[], rfl, .nil⟩
  | cons item rest inductionHypothesis =>
      obtain ⟨value, done, good⟩ := each item List.mem_cons_self
      obtain ⟨values, restDone, restGood⟩ := inductionHypothesis fun other member =>
        each other (List.mem_cons_of_mem item member)
      refine ⟨value :: values, ?_, .cons good restGood⟩
      rw [List.mapM_cons, done, restDone]
      rfl

theorem exists_mapM_eq_ok {α β : Type} {work : α → Except Fault β} {items : List α}
    (each : ∀ item ∈ items, ∃ value, work item = .ok value) :
    ∃ values, items.mapM work = .ok values := by
  obtain ⟨values, done, _⟩ := exists_mapM_forall₂ fun item member => by
    obtain ⟨value, itemDone⟩ := each item member
    exact ⟨value, itemDone, (trivial : (fun _ _ => True) item value)⟩
  exact ⟨values, done⟩

/-- Lists of good values that are worked out for every item, in one list. -/
theorem exists_mapM_flatten {α β : Type} {work : α → Except Fault (List β)}
    {good : β → Prop} {items : List α}
    (each : ∀ item ∈ items, ∃ values, work item = .ok values ∧ ∀ value ∈ values, good value) :
    ∃ values, (do let parts ← items.mapM work; return parts.flatten) = .ok values ∧
      ∀ value ∈ values, good value := by
  obtain ⟨parts, done, partsGood⟩ := exists_mapM_forall₂ each
  refine ⟨parts.flatten, ?_, ?_⟩
  · rw [done]
    rfl
  · intro value member
    obtain ⟨part, isPart, inPart⟩ := List.mem_flatten.mp member
    obtain ⟨_, _, partGood⟩ := exists_left_of_mem partsGood isPart
    exact partGood value inPart

/-- Work with a known value on every item. -/
theorem mapM_eq_ok_map {α β : Type} {work : α → Except Fault β} {value : α → β}
    {items : List α} (each : ∀ item ∈ items, work item = .ok (value item)) :
    items.mapM work = .ok (items.map value) := by
  induction items with
  | nil =>
      rfl
  | cons item rest inductionHypothesis =>
      rw [List.mapM_cons, each item List.mem_cons_self,
        inductionHypothesis fun other member =>
          each other (List.mem_cons_of_mem item member)]
      rfl

namespace Attempt

@[simp]
theorem result_liftM {α : Type} (given : Except Fault α) :
    (liftM given : Attempt α).result = given :=
  rfl

theorem result_bind {α β : Type} (first : Attempt α) (next : α → Attempt β) :
    (first >>= next).result = (first.result >>= fun value => (next value).result) := by
  change (first.andThen next).result = _
  induction first with
  | finished given =>
      cases given <;> rfl
  | noticing notice rest inductionHypothesis =>
      exact inductionHypothesis ()

theorem result_bind_eq_ok_iff {α β : Type} {first : Attempt α} {next : α → Attempt β}
    {value : β} :
    (first >>= next).result = .ok value ↔
      ∃ middle, first.result = .ok middle ∧ (next middle).result = .ok value := by
  rw [result_bind, bind_eq_ok_iff]

theorem result_mapM {α β : Type} (work : α → Attempt β) (items : List α) :
    (items.mapM work).result = items.mapM fun item => (work item).result := by
  induction items with
  | nil =>
      rfl
  | cons item rest inductionHypothesis =>
      simp only [List.mapM_cons, result_bind, inductionHypothesis]
      rfl

/-- The attempt makes allowed notices only, and yields a good value. -/
def Completes {α : Type} (allowed : Notice → Prop) (good : α → Prop) : Attempt α → Prop
  | .finished (.ok value) => good value
  | .finished (.error _) => False
  | .noticing notice rest => allowed notice ∧ (rest ()).Completes allowed good

variable {α β : Type} {allowed : Notice → Prop}

private theorem completes_quietly {good : α → Prop} (given : Except Fault α) :
    (quietly given).Completes allowed good ↔ ∃ value, given = .ok value ∧ good value := by
  cases given with
  | error fault =>
      simp [quietly, Completes]
  | ok value =>
      simp [quietly, Completes]

private theorem completes_liftM {good : α → Prop} (given : Except Fault α) :
    (liftM given : Attempt α).Completes allowed good ↔
      ∃ value, given = .ok value ∧ good value :=
  completes_quietly given

@[simp]
theorem completes_bind {good : β → Prop} (first : Attempt α) (next : α → Attempt β) :
    (first >>= next).Completes allowed good ↔
      first.Completes allowed fun value => (next value).Completes allowed good := by
  change (first.andThen next).Completes allowed good ↔ _
  induction first with
  | finished given =>
      cases given <;> exact Iff.rfl
  | noticing notice rest inductionHypothesis =>
      exact and_congr_right fun _ => inductionHypothesis ()

theorem Completes.mono {good better : α → Prop} {attempt : Attempt α}
    (completes : attempt.Completes allowed good)
    (implied : ∀ value, good value → better value) :
    attempt.Completes allowed better := by
  induction attempt with
  | finished given =>
      cases given with
      | error fault =>
          exact completes
      | ok value =>
          exact implied value completes
  | noticing notice rest inductionHypothesis =>
      exact ⟨completes.1, inductionHypothesis () completes.2⟩

/-- A step that completes may be followed by one that completes after it. -/
theorem Completes.bind {good : α → Prop} {better : β → Prop}
    {first : Attempt α} {next : α → Attempt β}
    (completes : first.Completes allowed good)
    (continues : ∀ value, good value → (next value).Completes allowed better) :
    (first >>= next).Completes allowed better :=
  (completes_bind first next).mpr (completes.mono continues)

/-- A computation that succeeds may be followed by a step that completes. -/
theorem completes_lift_bind {good : β → Prop}
    {first : Except Fault α} {next : α → Attempt β}
    (succeeds : ∃ value, first = .ok value)
    (continues : ∀ value, first = .ok value → (next value).Completes allowed good) :
    (liftM first >>= next).Completes allowed good := by
  obtain ⟨value, done⟩ := succeeds
  rw [completes_bind, completes_liftM]
  exact ⟨value, done, continues value done⟩

theorem completes_mapM {work : α → Attempt β} {holds : α → β → Prop} {items : List α}
    (each : ∀ item ∈ items, (work item).Completes allowed (holds item)) :
    (items.mapM work).Completes allowed fun values => List.Forall₂ holds items values := by
  induction items with
  | nil =>
      exact List.Forall₂.nil
  | cons item rest inductionHypothesis =>
      rw [List.mapM_cons]
      refine (each item List.mem_cons_self).bind fun value good => ?_
      refine Completes.bind (inductionHypothesis fun other member =>
        each other (List.mem_cons_of_mem item member)) fun values restGood => ?_
      exact List.Forall₂.cons good restGood

theorem Completes.exists_result {good : α → Prop} {attempt : Attempt α}
    (completes : attempt.Completes allowed good) :
    ∃ value, attempt.result = .ok value ∧ good value := by
  induction attempt with
  | finished given =>
      cases given with
      | error fault =>
          exact completes.elim
      | ok value =>
          exact ⟨value, rfl, completes⟩
  | noticing notice rest inductionHypothesis =>
      exact inductionHypothesis () completes.2

/-- The attempt makes allowed notices only, and yields a value. -/
def Succeeds (allowed : Notice → Prop) (attempt : Attempt α) : Prop :=
  attempt.Completes allowed fun _ => True

theorem Succeeds.bind {good : β → Prop} {first : Attempt α} {next : α → Attempt β}
    (succeeds : first.Succeeds allowed)
    (continues : ∀ value, (next value).Completes allowed good) :
    (first >>= next).Completes allowed good :=
  Completes.bind succeeds fun value _ => continues value

theorem succeeds_lift {given : Except Fault α} (succeeds : ∃ value, given = .ok value) :
    (liftM given : Attempt α).Succeeds allowed := by
  obtain ⟨value, rfl⟩ := succeeds
  exact trivial

theorem succeeds_mapM {work : α → Attempt β} {items : List α}
    (each : ∀ item ∈ items, (work item).Succeeds allowed) :
    (items.mapM work).Succeeds allowed :=
  (completes_mapM each).mono fun _ _ => trivial

end Attempt

namespace Desk

/-- The desk can show a report at the place. -/
def CanShow (desk : Desk) (location : SourceSpan) : Prop :=
  ∀ title message severity, ∃ text, desk.locatedText location title message severity = .ok text

/-- The notice is taken in by every desk that shows places in the same way. -/
def Takes (desk : Desk) (notice : Notice) : Prop :=
  ∀ later : Desk, later.locatedText = desk.locatedText →
    ∃ after, later.attend notice = .ok after

variable {desk : Desk}

theorem takes_log (level : LogLevel) (text : String) : desk.Takes (.log level text) :=
  fun later _ => ⟨later, rfl⟩

theorem takes_general (title message : String) (severity : Severity) :
    desk.Takes (.report (.general title message severity)) :=
  fun _ _ => ⟨_, rfl⟩

theorem takes_fragment {location : Option SourceSpan}
    (shown : ∀ place ∈ location, desk.CanShow place) (interaction : InteractionId)
    (fragment : FragmentId) (interactionName message : String) (severity : Severity) :
    desk.Takes (.report
      (.fragment interaction fragment interactionName location message severity)) := by
  intro later sameTexts
  simp only [attend, receive]
  split
  · exact ⟨later, rfl⟩
  · refine exists_bind_eq_ok ?_ fun _ _ => ⟨_, rfl⟩
    cases location with
    | none =>
        exact ⟨_, rfl⟩
    | some place =>
        obtain ⟨text, done⟩ := shown place rfl _ message severity
        refine ⟨text, ?_⟩
        rw [fragmentText, sameTexts]
        exact done

/-- Taking in a notice does not change how places are shown. -/
theorem locatedText_of_attend {notice : Notice} {after : Desk}
    (done : desk.attend notice = .ok after) : after.locatedText = desk.locatedText := by
  cases notice with
  | log level text =>
      cases done
      rfl
  | report content =>
      cases content with
      | general title message severity =>
          cases done
          rfl
      | fragment interaction fragment interactionName location message severity =>
          rw [attend, receive] at done
          split at done
          · cases done
            rfl
          · obtain ⟨text, _, last⟩ := bind_eq_ok_iff.mp done
            cases last
            rfl

/-- A desk that takes in all notices of an attempt carries it through. -/
theorem exists_followAfter {α : Type} {good : α → Prop} {attempt : Attempt α}
    (completes : attempt.Completes desk.Takes good) {later : Desk}
    (sameTexts : later.locatedText = desk.locatedText) (earlier : List Notice) :
    ∃ notices final value,
      later.followAfter earlier attempt = ⟨notices, .ok (final, value)⟩ ∧ good value := by
  induction attempt generalizing later earlier with
  | finished given =>
      cases given with
      | error fault =>
          exact completes.elim
      | ok value =>
          exact ⟨_, later, value, rfl, completes⟩
  | noticing notice rest inductionHypothesis =>
      -- the desk changes with every notice, but not in what decides about places
      obtain ⟨after, attended⟩ := completes.1 later sameTexts
      obtain ⟨notices, final, value, followed, isGood⟩ := inductionHypothesis () completes.2
        ((locatedText_of_attend attended).trans sameTexts) (notice :: earlier)
      refine ⟨notices, final, value, ?_, isGood⟩
      rw [followAfter, attended]
      exact followed

end Desk

end SequenceChart
