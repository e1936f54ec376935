import SequenceChart.Proofs.Completion

/-!
# Reports of attempts

Of the notices that an attempt makes only the reports reach the text of a desk, in
the order in which they are made.  The reports of a chain of steps are those of its
steps, and most steps make none.  Carrying an attempt through at a desk comes to
its value, which no desk has a say in, and to what taking in its reports one after
the other makes of the desk.
-/

namespace SequenceChart

@[simp]
theorem Notice.reports_append (first second : List Notice) :
    Notice.reports (first ++ second) = Notice.reports first ++ Notice.reports second := by
  induction first with
  | nil =>
      rfl
  | cons notice rest inductionHypothesis =>
      cases notice with
      | log level text =>
          exact inductionHypothesis
      | report content =>
          exact congrArg (content :: ·) inductionHypothesis

namespace Attempt

variable {α β : Type}

def reports (attempt : Attempt α) : List Report :=
  Notice.reports attempt.notices

@[simp]
theorem reports_pure (value : α) : (pure value : Attempt α).reports = [] :=
  rfl

@[simp]
theorem reports_liftM (given : Except Fault α) : (liftM given : Attempt α).reports = [] :=
  rfl

@[simp]
theorem reports_log (level : LogLevel) (text : String) : (log level text).reports = [] :=
  rfl

@[simp]
theorem reports_report (content : Report) : (report content).reports = [content] :=
  rfl

theorem notices_bind (first : Attempt α) (next : α → Attempt β) :
    (first >>= next).notices = first.notices ++
      match first.result with
      | .ok value => (next value).notices
      | .error _ => [] := by
  change (first.andThen next).notices = _
  induction first with
  | finished given =>
      cases given <;> rfl
  | noticing notice rest inductionHypothesis =>
      exact congrArg (notice :: ·) (inductionHypothesis ())

/-- A chain makes the reports of its first step, and then those of the next one. -/
theorem reports_bind_of_ok {first : Attempt α} {next : α → Attempt β} {value : α}
    (done : first.result = .ok value) :
    (first >>= next).reports = first.reports ++ (next value).reports := by
  rw [reports, notices_bind, done, Notice.reports_append]
  rfl

private theorem mem_reports_of_bind {first : Attempt α} {next : α → Attempt β} {content : Report}
    (member : content ∈ (first >>= next).reports) :
    content ∈ first.reports ∨
      ∃ value, first.result = .ok value ∧ content ∈ (next value).reports := by
  cases given : first.result with
  | error fault =>
      rw [reports, notices_bind, given, List.append_nil] at member
      exact .inl member
  | ok value =>
      rw [reports_bind_of_ok given] at member
      rcases List.mem_append.mp member with isFirst | isNext
      · exact .inl isFirst
      · exact .inr ⟨value, rfl, isNext⟩

/-- Work on a list makes the reports of the work on its items, in order. -/
theorem reports_mapM {work : α → Attempt β} {items : List α} {values : List β}
    (done : (items.mapM work).result = .ok values) :
    (items.mapM work).reports = items.flatMap fun item => (work item).reports := by
  induction items generalizing values with
  | nil =>
      rfl
  | cons item rest inductionHypothesis =>
      rw [List.mapM_cons] at done ⊢
      obtain ⟨value, itemDone, afterItem⟩ := result_bind_eq_ok_iff.mp done
      obtain ⟨others, restDone, _⟩ := result_bind_eq_ok_iff.mp afterItem
      rw [reports_bind_of_ok itemDone, reports_bind_of_ok restDone,
        inductionHypothesis restDone, reports_pure, List.append_nil, List.flatMap_cons]

def ReportsOnly (kind : Report → Prop) (attempt : Attempt α) : Prop :=
  ∀ content ∈ attempt.reports, kind content

variable {kind : Report → Prop}

theorem reportsOnly_pure (value : α) : (pure value : Attempt α).ReportsOnly kind :=
  fun _ member => absurd member List.not_mem_nil

theorem reportsOnly_liftM (given : Except Fault α) :
    (liftM given : Attempt α).ReportsOnly kind :=
  fun _ member => absurd member List.not_mem_nil

theorem reportsOnly_log (level : LogLevel) (text : String) :
    (log level text).ReportsOnly kind :=
  fun _ member => absurd member List.not_mem_nil

theorem reportsOnly_report {content : Report} (good : kind content) :
    (report content).ReportsOnly kind := by
  intro other member
  rw [reports_report, List.mem_singleton] at member
  rw [member]
  exact good

theorem ReportsOnly.bind {first : Attempt α} {next : α → Attempt β}
    (firstOnly : first.ReportsOnly kind)
    (nextOnly : ∀ value, first.result = .ok value → (next value).ReportsOnly kind) :
    (first >>= next).ReportsOnly kind := by
  intro content member
  rcases mem_reports_of_bind member with isFirst | ⟨value, done, isNext⟩
  · exact firstOnly content isFirst
  · exact nextOnly value done content isNext

theorem reportsOnly_mapM {work : α → Attempt β} {items : List α}
    (each : ∀ item ∈ items, (work item).ReportsOnly kind) :
    (items.mapM work).ReportsOnly kind := by
  induction items with
  | nil =>
      exact reportsOnly_pure []
  | cons item rest inductionHypothesis =>
      rw [List.mapM_cons]
      refine ReportsOnly.bind (each item List.mem_cons_self) fun value _ => ?_
      refine ReportsOnly.bind (inductionHypothesis fun other member =>
        each other (List.mem_cons_of_mem item member)) fun values _ => ?_
      exact reportsOnly_pure _

def Silent (attempt : Attempt α) : Prop :=
  attempt.ReportsOnly fun _ => False

theorem Silent.reports_eq {attempt : Attempt α} (silent : attempt.Silent) :
    attempt.reports = [] :=
  List.eq_nil_iff_forall_not_mem.mpr silent

theorem Silent.reportsOnly {attempt : Attempt α} (silent : attempt.Silent) :
    attempt.ReportsOnly kind :=
  fun content member => (silent content member).elim

theorem Silent.bind {first : Attempt α} {next : α → Attempt β} (silent : first.Silent)
    (nextSilent : ∀ value, (next value).Silent) : (first >>= next).Silent :=
  ReportsOnly.bind silent fun value _ => nextSilent value

/-- What silent steps follow is all that is reported. -/
theorem reports_bind_of_silent {first : Attempt α} {next : α → Attempt β}
    (silent : ∀ value, (next value).Silent) : (first >>= next).reports = first.reports := by
  cases given : first.result with
  | error fault =>
      rw [reports, notices_bind, given, List.append_nil]
      rfl
  | ok value =>
      rw [reports_bind_of_ok given, (silent value).reports_eq, List.append_nil]

end Attempt

namespace Desk

variable {α : Type}

private theorem followAfter_eq_ok_iff {desk final : Desk} {earlier notices : List Notice}
    {attempt : Attempt α} {value : α} :
    desk.followAfter earlier attempt = ⟨notices, .ok (final, value)⟩ ↔
      earlier.reverse ++ attempt.notices = notices ∧ attempt.result = .ok value ∧
        attempt.reports.foldlM receive desk = .ok final := by
  induction attempt generalizing desk earlier with
  | finished given =>
      rw [followAfter, Outcome.mk.injEq]
      change _ ∧ _ ↔ earlier.reverse ++ [] = notices ∧ given = .ok value ∧
        (Except.ok desk : Except Fault Desk) = .ok final
      rw [List.append_nil]
      cases given with
      | error fault =>
          simp [Except.map]
      | ok other =>
          simp [Except.map, and_comm]
  | noticing notice rest inductionHypothesis =>
      have behind : ∀ later : List Notice,
          earlier.reverse ++ notice :: later = (notice :: earlier).reverse ++ later := by
        simp
      rw [followAfter, Attempt.notices, behind]
      cases notice with
      | log level text =>
          exact inductionHypothesis ()
      | report content =>
          change _ ↔ _ ∧ _ ∧ (desk.receive content >>= fun later =>
            (rest ()).reports.foldlM receive later) = .ok final
          rw [attend]
          cases desk.receive content with
          | error fault =>
              simp [bind, Except.bind]
          | ok later =>
              exact inductionHypothesis ()

/-- A desk carries an attempt through if the attempt comes to a value and the desk can
take in all its reports. -/
theorem follow_eq_ok_iff {desk final : Desk} {notices : List Notice} {attempt : Attempt α}
    {value : α} :
    desk.follow attempt = ⟨notices, .ok (final, value)⟩ ↔
      attempt.notices = notices ∧ attempt.result = .ok value ∧
        attempt.reports.foldlM receive desk = .ok final :=
  followAfter_eq_ok_iff

def textOf (desk : Desk) : Report → Except Fault String
  | .general title message severity => .ok (desk.generalText title message severity)
  | .fragment _ _ interactionName location message severity =>
      desk.fragmentText location (severity.title ++ " in interaction " ++ interactionName)
        message severity

/-- The desk after warnings about fragments of an interaction, each with its text. -/
def noting (desk : Desk) (id : InteractionId) (added : List (FragmentId × String)) : Desk :=
  { desk with
    reported := (added.map fun entry => (id, entry.1)).reverse ++ desk.reported
    text := desk.text ++ concatenate (added.map Prod.snd)
    warnings := desk.warnings + added.length }

@[simp]
theorem noting_nil (desk : Desk) (id : InteractionId) : desk.noting id [] = desk := by
  simp [noting, concatenate, appendAll]

theorem noting_cons (desk : Desk) (id : InteractionId) (entry : FragmentId × String)
    (rest : List (FragmentId × String)) :
    desk.noting id (entry :: rest) = (desk.noting id [entry]).noting id rest := by
  have count : desk.warnings + (rest.length + 1) = desk.warnings + 1 + rest.length := by
    omega
  simp only [noting, List.map_cons, List.map_nil, concatenate_cons entry.2, count,
    List.reverse_cons, List.length_cons, List.append_assoc, List.singleton_append,
    String.append_assoc]
  rfl

private theorem mem_reported_noting {desk : Desk} {id : InteractionId}
    {added : List (FragmentId × String)} {key : InteractionId × FragmentId} :
    key ∈ (desk.noting id added).reported ↔
      (∃ fragment ∈ added.map Prod.fst, key = (id, fragment)) ∨ key ∈ desk.reported := by
  simp [noting, eq_comm]

/-- A desk that notes what it had no report about knows about everything that there is to
know. -/
theorem mem_reported_noting_of_new {desk : Desk} {id : InteractionId}
    {added : List (FragmentId × String)} {due : FragmentId → Prop}
    (added_iff : ∀ fragment, fragment ∈ added.map Prod.fst ↔
      due fragment ∧ (id, fragment) ∉ desk.reported) (key : InteractionId × FragmentId) :
    key ∈ (desk.noting id added).reported ↔
      key ∈ desk.reported ∨ ∃ fragment, key = (id, fragment) ∧ due fragment := by
  rw [mem_reported_noting]
  constructor
  · rintro (⟨fragment, isAdded, same⟩ | earlier)
    · exact .inr ⟨fragment, same, ((added_iff fragment).mp isAdded).1⟩
    · exact .inl earlier
  · rintro (earlier | ⟨fragment, rfl, isDue⟩)
    · exact .inr earlier
    · by_cases earlier : (id, fragment) ∈ desk.reported
      · exact .inr earlier
      · exact .inl ⟨fragment, (added_iff fragment).mpr ⟨isDue, earlier⟩, rfl⟩

private theorem textOf_noting (desk : Desk) (id : InteractionId)
    (added : List (FragmentId × String))
    (content : Report) : (desk.noting id added).textOf content = desk.textOf content := by
  cases content <;> rfl

section Warnings

variable {id : InteractionId} {about : FragmentId → Option Report}
  (isWarning : ∀ fragment content, about fragment = some content →
    ∃ name location message,
      content = .fragment id fragment name location message .warning)

include isWarning

private theorem receive_warning_of_mem {desk : Desk} {fragment : FragmentId} {content : Report}
    (isAbout : about fragment = some content) (known : (id, fragment) ∈ desk.reported) :
    desk.receive content = .ok desk := by
  obtain ⟨name, location, message, rfl⟩ := isWarning fragment content isAbout
  rw [receive, if_pos (List.contains_iff_mem.mpr known)]

private theorem receive_warning_of_not_mem {desk later : Desk} {fragment : FragmentId}
    {content : Report} (isAbout : about fragment = some content)
    (unknown : (id, fragment) ∉ desk.reported) (done : desk.receive content = .ok later) :
    ∃ text, desk.textOf content = .ok text ∧ later = desk.noting id [(fragment, text)] := by
  obtain ⟨name, location, message, rfl⟩ := isWarning fragment content isAbout
  rw [receive, if_neg (mt List.contains_iff_mem.mp unknown)] at done
  obtain ⟨text, textDone, last⟩ := bind_eq_ok_iff.mp done
  cases last
  exact ⟨text, textDone, by simp [noting, append, concatenate, appendAll]⟩

theorem eq_of_about {fragment other : FragmentId} {content : Report}
    (isAbout : about fragment = some content) (also : about other = some content) :
    other = fragment := by
  obtain ⟨_, _, _, same⟩ := isWarning fragment content isAbout
  obtain ⟨_, _, _, otherSame⟩ := isWarning other content also
  rw [same] at otherSame
  cases otherSame
  rfl

theorem exists_about_cons_iff {fragment other : FragmentId} {content : Report}
    {rest : List Report} (isAbout : about fragment = some content) :
    (∃ warning ∈ content :: rest, about other = some warning) ↔
      other = fragment ∨ ∃ warning ∈ rest, about other = some warning := by
  constructor
  · rintro ⟨warning, member, also⟩
    rcases List.mem_cons.mp member with isFirst | later
    · rw [isFirst] at also
      exact .inl (eq_of_about isWarning isAbout also)
    · exact .inr ⟨warning, later, also⟩
  · rintro (same | ⟨warning, later, also⟩)
    · rw [same]
      exact ⟨content, List.mem_cons_self, isAbout⟩
    · exact ⟨warning, List.mem_cons_of_mem content later, also⟩

/-- A desk takes in one warning about each fragment that it had no report about. -/
theorem exists_noting_of_foldlM {desk final : Desk} {contents : List Report}
    (known : ∀ content ∈ contents, ∃ fragment, about fragment = some content)
    (done : contents.foldlM receive desk = .ok final) :
    ∃ added : List (FragmentId × String), (added.map Prod.fst).Nodup ∧
      (∀ fragment, fragment ∈ added.map Prod.fst ↔
        (∃ content ∈ contents, about fragment = some content) ∧
          (id, fragment) ∉ desk.reported) ∧
      (∀ entry ∈ added, ∃ content, about entry.1 = some content ∧
        desk.textOf content = .ok entry.2) ∧
      final = desk.noting id added := by
  induction contents generalizing desk with
  | nil =>
      cases done
      exact ⟨[], List.nodup_nil, by simp, by simp, (noting_nil _ id).symm⟩
  | cons content rest inductionHypothesis =>
      rw [List.foldlM_cons] at done
      obtain ⟨later, received, restDone⟩ := bind_eq_ok_iff.mp done
      have restKnown := fun other member => known other (List.mem_cons_of_mem content member)
      obtain ⟨added, distinct, mem_iff, texts, rfl⟩ := inductionHypothesis restKnown restDone
      obtain ⟨fragment, isAbout⟩ := known content List.mem_cons_self
      by_cases reported : (id, fragment) ∈ desk.reported
      · rw [receive_warning_of_mem isWarning isAbout reported] at received
        cases received
        refine ⟨added, distinct, ?_, texts, rfl⟩
        intro other
        rw [mem_iff other, exists_about_cons_iff isWarning isAbout]
        by_cases same : other = fragment
        · simp [same, reported]
        · simp [same]
      · obtain ⟨text, textDone, rfl⟩ :=
          receive_warning_of_not_mem isWarning isAbout reported received
        have noted : ∀ other, (id, other) ∈ (desk.noting id [(fragment, text)]).reported ↔
            other = fragment ∨ (id, other) ∈ desk.reported := by
          intro other
          rw [mem_reported_noting]
          simp
        refine ⟨(fragment, text) :: added, ?_, ?_, ?_, (noting_cons _ _ _ _).symm⟩
        · rw [List.map_cons, List.nodup_cons]
          refine ⟨?_, distinct⟩
          intro again
          exact ((mem_iff fragment).mp again).2 ((noted fragment).mpr (.inl rfl))
        · intro other
          rw [List.map_cons, List.mem_cons, mem_iff other, noted other,
            exists_about_cons_iff isWarning isAbout]
          by_cases same : other = fragment
          · simp [same, reported]
          · simp [same]
        · intro entry member
          rcases List.mem_cons.mp member with rfl | later
          · exact ⟨content, isAbout, textDone⟩
          · obtain ⟨warning, also, laterText⟩ := texts entry later
            rw [textOf_noting] at laterText
            exact ⟨warning, also, laterText⟩

/-- A desk that has a report about every fragment stays as it is. -/
theorem foldlM_receive_of_reported {desk : Desk} {contents : List Report}
    (known : ∀ content ∈ contents, ∃ fragment, about fragment = some content ∧
      (id, fragment) ∈ desk.reported) :
    contents.foldlM receive desk = .ok desk := by
  induction contents with
  | nil =>
      rfl
  | cons content rest inductionHypothesis =>
      obtain ⟨fragment, isAbout, reported⟩ := known content List.mem_cons_self
      rw [List.foldlM_cons, receive_warning_of_mem isWarning isAbout reported]
      exact inductionHypothesis fun other member =>
        known other (List.mem_cons_of_mem content member)

end Warnings

end Desk

end SequenceChart
