import SequenceChart.Proofs.GroupNames
import SequenceChart.Proofs.UnsupportedReports

/-!
# Independence of desks

A desk keeps reports, and has no say in what is generated.  What one group or one
lifeline is rendered to does not depend on what a desk was told before, so the files
are the same at all desks, and the file of a group is the same whether it is asked
for alone, by name, or along with all others.

A desk may still break generation off, at a report that it cannot show.  Every desk
that can show the places of all fragments carries generation through.
-/

namespace SequenceChart

open Attempt

def Report.key? : Report → Option (InteractionId × FragmentId)
  | .general _ _ _ => none
  | .fragment interaction about _ _ _ _ => some (interaction, about)

namespace Desk

/-- The desk has a report about the fragment already, or can show its place. -/
def Bears (desk : Desk) : Report → Prop
  | .general _ _ _ => True
  | .fragment interaction fragment _ location _ _ =>
      (interaction, fragment) ∈ desk.reported ∨ ∀ place ∈ location, desk.CanShow place

variable {desk later final : Desk}

/-- A place at which one report can be shown is good for all others. -/
theorem canShow_of_locatedText {place : SourceSpan} {title message text : String}
    {severity : Severity} (done : desk.locatedText place title message severity = .ok text) :
    desk.CanShow place := by
  intro otherTitle otherMessage otherSeverity
  rw [locatedText] at done ⊢
  cases known : desk.files[place.file]? with
  | none =>
      exact ⟨_, rfl⟩
  | some file =>
      simp only [known] at done
      exact desk.renderer.ignoresMessage _ _ _ _ _ _ done otherSeverity otherMessage

private theorem canShow_of_receive {content : Report} (received : desk.receive content = .ok later)
    {place : SourceSpan} : later.CanShow place ↔ desk.CanShow place := by
  rw [CanShow, CanShow,
    locatedText_of_attend (show desk.attend (.report content) = .ok later from received)]

private theorem exists_receive_of_bears {content : Report} (bears : desk.Bears content) :
    ∃ after, desk.receive content = .ok after := by
  cases content with
  | general title message severity =>
      exact ⟨_, rfl⟩
  | fragment interaction fragment name location message severity =>
      rcases bears with reported | shown
      · exact ⟨desk, if_pos (List.contains_iff_mem.mpr reported)⟩
      · exact takes_fragment shown interaction fragment name message severity desk rfl

private theorem bears_of_receive {content : Report} (received : desk.receive content = .ok later) :
    desk.Bears content := by
  cases content with
  | general title message severity =>
      exact trivial
  | fragment interaction fragment name location message severity =>
      by_cases reported : (interaction, fragment) ∈ desk.reported
      · exact .inl reported
      · rw [receive, if_neg (mt List.contains_iff_mem.mp reported)] at received
        obtain ⟨text, shown, _⟩ := bind_eq_ok_iff.mp received
        refine .inr fun place located => ?_
        cases located
        exact canShow_of_locatedText shown

private theorem mem_reported_of_receive {content : Report}
    (received : desk.receive content = .ok later)
    {key : InteractionId × FragmentId} :
    key ∈ later.reported ↔ key ∈ desk.reported ∨ content.key? = some key := by
  cases content with
  | general title message severity =>
      cases received
      simp [append, Report.key?]
  | fragment interaction fragment name location message severity =>
      by_cases reported : (interaction, fragment) ∈ desk.reported
      · rw [receive, if_pos (List.contains_iff_mem.mpr reported)] at received
        cases received
        refine ⟨.inl, ?_⟩
        rintro (known | same)
        · exact known
        · exact Option.some.inj same ▸ reported
      · rw [receive, if_neg (mt List.contains_iff_mem.mp reported)] at received
        obtain ⟨text, _, last⟩ := bind_eq_ok_iff.mp received
        cases last
        simp [append, Report.key?, eq_comm, or_comm]

/-- Having taken in a report, a desk can bear what it could bear before, and all else
about the same fragment. -/
theorem bears_iff_of_receive {head content : Report}
    (received : desk.receive head = .ok later) :
    later.Bears content ↔
      desk.Bears content ∨ ∃ key, head.key? = some key ∧ content.key? = some key := by
  cases content with
  | general title message severity =>
      exact ⟨fun _ => .inl trivial, fun _ => trivial⟩
  | fragment interaction fragment name location message severity =>
      simp only [Bears, mem_reported_of_receive received, canShow_of_receive received,
        Report.key?, Option.some.injEq, exists_eq_right']
      exact or_right_comm

theorem exists_foldlM_of_bears {contents : List Report}
    (bears : ∀ content ∈ contents, desk.Bears content) :
    ∃ final, contents.foldlM receive desk = .ok final := by
  induction contents generalizing desk with
  | nil =>
      exact ⟨desk, rfl⟩
  | cons content rest inductionHypothesis =>
      obtain ⟨later, received⟩ := exists_receive_of_bears (bears content List.mem_cons_self)
      have stillBears : ∀ other ∈ rest, later.Bears other := by
        intro other member
        have atFirst := bears other (List.mem_cons_of_mem content member)
        exact (bears_iff_of_receive received).mpr (.inl atFirst)
      obtain ⟨final, done⟩ := inductionHypothesis stillBears
      refine ⟨final, ?_⟩
      rw [List.foldlM_cons]
      exact bind_eq_ok_iff.mpr ⟨later, received, done⟩

/-- Where reports about one fragment can be borne alike, a desk that took in all reports
could bear each of them from the start. -/
theorem bears_of_foldlM {contents : List Report}
    (alike : ∀ first ∈ contents, ∀ second ∈ contents, ∀ key, first.key? = some key →
      second.key? = some key → ∀ desk : Desk, desk.Bears first → desk.Bears second)
    (done : contents.foldlM receive desk = .ok final) :
    ∀ content ∈ contents, desk.Bears content := by
  induction contents generalizing desk with
  | nil =>
      exact fun _ member => absurd member List.not_mem_nil
  | cons head rest inductionHypothesis =>
      rw [List.foldlM_cons] at done
      obtain ⟨later, received, restDone⟩ := bind_eq_ok_iff.mp done
      have headBorne := bears_of_receive received
      intro content member
      rcases List.mem_cons.mp member with rfl | inRest
      · exact headBorne
      · have laterBears := inductionHypothesis
          (fun first isFirst second isSecond => alike first (List.mem_cons_of_mem head isFirst)
            second (List.mem_cons_of_mem head isSecond)) restDone content inRest
        rcases (bears_iff_of_receive received).mp laterBears with borne | ⟨key, ofHead, same⟩
        · exact borne
        · exact alike head List.mem_cons_self content member key ofHead same desk headBorne

end Desk

/-- The reports that generation makes: warnings in general, and warnings about fragments
of interactions at their places. -/
inductive Specification.Warns (specification : Specification) : Report → Prop
  | general (title message : String) :
      Warns specification (.general title message .warning)
  | fragment {id : InteractionId} {interaction : Interaction}
      (placed : specification.interaction id = .ok interaction) (fragment : FragmentId)
      (message : String) :
      Warns specification (.fragment id fragment interaction.name
        (interaction.location fragment) message .warning)

namespace Specification

variable {specification : Specification} {configuration : Configuration}

/-- A fragment has one place, which all warnings about it are at. -/
theorem Warns.bears {first second : Report} (warns : specification.Warns first)
    (also : specification.Warns second) {key : InteractionId × FragmentId}
    (isKey : first.key? = some key) (sameKey : second.key? = some key) {desk : Desk}
    (bears : desk.Bears first) : desk.Bears second := by
  cases warns with
  | general title message =>
      cases isKey
  | fragment placed fragment message =>
      cases also with
      | general title message =>
          cases sameKey
      | fragment otherPlaced other otherMessage =>
          cases isKey
          cases sameKey
          cases placed.symm.trans otherPlaced
          exact bears

private theorem reportsOnly_interactionModule {id : InteractionId} {declaration : Declaration}
    (done : (specification.interactionModule id).result = .ok declaration) :
    (specification.interactionModule id).ReportsOnly specification.Warns := by
  obtain ⟨setting, found, _, mem_iff⟩ := mem_reports_interactionModule done
  intro content member
  obtain ⟨fragment, _, warned⟩ := (mem_iff content).mp member
  obtain ⟨_, what, _, _, rfl⟩ := Setting.warningAt_eq_some_iff.mp warned
  obtain ⟨interaction, meetings, placed, _, rfl⟩ := setting_eq_ok_iff.mp found
  exact .fragment placed fragment _

private theorem reportsOnly_groupModule {id : GroupId} {declaration : Declaration}
    (done : (specification.groupModule id).result = .ok declaration) :
    (specification.groupModule id).ReportsOnly specification.Warns := by
  obtain ⟨group, groupDone, afterGroup⟩ := result_bind_eq_ok_iff.mp done
  obtain ⟨_, _, afterName⟩ := result_bind_eq_ok_iff.mp afterGroup
  obtain ⟨_, _, afterScripts⟩ := result_bind_eq_ok_iff.mp afterName
  obtain ⟨_, _, afterMemories⟩ := result_bind_eq_ok_iff.mp afterScripts
  obtain ⟨modules, modulesDone, _⟩ := result_bind_eq_ok_iff.mp afterMemories
  rw [result_mapM, mapM_eq_ok_iff] at modulesDone
  refine ReportsOnly.bind (reportsOnly_liftM _) fun other otherDone => ?_
  cases groupDone.symm.trans otherDone
  refine ReportsOnly.bind (reportsOnly_liftM _) fun _ _ => ?_
  refine ReportsOnly.bind (reportsOnly_mapM fun _ _ => reportsOnly_liftM _) fun _ _ => ?_
  refine ReportsOnly.bind (reportsOnly_mapM fun _ _ => reportsOnly_liftM _) fun _ _ => ?_
  refine ReportsOnly.bind (reportsOnly_mapM fun interaction member => ?_) fun _ _ =>
    reportsOnly_pure _
  obtain ⟨_, _, moduleDone⟩ := exists_right_of_mem modulesDone member
  exact reportsOnly_interactionModule moduleDone

/-- A target that is missing is reported in general words, and nothing else is. -/
theorem reportsOnly_referenceTo {kind : Report → Prop}
    (general : ∀ title message, kind (.general title message .warning)) (subject : Subject) :
    (specification.referenceTo subject).ReportsOnly kind := by
  cases subject with
  | interaction id =>
      refine ReportsOnly.bind (reportsOnly_liftM _) fun _ _ => ?_
      exact ReportsOnly.bind (reportsOnly_liftM _) fun _ _ => reportsOnly_pure _
  | target id =>
      refine ReportsOnly.bind (reportsOnly_liftM _) fun name _ => ?_
      refine ReportsOnly.bind (reportsOnly_liftM _) fun group _ => ?_
      by_cases present : group.target.isSome = true
      · rw [if_pos present]
        exact reportsOnly_pure _
      · rw [if_neg present]
        refine ReportsOnly.bind (reportsOnly_log _ _) fun _ _ => ?_
        exact ReportsOnly.bind (reportsOnly_report (general _ _)) fun _ _ =>
          reportsOnly_pure _
  | script id =>
      refine ReportsOnly.bind (reportsOnly_liftM _) fun _ _ => ?_
      exact ReportsOnly.bind (reportsOnly_liftM _) fun _ _ => reportsOnly_pure _

private theorem silent_contextIn (model : SemanticModel) (subject : Subject) :
    (specification.contextIn model subject).Silent := by
  cases model with
  | trace =>
      exact reportsOnly_pure _
  | timed =>
      refine Silent.bind (Silent.bind (reportsOnly_liftM _) fun found => ?_) fun _ =>
        reportsOnly_pure _
      cases found with
      | some group =>
          exact reportsOnly_liftM _
      | none =>
          exact Silent.bind (reportsOnly_log _ _) fun _ => reportsOnly_pure _

section GeneralReports

variable {kind : Report → Prop}
  (general : ∀ title message, kind (.general title message .warning))
include general

private theorem reportsOnly_sideOf (model : SemanticModel) (subject : Subject) :
    (specification.sideOf model subject).ReportsOnly kind := by
  refine ReportsOnly.bind (reportsOnly_referenceTo general subject) fun _ _ => ?_
  exact ReportsOnly.bind (silent_contextIn model subject).reportsOnly fun _ _ =>
    reportsOnly_pure _

private theorem reportsOnly_refinementAssertion (property : Refinement) :
    (specification.refinementAssertion property).ReportsOnly kind := by
  refine ReportsOnly.bind (reportsOnly_sideOf general _ _) fun _ _ => ?_
  exact ReportsOnly.bind (reportsOnly_sideOf general _ _) fun _ _ => reportsOnly_pure _

private theorem reportsOnly_refinementAssertions (property : Refinement) :
    (specification.refinementAssertions property).ReportsOnly kind := by
  rw [refinementAssertions]
  cases property.operator with
  | refines =>
      exact ReportsOnly.bind (reportsOnly_refinementAssertion general _) fun _ _ =>
        reportsOnly_pure _
  | equals =>
      refine ReportsOnly.bind (reportsOnly_refinementAssertion general _) fun _ _ => ?_
      exact ReportsOnly.bind (reportsOnly_refinementAssertion general _) fun _ _ =>
        reportsOnly_pure _

theorem reportsOnly_assertions (property : Property) :
    (specification.assertions property).ReportsOnly kind := by
  cases property with
  | refinement property =>
      exact reportsOnly_refinementAssertions general property
  | core property =>
      refine ReportsOnly.bind (ReportsOnly.bind (reportsOnly_sideOf general _ _) fun _ _ => ?_)
        fun _ _ => reportsOnly_pure _
      exact reportsOnly_pure _
  | sequence property =>
      exact ReportsOnly.bind (reportsOnly_liftM _) fun refinement _ =>
        reportsOnly_refinementAssertions general refinement

end GeneralReports

private theorem reportsOnly_groupFile {id : GroupId} {file : GeneratedFile}
    (done : (specification.groupFile configuration id).result = .ok file) :
    (specification.groupFile configuration id).ReportsOnly specification.Warns := by
  obtain ⟨_, _, afterName⟩ := result_bind_eq_ok_iff.mp done
  obtain ⟨_, _, afterLog⟩ := result_bind_eq_ok_iff.mp afterName
  obtain ⟨content, contentDone, _⟩ := result_bind_eq_ok_iff.mp afterLog
  refine ReportsOnly.bind (reportsOnly_liftM _) fun _ _ => ?_
  refine ReportsOnly.bind (reportsOnly_log _ _) fun _ _ => ?_
  refine ReportsOnly.bind (reportsOnly_groupModule contentDone) fun _ _ => ?_
  refine ReportsOnly.bind (reportsOnly_liftM _) fun _ _ => ?_
  exact ReportsOnly.bind (reportsOnly_mapM fun property _ =>
    reportsOnly_assertions .general property) fun _ _ => reportsOnly_pure _

private theorem reportsOnly_generate {files : List GeneratedFile}
    (done : (specification.generate configuration).result = .ok files) :
    (specification.generate configuration).ReportsOnly specification.Warns := by
  obtain ⟨_, _, groupFilesDone⟩ := files_of_generate done
  refine ReportsOnly.bind (reportsOnly_mapM fun id member => ?_) fun _ _ =>
    ReportsOnly.bind (reportsOnly_log _ _) fun _ _ => reportsOnly_pure _
  obtain ⟨_, _, fileDone⟩ := exists_right_of_mem groupFilesDone member
  exact reportsOnly_groupFile fileDone

private theorem reports_generate {files : List GeneratedFile}
    (done : (specification.generate configuration).result = .ok files) :
    (specification.generate configuration).reports =
      specification.groupIds.flatMap fun id =>
        (specification.groupFile configuration id).reports := by
  obtain ⟨groupFiles, groupFilesDone, _⟩ := result_bind_eq_ok_iff.mp done
  rw [← reports_mapM groupFilesDone]
  refine reports_bind_of_silent fun _ => ?_
  exact Silent.bind (reportsOnly_log _ _) fun _ => reportsOnly_pure _

end Specification

/-! ## Values at all desks -/

/-- The desk carries the attempt through to the value. -/
def Desk.Yields {α : Type} (desk : Desk) (attempt : Attempt α) (value : α) : Prop :=
  ∃ notices final, desk.follow attempt = ⟨notices, .ok (final, value)⟩

/-- Attempt what was found.  Where nothing was found, nothing is attempted. -/
def Attempt.ofLookup {α : Type} :
    Except LookupError (Attempt α) → Attempt (Except LookupError α)
  | .ok attempt => do
      let value ← attempt
      return .ok value
  | .error failure => return .error failure

theorem Desk.follow_ofLookup_ok_iff {α : Type} {desk final : Desk} {notices : List Notice}
    {attempt : Attempt α} {outcome : Except LookupError α} :
    desk.follow (ofLookup (.ok attempt)) = ⟨notices, .ok (final, outcome)⟩ ↔
      ∃ value, outcome = .ok value ∧ desk.follow attempt = ⟨notices, .ok (final, value)⟩ := by
  have sameReports : (ofLookup (.ok attempt)).reports = attempt.reports :=
    reports_bind_of_silent fun _ => reportsOnly_pure _
  have sameNotices : (ofLookup (.ok attempt)).notices = attempt.notices := by
    rw [ofLookup, notices_bind]
    cases attempt.result <;> exact List.append_nil _
  rw [follow_eq_ok_iff, sameReports, sameNotices]
  constructor
  · rintro ⟨made, done, received⟩
    obtain ⟨value, valueDone, last⟩ := result_bind_eq_ok_iff.mp done
    cases last
    exact ⟨value, rfl, follow_eq_ok_iff.mpr ⟨made, valueDone, received⟩⟩
  · rintro ⟨value, rfl, followed⟩
    obtain ⟨made, valueDone, received⟩ := follow_eq_ok_iff.mp followed
    exact ⟨made, result_bind_eq_ok_iff.mpr ⟨value, valueDone, rfl⟩, received⟩

theorem Desk.yields_ofLookup_ok_iff {α : Type} {desk : Desk} {attempt : Attempt α}
    {outcome : Except LookupError α} :
    desk.Yields (ofLookup (.ok attempt)) outcome ↔
      ∃ value, outcome = .ok value ∧ desk.Yields attempt value := by
  simp only [Yields, follow_ofLookup_ok_iff]
  grind

namespace Specification

variable {specification : Specification} {configuration : Configuration}

def ShownBy (specification : Specification) (desk : Desk) : Prop :=
  ∀ interaction ∈ specification.interactions, ∀ entry ∈ interaction.locations,
    desk.CanShow entry.2

/-- The attempt has one value, and comes to it at all desks that can show the places of
fragments as well as at all desks where generation comes to an end. -/
structure AlwaysYields {α : Type} (specification : Specification)
    (configuration : Configuration) (attempt : Attempt α) (value : α) : Prop where
  unique : ∀ (desk : Desk) (other : α), desk.Yields attempt other → other = value
  shown : ∀ desk : Desk, specification.ShownBy desk → desk.Yields attempt value
  generated : ∀ (desk : Desk) (files : List GeneratedFile),
    desk.Yields (specification.generate configuration) files → desk.Yields attempt value

/-- The group is the first one with the title. -/
def FirstTitled (specification : Specification) (id : GroupId) (title : String) : Prop :=
  specification.HasTitle id title ∧
    ∀ other, specification.HasTitle other title → id.index ≤ other.index

theorem Warns.bears_of_shownBy {desk : Desk} {content : Report}
    (warns : specification.Warns content) (shown : specification.ShownBy desk) :
    desk.Bears content := by
  cases warns with
  | general title message =>
      exact trivial
  | fragment placed fragment message =>
      refine .inr fun place located => ?_
      obtain ⟨entry, isEntry, rfl⟩ := Diagram.exists_of_location located
      exact shown _ (Array.mem_of_getElem? (entryAt_eq_ok_iff.mp placed)) entry isEntry

section Yields

variable {α : Type} {attempt : Attempt α} {value : α}

/-- What an attempt yields is no matter of the desk, and whether it yields it is a matter
of what the desk can bear at the start. -/
theorem yields_iff (warns : attempt.ReportsOnly specification.Warns) {desk : Desk} :
    desk.Yields attempt value ↔
      attempt.result = .ok value ∧ ∀ content ∈ attempt.reports, desk.Bears content := by
  constructor
  · rintro ⟨notices, final, followed⟩
    obtain ⟨_, done, received⟩ := Desk.follow_eq_ok_iff.mp followed
    refine ⟨done, Desk.bears_of_foldlM ?_ received⟩
    intro first isFirst second isSecond key isKey sameKey desk
    exact (warns first isFirst).bears (warns second isSecond) isKey sameKey
  · rintro ⟨done, bears⟩
    obtain ⟨final, received⟩ := Desk.exists_foldlM_of_bears bears
    exact ⟨attempt.notices, final, Desk.follow_eq_ok_iff.mpr ⟨rfl, done, received⟩⟩

private theorem alwaysYields_of_result (done : attempt.result = .ok value)
    (part : ∀ files, (specification.generate configuration).result = .ok files →
      attempt.reports ⊆ (specification.generate configuration).reports)
    (warns : attempt.ReportsOnly specification.Warns) :
    specification.AlwaysYields configuration attempt value where
  unique desk other yields := by
    have otherDone := ((yields_iff warns).mp yields).1
    exact Except.ok.inj (otherDone.symm.trans done)
  shown desk shown := by
    refine (yields_iff warns).mpr ⟨done, fun content member => ?_⟩
    exact (warns content member).bears_of_shownBy shown
  generated desk files yields := by
    obtain ⟨notices, final, followed⟩ := yields
    have filesDone := (Desk.follow_eq_ok_iff.mp followed).2.1
    have bears := ((yields_iff (reportsOnly_generate filesDone)).mp ⟨notices, final, followed⟩).2
    exact (yields_iff warns).mpr
      ⟨done, fun content member => bears content (part files filesDone member)⟩

theorem AlwaysYields.ofLookup
    (always : specification.AlwaysYields configuration attempt value) :
    specification.AlwaysYields configuration (ofLookup (.ok attempt)) (.ok value) where
  unique desk outcome yields := by
    obtain ⟨other, rfl, otherYields⟩ := Desk.yields_ofLookup_ok_iff.mp yields
    rw [always.unique desk other otherYields]
  shown desk shown :=
    Desk.yields_ofLookup_ok_iff.mpr ⟨value, rfl, always.shown desk shown⟩
  generated desk files yields :=
    Desk.yields_ofLookup_ok_iff.mpr ⟨value, rfl, always.generated desk files yields⟩

end Yields

private theorem firstTitled_of_findIdx? {name : String} {index : Nat}
    (found : specification.groups.findIdx? (fun group => group.name = some name) = some index) :
    specification.FirstTitled ⟨index⟩ name := by
  obtain ⟨inRange, titled, earlier⟩ := Array.findIdx?_eq_some_iff_getElem.mp found
  refine ⟨⟨_, Array.getElem?_eq_getElem inRange, of_decide_eq_true titled⟩, ?_⟩
  rintro ⟨other⟩ ⟨group, present, given⟩
  obtain ⟨_, rfl⟩ := Array.getElem?_eq_some_iff.mp present
  apply Nat.le_of_not_lt
  intro before
  exact earlier other before (decide_eq_true given)

theorem FirstTitled.unique {id other : GroupId} {name : String}
    (first : specification.FirstTitled id name) (also : specification.FirstTitled other name) :
    id = other :=
  congrArg TableId.mk (Nat.le_antisymm (first.2 other also.1) (also.2 id first.1))

/-- A title is looked up as that of the first group with it. -/
theorem groupNamed_cases (specification : Specification) (name : String) :
    (∃ id, specification.FirstTitled id name ∧ specification.groupNamed name = .ok id) ∨
      (¬ ∃ id, specification.HasTitle id name) ∧
        specification.groupNamed name = .error (.unknownGroup name) := by
  cases found : specification.groups.findIdx? (fun group => group.name = some name) with
  | some index =>
      refine .inl ⟨⟨index⟩, firstTitled_of_findIdx? found, ?_⟩
      rw [groupNamed, found]
  | none =>
      refine .inr ⟨?_, ?_⟩
      · rintro ⟨id, group, present, given⟩
        have untitled := Array.findIdx?_eq_none_iff.mp found group (Array.mem_of_getElem? present)
        exact of_decide_eq_false untitled given
      · rw [groupNamed, found]

private theorem groupFileNamed_of_firstTitled {id : GroupId} {name : String}
    (first : specification.FirstTitled id name) :
    specification.groupFileNamed configuration name =
      .ok (specification.groupFile configuration id) := by
  rcases groupNamed_cases specification name with ⟨other, isFirst, found⟩ | ⟨missing, _⟩
  · cases first.unique isFirst
    rw [groupFileNamed, found]
    rfl
  · exact absurd ⟨id, first.1⟩ missing

/-- A lookup fails for want of a group with the title, and leaves the desk alone. -/
theorem follow_groupFileNamed_eq_error_iff {name : String} {desk final : Desk}
    {notices : List Notice} {failure : LookupError} :
    desk.follow (ofLookup (specification.groupFileNamed configuration name)) =
        ⟨notices, .ok (final, .error failure)⟩ ↔
      (¬ ∃ id, specification.HasTitle id name) ∧ failure = .unknownGroup name ∧
        final = desk ∧ notices = [] := by
  rcases groupNamed_cases specification name with ⟨id, first, _⟩ | ⟨missing, found⟩
  · rw [groupFileNamed_of_firstTitled first, Desk.follow_ofLookup_ok_iff]
    constructor
    · rintro ⟨value, impossible, _⟩
      cases impossible
    · rintro ⟨missing, _⟩
      exact absurd ⟨id, first.1⟩ missing
  · rw [groupFileNamed, found]
    constructor
    · intro followed
      cases followed
      exact ⟨missing, rfl, rfl, rfl⟩
    · rintro ⟨_, rfl, rfl, rfl⟩
      rfl

private theorem result_groupFile_of_getElem? {groupFiles : List GeneratedFile}
    (groupFilesDone : List.Forall₂
      (fun id file => (specification.groupFile configuration id).result = .ok file)
      specification.groupIds groupFiles)
    {id : GroupId} {file : GeneratedFile} (present : groupFiles[id.index]? = some file) :
    id ∈ specification.groupIds ∧
      (specification.groupFile configuration id).result = .ok file := by
  obtain ⟨inRange, rfl⟩ := List.getElem?_eq_some_iff.mp present
  have known : id.index < specification.groupIds.length := groupFilesDone.length_eq ▸ inRange
  have same : specification.groupIds.get ⟨id.index, known⟩ = id := by
    simp [groupIds]
  have done := groupFilesDone.get known inRange
  rw [same] at done
  exact ⟨same ▸ List.get_mem _ _, done⟩

private theorem reports_groupFile_subset {id : GroupId} (known : id ∈ specification.groupIds)
    {files : List GeneratedFile}
    (done : (specification.generate configuration).result = .ok files) :
    (specification.groupFile configuration id).reports ⊆
      (specification.generate configuration).reports := by
  rw [reports_generate done]
  exact fun _ member => List.mem_flatMap_of_mem known member

/-- If one desk carries generation through, then its files are those of all desks.  Behind
the library, the file at the position of a group is what is generated for this group alone,
at any desk.  A title is answered with the file of the first group that has it; if there is
none, then the lookup fails, which it never does otherwise, and the desk is left alone. -/
theorem files_do_not_depend_on_desks {desk : Desk} {files : List GeneratedFile}
    (yields : desk.Yields (specification.generate configuration) files) :
    specification.AlwaysYields configuration (specification.generate configuration) files ∧
      ∃ groupFiles,
        files = ⟨configuration.libraryFile, libraryText configuration⟩ :: groupFiles ∧
        groupFiles.length = specification.groups.size ∧
        (∀ (id : GroupId) (file : GeneratedFile), groupFiles[id.index]? = some file →
          specification.AlwaysYields configuration
            (specification.groupFile configuration id) file) ∧
        ∀ name : String,
          (∀ id, specification.FirstTitled id name →
            ∃ file, groupFiles[id.index]? = some file ∧
              specification.AlwaysYields configuration
                (ofLookup (specification.groupFileNamed configuration name)) (.ok file)) ∧
          ∀ (other final : Desk) (notices : List Notice) (failure : LookupError),
            other.follow (ofLookup (specification.groupFileNamed configuration name)) =
                ⟨notices, .ok (final, .error failure)⟩ ↔
              (¬ ∃ id, specification.HasTitle id name) ∧ failure = .unknownGroup name ∧
                final = other ∧ notices = [] := by
  obtain ⟨notices, final, followed⟩ := yields
  have done := (Desk.follow_eq_ok_iff.mp followed).2.1
  obtain ⟨groupFiles, split, groupFilesDone⟩ := files_of_generate done
  have count : groupFiles.length = specification.groups.size := by
    rw [← groupFilesDone.length_eq, groupIds, List.length_map, List.length_range]
  have each : ∀ (id : GroupId) (file : GeneratedFile), groupFiles[id.index]? = some file →
      specification.AlwaysYields configuration
        (specification.groupFile configuration id) file := by
    intro id file present
    obtain ⟨known, fileDone⟩ := result_groupFile_of_getElem? groupFilesDone present
    exact alwaysYields_of_result fileDone (fun _ => reports_groupFile_subset known)
      (reportsOnly_groupFile fileDone)
  refine ⟨alwaysYields_of_result done (fun _ _ => List.Subset.refl _)
    (reportsOnly_generate done), groupFiles, split, count, each, fun name => ⟨?_, ?_⟩⟩
  · intro id first
    obtain ⟨group, present, _⟩ := first.1
    obtain ⟨inRange, _⟩ := Array.getElem?_eq_some_iff.mp present
    rw [← count] at inRange
    rw [groupFileNamed_of_firstTitled first]
    exact ⟨_, List.getElem?_eq_getElem inRange,
      (each id _ (List.getElem?_eq_getElem inRange)).ofLookup⟩
  · intro other final notices failure
    exact follow_groupFileNamed_eq_error_iff

end Specification

/-- The handover, and behind its group an empty one of the same title. -/
def handoversTwice : Specification :=
  (handoverSpecification.addGroup (some "Given") none).1

private theorem wellFormed_handoversTwice : handoversTwice.WellFormed where
  diagrams := by
    intro interaction member
    exact { wellFormed_handover.diagrams interaction member with }
  interactionsKnown := by decide
  scriptsKnown := by decide
  eventsKnown := by decide
  subjectsKnown := by decide

theorem handoversTwice_does_not_depend_on_desks :
    ∃ library first second,
      handoverDesk.Yields (handoversTwice.generate .standard) [library, first, second] ∧
      handoversTwice.AlwaysYields .standard (handoversTwice.generate .standard)
        [library, first, second] ∧
      handoversTwice.AlwaysYields .standard (handoversTwice.groupFile .standard ⟨1⟩) second ∧
      handoversTwice.AlwaysYields .standard
        (ofLookup (handoversTwice.groupFileNamed .standard "Given")) (.ok first) ∧
      ∀ desk : Desk,
        desk.follow (ofLookup (handoversTwice.groupFileNamed .standard "Taken")) =
          ⟨[], .ok (desk, .error (.unknownGroup "Taken"))⟩ := by
  have shown : handoversTwice.ShownBy handoverDesk := by
    intro interaction member entry isEntry
    cases Array.mem_singleton.mp member
    cases List.mem_singleton.mp isEntry
    exact fun title message severity => ⟨_, rfl⟩
  obtain ⟨notices, final, groupFiles, followed, named⟩ :=
    (built_handover.enterGroup ⟨some "Given", none, [], [], []⟩).generates
      wellFormed_handoversTwice .standard shown
  obtain _ | ⟨_, _ | ⟨_, _ | _⟩⟩ := named
  have yields : handoverDesk.Yields (handoversTwice.generate .standard) _ :=
    ⟨notices, final, followed⟩
  obtain ⟨always, groupFiles, split, _, each, byName⟩ :=
    Specification.files_do_not_depend_on_desks yields
  cases split
  have isFirst : handoversTwice.FirstTitled ⟨0⟩ "Given" :=
    ⟨⟨_, rfl, rfl⟩, fun other _ => Nat.zero_le other.index⟩
  obtain ⟨file, present, alwaysFile⟩ := (byName "Given").1 ⟨0⟩ isFirst
  cases present
  have missing : ¬ ∃ id, handoversTwice.HasTitle id "Taken" := by
    rintro ⟨id, group, present, given⟩
    have titled : ∀ group ∈ handoversTwice.groups, group.name ≠ some "Taken" := by
      decide
    exact titled group (Array.mem_of_getElem? present) given
  refine ⟨_, _, _, yields, always, each ⟨1⟩ _ rfl, alwaysFile, fun desk => ?_⟩
  exact ((byName "Taken").2 desk desk [] _).mpr ⟨missing, rfl, rfl, rfl⟩

end SequenceChart
