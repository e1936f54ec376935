import SequenceChart.Proofs.MemoryWrites
import SequenceChart.Proofs.Relevance

/-!
# Reports about constructs without meaning

The module of an interaction is rendered for each of its lifelines, or for the one
sequential process, and for the process that runs the bodies of until fragments.
Lifeline creations and critical regions that concern a viewpoint for which they are
rendered are reported, and no other fragment is.

However often a fragment is rendered, a desk takes in one report about it: it adds
the fragments that it had no report about before, with one text and one warning for
each, and rendering the interaction again leaves it as it is.
-/

namespace SequenceChart

open Attempt

namespace Setting

def viewpoints (setting : Setting) : List Viewpoint :=
  if setting.isSequential then
    [.sequential setting.lifelines.head?]
  else
    setting.lifelines.map .lifeline

/-- The module of the interaction renders the fragment for the viewpoint.  The body of an
until fragment is rendered for the process that runs it, whoever renders the fragment. -/
inductive Renders (setting : Setting) : Viewpoint → FragmentId → Prop
  | body {view : Viewpoint} {id : FragmentId} :
      view ∈ setting.viewpoints → id ∈ setting.interaction.body → Renders setting view id
  | inside {view : Viewpoint} {id child : FragmentId} :
      Renders setting view id → setting.interaction.toDiagram.LeadsTo id child →
      Renders setting view child
  | untilBody {view : Viewpoint} {id body : FragmentId} {intra : MessageSet} :
      Renders setting view id →
      setting.interaction.fragments[id.index]? = some (.until intra body) →
      Renders setting .until body

/-- The fragment is a construct without meaning that is rendered for somebody whom it
concerns. -/
def Unsupported (setting : Setting) (id : FragmentId) : Prop :=
  (∃ entry, setting.interaction.fragments[id.index]? = some entry ∧
      entry.unsupported?.isSome = true) ∧
    ∃ view, setting.Renders view id ∧ setting.Concerns view id

/-- Rendering starts at a place: at the body for one of the viewpoints, or at the body of a
recorded until fragment for the process that runs it. -/
inductive StartsAt (setting : Setting) : Viewpoint × FragmentId → Prop
  | body {view : Viewpoint} {id : FragmentId} :
      view ∈ setting.viewpoints → id ∈ setting.interaction.body → StartsAt setting (view, id)
  | untilBody {id body : FragmentId} {intra : MessageSet} :
      setting.isSequential = false → setting.untils.isRequired = true →
      id ∈ setting.untils.fragments →
      setting.interaction.fragments[id.index]? = some (.until intra body) →
      StartsAt setting (.until, body)

def renderingAt (setting : Setting) (place : Viewpoint × FragmentId) :
    Attempt (Option Behaviour) :=
  (setting.interaction.fragment place.2).project setting place.1

variable {setting : Setting} {view : Viewpoint}

/-- The attempt goes through the places, and makes no reports but theirs. -/
def GoesThrough {α : Type} (setting : Setting) (attempt : Attempt α)
    (places : Viewpoint × FragmentId → Prop) : Prop :=
  (∀ place, places place → ∃ seen, (setting.renderingAt place).result = .ok seen) ∧
    ∀ content, content ∈ attempt.reports ↔
      ∃ place, places place ∧ content ∈ (setting.renderingAt place).reports

private theorem goesThrough_projectSequence {seen : Option Behaviour}
    (done : (setting.projectSequence view setting.body).result = .ok seen) :
    setting.GoesThrough (setting.projectSequence view setting.body)
      fun place => place.1 = view ∧ place.2 ∈ setting.interaction.body := by
  obtain ⟨parts, partsDone, _⟩ := Fragment.result_inSequence_eq_ok_iff.mp done
  have mapped : inTurn (Fragment.projections setting view setting.body) =
      setting.interaction.body.mapM fun id => setting.renderingAt (view, id) := by
    rw [Fragment.inTurn_projections, body, Diagram.bodyFragments, List.mapM_map]
    rfl
  constructor
  · rintro ⟨_, id⟩ ⟨rfl, member⟩
    rw [mapped, result_mapM, mapM_eq_ok_iff] at partsDone
    obtain ⟨part, _, partDone⟩ := exists_right_of_mem partsDone member
    exact ⟨part, partDone⟩
  · intro content
    rw [projectSequence, inSequence, reports_bind_of_silent fun _ => reportsOnly_pure _]
    rw [mapped] at partsDone ⊢
    rw [reports_mapM partsDone, List.mem_flatMap]
    constructor
    · rintro ⟨id, member, reported⟩
      exact ⟨(view, id), ⟨rfl, member⟩, reported⟩
    · rintro ⟨⟨_, id⟩, ⟨rfl, member⟩, reported⟩
      exact ⟨id, member, reported⟩

private theorem goesThrough_lifelineDefinition {actor : ActorId} {declaration : Declaration}
    (done : (setting.lifelineDefinition actor).result = .ok declaration) :
    setting.GoesThrough (setting.lifelineDefinition actor)
      fun place => place.1 = .lifeline actor ∧ place.2 ∈ setting.interaction.body := by
  obtain ⟨seen, seenDone, _⟩ := result_bind_eq_ok_iff.mp done
  have through := goesThrough_projectSequence seenDone
  refine ⟨through.1, ?_⟩
  intro content
  rw [lifelineDefinition, reports_bind_of_silent]
  · exact through.2 content
  · exact fun _ => Silent.bind (reportsOnly_liftM _) fun _ => reportsOnly_pure _

private theorem goesThrough_untilBranch {internal : List String} {id : FragmentId}
    {branch : Behaviour} (done : (setting.untilBranch internal id).result = .ok branch) :
    setting.GoesThrough (setting.untilBranch internal id) fun place =>
      place.1 = .until ∧ ∃ intra,
        setting.interaction.fragments[id.index]? = some (.until intra place.2) := by
  obtain ⟨entry, found, rest⟩ := result_bind_eq_ok_iff.mp done
  have present := entryAt_eq_ok_iff.mp found
  have skipped : (liftM (entryAt setting.interaction.fragments id.index) :
      Attempt FragmentEntry).result = .ok entry := found
  cases entry with
  | «until» intra body =>
      obtain ⟨inner, innerDone, _⟩ := result_bind_eq_ok_iff.mp rest
      constructor
      · rintro ⟨_, child⟩ ⟨rfl, other, childPresent⟩
        cases present.symm.trans childPresent
        exact ⟨inner, innerDone⟩
      · intro content
        rw [untilBranch, reports_bind_of_ok skipped, reports_liftM, List.nil_append,
          reports_bind_of_silent]
        · constructor
          · intro reported
            exact ⟨(.until, body), ⟨rfl, intra, present⟩, reported⟩
          · rintro ⟨⟨_, child⟩, ⟨rfl, other, childPresent⟩, reported⟩
            cases present.symm.trans childPresent
            exact reported
        · intro seen
          refine Silent.bind (reportsOnly_liftM _) fun _ => ?_
          exact Silent.bind (reportsOnly_liftM _) fun _ => reportsOnly_pure _
  | _ =>
      cases rest

private theorem goesThrough_mapM {α β : Type} {work : α → Attempt β} {items : List α}
    {values : List β} {places : α → Viewpoint × FragmentId → Prop}
    (done : (items.mapM work).result = .ok values)
    (each : ∀ item ∈ items, ∀ value, (work item).result = .ok value →
      setting.GoesThrough (work item) (places item)) :
    setting.GoesThrough (items.mapM work) fun place => ∃ item ∈ items, places item place := by
  have related := done
  rw [result_mapM, mapM_eq_ok_iff] at related
  have through : ∀ item ∈ items, setting.GoesThrough (work item) (places item) := by
    intro item member
    obtain ⟨value, _, valueDone⟩ := exists_right_of_mem related member
    exact each item member value valueDone
  constructor
  · rintro place ⟨item, member, isPlace⟩
    exact (through item member).1 place isPlace
  · intro content
    rw [reports_mapM done, List.mem_flatMap]
    constructor
    · rintro ⟨item, member, reported⟩
      obtain ⟨place, isPlace, placeReported⟩ :=
        ((through item member).2 content).mp reported
      exact ⟨place, ⟨item, member, isPlace⟩, placeReported⟩
    · rintro ⟨place, ⟨item, member, isPlace⟩, placeReported⟩
      exact ⟨item, member, ((through item member).2 content).mpr
        ⟨place, isPlace, placeReported⟩⟩

/-- The process that runs until bodies goes through those of the recorded fragments. -/
theorem goesThrough_untilProcess {declaration : Option Declaration}
    (done : setting.untilProcess.result = .ok declaration) :
    setting.GoesThrough setting.untilProcess fun place =>
      setting.untils.isRequired = true ∧ ∃ id ∈ setting.untils.fragments,
        place.1 = .until ∧ ∃ intra,
          setting.interaction.fragments[id.index]? = some (.until intra place.2) := by
  by_cases required : setting.untils.isRequired = true
  · rw [untilProcess, if_pos required] at done ⊢
    obtain ⟨internal, internalDone, afterInternal⟩ := result_bind_eq_ok_iff.mp done
    obtain ⟨branches, branchesDone, _⟩ := result_bind_eq_ok_iff.mp afterInternal
    have through := goesThrough_mapM branchesDone fun id _ branch branchDone =>
      goesThrough_untilBranch branchDone
    simp only [required, true_and]
    refine ⟨through.1, ?_⟩
    intro content
    rw [reports_bind_of_ok internalDone, reports_liftM, List.nil_append,
      reports_bind_of_silent fun _ => reportsOnly_pure _]
    exact through.2 content
  · rw [untilProcess, if_neg required]
    simp [GoesThrough, required]

private theorem startsAt_iff_of_sequential (sequential : setting.isSequential = true)
    (place : Viewpoint × FragmentId) :
    setting.StartsAt place ↔
      place.1 = .sequential setting.lifelines.head? ∧ place.2 ∈ setting.interaction.body := by
  have only : setting.viewpoints = [.sequential setting.lifelines.head?] := by
    rw [viewpoints, if_pos sequential]
  constructor
  · intro starts
    cases starts with
    | body isView member =>
        rw [only] at isView
        exact ⟨List.mem_singleton.mp isView, member⟩
    | untilBody several _ _ _ =>
        rw [sequential] at several
        cases several
  · rintro ⟨same, member⟩
    refine .body ?_ member
    rw [only, same]
    exact List.mem_singleton_self _

private theorem startsAt_iff_of_several (several : setting.isSequential = false)
    (place : Viewpoint × FragmentId) :
    setting.StartsAt place ↔
      (∃ actor ∈ setting.lifelines,
        place.1 = .lifeline actor ∧ place.2 ∈ setting.interaction.body) ∨
      setting.untils.isRequired = true ∧ ∃ id ∈ setting.untils.fragments,
        place.1 = .until ∧ ∃ intra,
          setting.interaction.fragments[id.index]? = some (.until intra place.2) := by
  have each : setting.viewpoints = setting.lifelines.map .lifeline := by
    rw [viewpoints, several]
    rfl
  constructor
  · intro starts
    cases starts with
    | body isView member =>
        rw [each] at isView
        obtain ⟨actor, isLifeline, same⟩ := List.mem_map.mp isView
        exact .inl ⟨actor, isLifeline, same.symm, member⟩
    | untilBody _ required recorded present =>
        exact .inr ⟨required, _, recorded, rfl, _, present⟩
  · rintro (⟨actor, isLifeline, same, member⟩ | ⟨required, id, recorded, same, intra, present⟩)
    · refine .body ?_ member
      rw [each, same]
      exact List.mem_map_of_mem isLifeline
    · obtain ⟨_, body⟩ := place
      cases same
      exact .untilBody several required recorded present

/-- The definitions go through all places at which rendering starts. -/
theorem goesThrough_lifelineDefinitions {definitions : List Declaration}
    (done : setting.lifelineDefinitions.result = .ok definitions) :
    setting.GoesThrough setting.lifelineDefinitions setting.StartsAt := by
  by_cases sequential : setting.isSequential = true
  · rw [lifelineDefinitions, if_pos sequential] at done ⊢
    obtain ⟨_, logged, afterLog⟩ := result_bind_eq_ok_iff.mp done
    obtain ⟨_, bodyDone, _⟩ := result_bind_eq_ok_iff.mp afterLog
    obtain ⟨seen, seenDone, _⟩ := result_bind_eq_ok_iff.mp bodyDone
    have through := goesThrough_projectSequence seenDone
    simp only [GoesThrough, startsAt_iff_of_sequential sequential]
    refine ⟨through.1, ?_⟩
    intro content
    rw [reports_bind_of_ok logged, reports_log, List.nil_append,
      reports_bind_of_silent fun _ => reportsOnly_pure _, projectBody,
      reports_bind_of_silent fun _ => reportsOnly_pure _]
    exact through.2 content
  · have several := Bool.eq_false_iff.mpr sequential
    rw [lifelineDefinitions, if_neg sequential] at done ⊢
    obtain ⟨lifelines, lifelinesDone, afterLifelines⟩ := result_bind_eq_ok_iff.mp done
    obtain ⟨runner, runnerDone, _⟩ := result_bind_eq_ok_iff.mp afterLifelines
    have throughBody := goesThrough_mapM lifelinesDone fun _ _ _ definitionDone =>
      goesThrough_lifelineDefinition definitionDone
    have throughUntils := goesThrough_untilProcess runnerDone
    simp only [GoesThrough, startsAt_iff_of_several several]
    constructor
    · rintro place (isBody | isUntil)
      · exact throughBody.1 place isBody
      · exact throughUntils.1 place isUntil
    · intro content
      rw [reports_bind_of_ok lifelinesDone, reports_bind_of_silent fun _ =>
        Silent.bind (reportsOnly_liftM _) fun _ => reportsOnly_pure _, List.mem_append,
        throughBody.2 content, throughUntils.2 content, ← exists_or]
      simp only [or_and_right]

/-! ## Places that are rendered -/

theorem Renders.goesOn {id : FragmentId} {next : Viewpoint × FragmentId}
    (renders : setting.Renders view id) (goesOn : setting.GoesOnTo (view, id) next) :
    setting.Renders next.1 next.2 := by
  obtain ⟨entry, present, member⟩ := goesOn
  cases entry with
  | «until» intra body =>
      rw [FragmentEntry.rendered] at member
      split at member
      · cases member
      · cases List.mem_singleton.mp member
        exact .untilBody renders present
  | _ =>
      obtain ⟨child, isChild, rfl⟩ := List.mem_map.mp member
      exact .inside renders ⟨_, present, isChild⟩

theorem Renders.of_path {place reached : Viewpoint × FragmentId}
    (renders : setting.Renders place.1 place.2)
    (path : Relation.ReflTransGen setting.GoesOnTo place reached) :
    setting.Renders reached.1 reached.2 := by
  induction path with
  | refl =>
      exact renders
  | tail _ step inductionHypothesis =>
      exact inductionHypothesis.goesOn step

theorem Renders.of_leads {start id : FragmentId} (renders : setting.Renders view start)
    (path : Relation.ReflTransGen setting.interaction.toDiagram.LeadsTo start id) :
    setting.Renders view id := by
  induction path with
  | refl =>
      exact renders
  | tail _ step inductionHypothesis =>
      exact .inside inductionHypothesis step

/-- Rendering starts only at places that are rendered. -/
theorem StartsAt.renders {place : Viewpoint × FragmentId}
    (searched : Fragment.listMeetings setting.body = .ok setting.meetings)
    (starts : setting.StartsAt place) : setting.Renders place.1 place.2 := by
  cases starts with
  | body isView member =>
      exact .body isView member
  | @untilBody id body intra several required recorded present =>
      -- a recorded fragment is come by on the way of every lifeline
      obtain ⟨start, inBody, path⟩ := visited_of_recorded searched (mem_fragments .until recorded)
      have nonempty : setting.lifelines ≠ [] := by
        intro none
        simp [isSequential, none] at several
      obtain ⟨actor, isLifeline⟩ := List.exists_mem_of_ne_nil _ nonempty
      have isView : Viewpoint.lifeline actor ∈ setting.viewpoints := by
        rw [viewpoints, several]
        exact List.mem_map_of_mem isLifeline
      exact .untilBody (.of_leads (.body isView inBody) path) present

private theorem goesOnTo_of_leads {id child : FragmentId}
    (leads : setting.interaction.toDiagram.LeadsTo id child) :
    setting.GoesOnTo (view, id) (view, child) := by
  obtain ⟨entry, present, member⟩ := leads
  refine ⟨entry, present, ?_⟩
  cases entry with
  | «until» intra body =>
      cases member
  | _ =>
      exact List.mem_map_of_mem member

/-- Lifelines meet only where there are several of them. -/
theorem several_of_meetsAt (met : setting.meetsAt view .until = true) :
    setting.untils.isRequired = true ∧ setting.isSequential = false := by
  rw [meetsAt, Bool.and_eq_true] at met
  have required : setting.untils.isRequired = true := met.2
  have enough := required
  rw [setting.untils_eq, Synchronisation.isRequired, Bool.and_eq_true, decide_eq_true_iff]
    at enough
  refine ⟨required, ?_⟩
  have count : 2 ≤ setting.lifelines.length := enough.1
  rw [isSequential, decide_eq_false_iff_not]
  omega

/-- Whatever is rendered is come by from a place at which rendering starts, if the until
fragments at which it stops are recorded. -/
theorem Renders.exists_start {id : FragmentId}
    (recorded : ∀ place, setting.StartsAt place → ∀ reached intra body,
      Relation.ReflTransGen setting.GoesOnTo place reached →
      setting.interaction.fragments[reached.2.index]? = some (.until intra body) →
      setting.meetsAt reached.1 .until = true → reached.2 ∈ setting.untils.fragments)
    (renders : setting.Renders view id) :
    ∃ place, setting.StartsAt place ∧
      Relation.ReflTransGen setting.GoesOnTo place (view, id) := by
  induction renders with
  | body isView member =>
      exact ⟨_, .body isView member, .refl⟩
  | inside _ leads inductionHypothesis =>
      obtain ⟨place, starts, path⟩ := inductionHypothesis
      exact ⟨place, starts, path.tail (goesOnTo_of_leads leads)⟩
  | @untilBody view id body intra _ present inductionHypothesis =>
      obtain ⟨place, starts, path⟩ := inductionHypothesis
      by_cases met : setting.meetsAt view .until = true
      · have isRecorded := recorded place starts _ intra body path present met
        obtain ⟨required, several⟩ := several_of_meetsAt met
        exact ⟨_, .untilBody several required isRecorded present, .refl⟩
      · refine ⟨place, starts, path.tail ⟨_, present, ?_⟩⟩
        rw [FragmentEntry.rendered, if_neg met]
        exact List.mem_singleton_self _

/-- The definitions report what is rendered for somebody whom it concerns. -/
theorem mem_reports_lifelineDefinitions
    (searched : Fragment.listMeetings setting.body = .ok setting.meetings)
    {definitions : List Declaration}
    (done : setting.lifelineDefinitions.result = .ok definitions) (content : Report) :
    content ∈ setting.lifelineDefinitions.reports ↔
      ∃ view id, setting.Renders view id ∧ setting.Concerns view id ∧
        setting.warningAt id = some content := by
  obtain ⟨completes, reported⟩ := goesThrough_lifelineDefinitions done
  have follows : ∀ place, setting.StartsAt place →
      setting.Follows place.1 place.2 (setting.interaction.fragment place.2) :=
    fun place _ => follows_unfoldFragment _ place.1 place.2
  have recorded : ∀ place, setting.StartsAt place → ∀ reached intra body,
      Relation.ReflTransGen setting.GoesOnTo place reached →
      setting.interaction.fragments[reached.2.index]? = some (.until intra body) →
      setting.meetsAt reached.1 .until = true → reached.2 ∈ setting.untils.fragments := by
    intro place starts
    obtain ⟨seen, seenDone⟩ := completes place starts
    exact (follows place starts).recorded seenDone
  rw [reported]
  constructor
  · rintro ⟨place, starts, placeReported⟩
    obtain ⟨seen, seenDone⟩ := completes place starts
    obtain ⟨reached, path, concerns, warned⟩ :=
      ((follows place starts).reported seenDone content).mp placeReported
    exact ⟨reached.1, reached.2, (starts.renders searched).of_path path, concerns, warned⟩
  · rintro ⟨view, id, renders, concerns, warned⟩
    obtain ⟨place, starts, path⟩ := renders.exists_start recorded
    obtain ⟨seen, seenDone⟩ := completes place starts
    exact ⟨place, starts, ((follows place starts).reported seenDone content).mpr
      ⟨(view, id), path, concerns, warned⟩⟩

theorem warningAt_eq_some_iff {id : FragmentId} {content : Report} :
    setting.warningAt id = some content ↔
      ∃ entry what, setting.interaction.fragments[id.index]? = some entry ∧
        entry.unsupported? = some what ∧ content = setting.warning id what := by
  rw [warningAt, Option.map_eq_some_iff]
  constructor
  · rintro ⟨what, found, rfl⟩
    obtain ⟨entry, present, isUnsupported⟩ := Option.bind_eq_some_iff.mp found
    exact ⟨entry, what, present, isUnsupported, rfl⟩
  · rintro ⟨entry, what, present, isUnsupported, rfl⟩
    exact ⟨what, Option.bind_eq_some_iff.mpr ⟨entry, present, isUnsupported⟩, rfl⟩

private theorem isWarning_of_warningAt (setting : Setting) (id : FragmentId) (content : Report)
    (warned : setting.warningAt id = some content) :
    ∃ name location message,
      content = .fragment setting.id id name location message .warning := by
  obtain ⟨_, _, _, _, rfl⟩ := warningAt_eq_some_iff.mp warned
  exact ⟨_, _, _, rfl⟩

theorem Unsupported.exists_warning {id : FragmentId} (unsupported : setting.Unsupported id) :
    ∃ content, setting.warningAt id = some content := by
  obtain ⟨⟨entry, present, isUnsupported⟩, _⟩ := unsupported
  obtain ⟨what, found⟩ := Option.isSome_iff_exists.mp isUnsupported
  exact ⟨_, warningAt_eq_some_iff.mpr ⟨entry, what, present, found, rfl⟩⟩

/-- A warning tells which fragment it is about. -/
theorem exists_warning_iff {contents : List Report}
    (mem_iff : ∀ content, content ∈ contents ↔
      ∃ fragment, setting.Unsupported fragment ∧ setting.warningAt fragment = some content)
    (fragment : FragmentId) :
    (∃ content ∈ contents, setting.warningAt fragment = some content) ↔
      setting.Unsupported fragment := by
  constructor
  · rintro ⟨content, member, warned⟩
    obtain ⟨other, unsupported, otherWarned⟩ := (mem_iff content).mp member
    rw [Desk.eq_of_about setting.isWarning_of_warningAt otherWarned warned]
    exact unsupported
  · intro unsupported
    obtain ⟨content, warned⟩ := unsupported.exists_warning
    exact ⟨content, (mem_iff content).mpr ⟨fragment, unsupported, warned⟩, warned⟩

end Setting

namespace Specification

variable {specification : Specification} {id : InteractionId}

/-- The module of an interaction reports the constructs without meaning. -/
theorem mem_reports_interactionModule {declaration : Declaration}
    (done : (specification.interactionModule id).result = .ok declaration) :
    ∃ setting, specification.setting id = .ok setting ∧ setting.id = id ∧
      ∀ content, content ∈ (specification.interactionModule id).reports ↔
        ∃ fragment, setting.Unsupported fragment ∧
          setting.warningAt fragment = some content := by
  obtain ⟨setting, settingDone, afterSetting⟩ := result_bind_eq_ok_iff.mp done
  obtain ⟨definitions, definitionsDone, _⟩ := result_bind_eq_ok_iff.mp afterSetting
  have found : specification.setting id = .ok setting := settingDone
  obtain ⟨interaction, meetings, _, searched, same⟩ := setting_eq_ok_iff.mp found
  refine ⟨setting, found, by rw [same], ?_⟩
  intro content
  have rest : (specification.interactionModule id).reports =
      setting.lifelineDefinitions.reports := by
    rw [interactionModule, reports_bind_of_ok settingDone, reports_liftM, List.nil_append,
      reports_bind_of_silent]
    intro _
    refine Silent.bind (reportsOnly_liftM _) fun _ => ?_
    refine Silent.bind (reportsOnly_liftM _) fun _ => ?_
    exact Silent.bind (reportsOnly_liftM _) fun _ => reportsOnly_pure _
  have searchedThere : Fragment.listMeetings setting.body = .ok setting.meetings := by
    rw [same]
    exact searched
  rw [rest, Setting.mem_reports_lifelineDefinitions searchedThere definitionsDone]
  constructor
  · rintro ⟨view, fragment, renders, concerns, warned⟩
    obtain ⟨entry, what, present, isUnsupported, _⟩ :=
      Setting.warningAt_eq_some_iff.mp warned
    exact ⟨fragment, ⟨⟨entry, present, by rw [isUnsupported]; rfl⟩, view, renders, concerns⟩,
      warned⟩
  · rintro ⟨fragment, ⟨_, view, renders, concerns⟩, warned⟩
    exact ⟨view, fragment, renders, concerns, warned⟩

/-- A desk at which the module of an interaction is rendered learns about the constructs
without meaning that are rendered for somebody whom they concern.  For each of them that it
had no report about it takes in one text behind the others and counts one warning, and
nothing else changes.  Rendering the interaction again changes nothing at all. -/
theorem unsupported_fragments_are_reported_once {desk final : Desk} {notices : List Notice}
    {declaration : Declaration}
    (done : desk.follow (specification.interactionModule id) =
      ⟨notices, .ok (final, declaration)⟩) :
    ∃ setting, specification.setting id = .ok setting ∧
      (∀ key, key ∈ final.reported ↔ key ∈ desk.reported ∨
        ∃ fragment, key = (id, fragment) ∧ setting.Unsupported fragment) ∧
      (∃ added : List (FragmentId × String), (added.map Prod.fst).Nodup ∧
        (∀ fragment, fragment ∈ added.map Prod.fst ↔
          setting.Unsupported fragment ∧ (id, fragment) ∉ desk.reported) ∧
        (∀ entry ∈ added, ∃ content, setting.warningAt entry.1 = some content ∧
          desk.textOf content = .ok entry.2) ∧
        final = { desk with
          reported := (added.map fun entry => (id, entry.1)).reverse ++ desk.reported
          text := desk.text ++ concatenate (added.map Prod.snd)
          warnings := desk.warnings + added.length }) ∧
      final.follow (specification.interactionModule id) =
        ⟨notices, .ok (final, declaration)⟩ := by
  obtain ⟨noticesSame, resultDone, received⟩ := Desk.follow_eq_ok_iff.mp done
  obtain ⟨setting, found, rfl, mem_iff⟩ := mem_reports_interactionModule resultDone
  have isWarning := setting.isWarning_of_warningAt
  have known : ∀ content ∈ (specification.interactionModule setting.id).reports,
      ∃ fragment, setting.warningAt fragment = some content := by
    intro content member
    obtain ⟨fragment, _, warned⟩ := (mem_iff content).mp member
    exact ⟨fragment, warned⟩
  obtain ⟨added, distinct, added_iff, texts, rfl⟩ :=
    Desk.exists_noting_of_foldlM isWarning known received
  simp only [Setting.exists_warning_iff mem_iff] at added_iff
  have noted := Desk.mem_reported_noting_of_new added_iff
  refine ⟨setting, found, noted, ⟨added, distinct, added_iff, texts, rfl⟩, ?_⟩
  refine Desk.follow_eq_ok_iff.mpr ⟨noticesSame, resultDone, ?_⟩
  apply Desk.foldlM_receive_of_reported isWarning
  intro content member
  obtain ⟨fragment, unsupported, warned⟩ := (mem_iff content).mp member
  exact ⟨fragment, warned, (noted _).mpr (.inr ⟨fragment, rfl, unsupported⟩)⟩

end Specification

/-- A clerk hires a helper in a critical region, at a known place.  A third person, who has no
lifeline, is hired twice, the second time in the body of an until fragment.  An empty
critical region concerns nobody. -/
def hiring : Diagram where
  name := "Hiring"
  body := [⟨1⟩, ⟨4⟩, ⟨5⟩, ⟨7⟩]
  lifelines := [⟨0⟩, ⟨1⟩]
  locals := []
  fragments := #[.create ⟨0⟩ ⟨1⟩, .critical ⟨2⟩, .operand none [⟨0⟩, ⟨3⟩],
    .message ⟨⟨0⟩, ⟨1⟩, .event "greet", []⟩, .create ⟨2⟩ ⟨2⟩, .until .every ⟨6⟩,
    .operand none [⟨4⟩], .critical ⟨8⟩, .operand none []]
  expressions := #[]
  locations := [(⟨0⟩, ⟨0, 3, 0⟩)]

def office : Specification where
  name := "Office"
  actors := #[⟨"Clerk", .component⟩, ⟨"Helper", .component⟩, ⟨"Guest", .component⟩]
  actorsByName := [("Guest", ⟨2⟩), ("Helper", ⟨1⟩), ("Clerk", ⟨0⟩)]
  vars := #[]
  constants := #[]
  groups := #[⟨some "Work", none, [⟨0⟩], [], []⟩]
  interactions := #[⟨hiring, ⟨0⟩⟩]
  scripts := #[]

/-- A desk that has a report about the critical region. -/
def officeDesk : Desk :=
  { Desk.empty false with
    files := #[⟨"office.txt", "one\ntwo three\n"⟩]
    reported := [(⟨0⟩, ⟨1⟩)]
    text := "noted\n"
    warnings := 1 }

theorem hiring_is_reported_once :
    ∃ notices final declaration,
      officeDesk.follow (office.interactionModule ⟨0⟩) = ⟨notices, .ok (final, declaration)⟩ ∧
      (⟨0⟩, ⟨0⟩) ∈ final.reported ∧ (⟨0⟩, ⟨4⟩) ∈ final.reported ∧
      (⟨0⟩, ⟨7⟩) ∉ final.reported ∧
      final.follow (office.interactionModule ⟨0⟩) = ⟨notices, .ok (final, declaration)⟩ := by
  obtain ⟨notices, final, declaration, done⟩ : ∃ notices final declaration,
      officeDesk.follow (office.interactionModule ⟨0⟩) =
        ⟨notices, .ok (final, declaration)⟩ :=
    ⟨_, _, _, rfl⟩
  obtain ⟨setting, found, reported, _, again⟩ :=
    Specification.unsupported_fragments_are_reported_once done
  obtain ⟨interaction, meetings, placed, _, rfl⟩ :=
    Specification.setting_eq_ok_iff.mp found
  cases placed
  have inBody : ∀ id ∈ hiring.body, Setting.Renders
      ⟨office, ⟨0⟩, ⟨hiring, ⟨0⟩⟩, meetings, _, _, rfl, rfl⟩ (.lifeline ⟨0⟩) id :=
    fun id member => .body List.mem_cons_self member
  refine ⟨notices, final, declaration, done, ?_, ?_, ?_, again⟩
  · -- the creation stands in the critical region
    refine (reported _).mpr (.inr ⟨⟨0⟩, rfl, ⟨_, rfl, rfl⟩, .lifeline ⟨0⟩, ?_, .itself rfl rfl⟩)
    apply Setting.Renders.of_leads (inBody ⟨1⟩ (by decide))
    exact .tail (.single ⟨_, rfl, List.mem_cons_self⟩) ⟨_, rfl, List.mem_cons_self⟩
  · -- only the process that runs the until body is concerned
    refine (reported _).mpr (.inr ⟨⟨4⟩, rfl, ⟨_, rfl, rfl⟩, .until, ?_, .itself rfl rfl⟩)
    apply Setting.Renders.of_leads (.untilBody (inBody ⟨5⟩ (by decide)) rfl)
    exact .single ⟨_, rfl, List.mem_cons_self⟩
  · intro member
    rcases (reported _).mp member with earlier | ⟨fragment, same, _, view, _, concerns⟩
    · exact absurd earlier (by decide)
    · cases same
      rcases (Setting.concerns_iff rfl).mp concerns with itself | ⟨child, isChild, inside⟩
      · cases itself
      · cases List.mem_singleton.mp isChild
        rcases (Setting.concerns_iff rfl).mp inside with itself | ⟨_, isInside, _⟩
        · cases itself
        · cases isInside

end SequenceChart
