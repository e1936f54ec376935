import SequenceChart.Generation
import SequenceChart.Proofs.ModuleSuccess
import SequenceChart.Proofs.SpecificationGrowth

/-!
# Generation from well-formed specifications

A specification that was built entry by entry, and in which all that users
refer to exists, is generated to the end: one library, and one file for every
group.  No fault is met on the way, whatever is reported and whoever reads the
reports, as long as places in source files can be shown.
-/

namespace SequenceChart

def EventSource.Known (specification : Specification) : EventSource → Prop
  | .interaction id => id.index < specification.interactions.size
  | .target group => group.index < specification.groups.size

def Subject.Known (specification : Specification) : Subject → Prop
  | .interaction id => id.index < specification.interactions.size
  | .target group => group.index < specification.groups.size
  | .script id => id.index < specification.scripts.size

instance (specification : Specification) :
    (source : EventSource) → Decidable (source.Known specification)
  | .interaction id => inferInstanceAs (Decidable (id.index < _))
  | .target group => inferInstanceAs (Decidable (group.index < _))

instance (specification : Specification) :
    (subject : Subject) → Decidable (subject.Known specification)
  | .interaction id => inferInstanceAs (Decidable (id.index < _))
  | .target group => inferInstanceAs (Decidable (group.index < _))
  | .script id => inferInstanceAs (Decidable (id.index < _))

def Property.subjects : Property → List Subject
  | .refinement property => [property.left, property.right]
  | .core property => [property.subject]
  | .sequence property => [.interaction property.interaction]

namespace Specification

/-- All that groups list and that diagrams, scripts and properties refer to exists, and
no diagram refers back to itself or has a loop bound without sides. -/
structure WellFormed (specification : Specification) : Prop where
  diagrams : ∀ interaction ∈ specification.interactions,
    interaction.toDiagram.WellFormed specification
  interactionsKnown : ∀ group ∈ specification.groups, ∀ id ∈ group.interactions,
    id.index < specification.interactions.size
  scriptsKnown : ∀ group ∈ specification.groups, ∀ id ∈ group.scripts,
    id.index < specification.scripts.size
  eventsKnown : ∀ script ∈ specification.scripts, ∀ source ∈ script.events,
    source.Known specification
  subjectsKnown : ∀ group ∈ specification.groups, ∀ property ∈ group.properties,
    ∀ subject ∈ property.subjects, subject.Known specification

/-- The events of all scripts are declared somewhere. -/
def EventsKnown (specification : Specification) : Prop :=
  ∀ script ∈ specification.scripts, ∀ source ∈ script.events, source.Known specification

instance (specification : Specification) : Decidable specification.EventsKnown :=
  inferInstanceAs (Decidable (∀ script ∈ specification.scripts, ∀ source ∈ script.events, _))

/-- The notices that generation may make: log records, warnings in general, and
warnings about fragments of interactions at their places. -/
structure Admits (specification : Specification) (allowed : Notice → Prop) : Prop where
  logs : ∀ level text, allowed (.log level text)
  remarks : ∀ title message, allowed (.report (.general title message .warning))
  warnings : ∀ id interaction, specification.interaction id = .ok interaction →
    ∀ fragment message,
      allowed (.report (.fragment id fragment interaction.name (interaction.location fragment)
        message .warning))

variable {specification : Specification} {allowed : Notice → Prop}

theorem exists_group {id : GroupId} (known : id.index < specification.groups.size) :
    ∃ found, specification.group id = .ok found := by
  obtain ⟨found, done, _⟩ := exists_entryAt known
  exact ⟨found, done⟩

theorem exists_groupName {id : GroupId} (known : id.index < specification.groups.size) :
    ∃ name, specification.groupName id = .ok name :=
  exists_bind_eq_ok (exists_group known) fun _ _ => ⟨_, rfl⟩

/-- The module of every interaction can be written. -/
theorem succeeds_interactionModule (linked : specification.Linked)
    (wellFormed : specification.WellFormed) (admits : specification.Admits allowed)
    {id : InteractionId} (known : id.index < specification.interactions.size) :
    (specification.interactionModule id).Succeeds allowed := by
  obtain ⟨interaction, placed, member⟩ := exists_entryAt known
  have diagram := wellFormed.diagrams interaction member
  obtain ⟨meetings, searched, _, found⟩ :=
    exists_setting placed diagram.toClosed diagram.fragmentsAcyclic
  have sound : Setting.Sound { specification, id, interaction, meetings } :=
    ⟨placed, diagram, linked.ownersKnown, searched⟩
  exact sound.succeeds_interactionModule ⟨admits.logs, admits.warnings id interaction placed⟩
    found

private theorem exists_memoryModule (wellFormed : specification.WellFormed) {id : InteractionId}
    (known : id.index < specification.interactions.size) :
    ∃ written, specification.memoryModule id = .ok written := by
  obtain ⟨interaction, placed, member⟩ := exists_entryAt known
  refine exists_bind_eq_ok ⟨interaction, placed⟩ fun other same => ?_
  cases same.symm.trans placed
  refine exists_bind_eq_ok (exists_mapM_eq_ok fun local_ isLocal => ?_) fun _ _ => ⟨_, rfl⟩
  exact exists_variableAt ((wellFormed.diagrams interaction member).localsKnown local_ isLocal)

private theorem exists_scriptDeclaration {id : ScriptId}
    (known : id.index < specification.scripts.size) :
    ∃ declared, specification.scriptDeclaration id = .ok declared := by
  obtain ⟨script, placed, _⟩ := exists_entryAt known
  exact exists_bind_eq_ok ⟨script, placed⟩ fun _ _ => ⟨_, rfl⟩

/-- The module of every group can be written. -/
theorem succeeds_groupModule (linked : specification.Linked)
    (wellFormed : specification.WellFormed) (admits : specification.Admits allowed)
    {id : GroupId} (known : id.index < specification.groups.size) :
    (specification.groupModule id).Succeeds allowed := by
  obtain ⟨group, placed, member⟩ := exists_entryAt known
  refine Attempt.completes_lift_bind ⟨group, placed⟩ fun other same => ?_
  cases same.symm.trans placed
  have interactionsKnown := wellFormed.interactionsKnown group member
  have scriptsKnown := wellFormed.scriptsKnown group member
  refine Attempt.completes_lift_bind (exists_groupName known) fun name _ => ?_
  refine Attempt.Succeeds.bind (Attempt.succeeds_mapM fun script isScript => ?_) fun _ => ?_
  · exact Attempt.succeeds_lift (exists_scriptDeclaration (scriptsKnown script isScript))
  refine Attempt.Succeeds.bind (Attempt.succeeds_mapM fun interaction isInteraction => ?_)
    fun _ => ?_
  · exact Attempt.succeeds_lift
      (exists_memoryModule wellFormed (interactionsKnown interaction isInteraction))
  exact (Attempt.succeeds_mapM fun interaction isInteraction =>
    succeeds_interactionModule linked wellFormed admits
      (interactionsKnown interaction isInteraction)).bind fun _ => trivial

/-- A subject that exists has events, if any, from a group that exists. -/
theorem exists_eventGroup (linked : specification.Linked)
    (eventsKnown : specification.EventsKnown) {subject : Subject}
    (known : subject.Known specification) :
    ∃ found, specification.eventGroup subject = .ok found ∧
      ∀ group ∈ found, group.index < specification.groups.size := by
  have ofInteraction : ∀ id : InteractionId, id.index < specification.interactions.size →
      ∃ interaction, specification.interaction id = .ok interaction ∧
        interaction.group.index < specification.groups.size := by
    intro id inside
    obtain ⟨interaction, placed, member⟩ := exists_entryAt inside
    exact ⟨interaction, placed, linked.interactionsGrouped interaction member⟩
  cases subject with
  | interaction id =>
      obtain ⟨interaction, placed, grouped⟩ := ofInteraction id known
      refine ⟨some interaction.group, ?_, by rintro _ ⟨⟩; exact grouped⟩
      rw [eventGroup, placed]
      rfl
  | target group =>
      exact ⟨some group, rfl, by rintro _ ⟨⟩; exact known⟩
  | script id =>
      obtain ⟨script, placed, member⟩ := exists_entryAt known
      have sourceKnown := eventsKnown script member
      cases provided : script.events with
      | none =>
          refine ⟨none, bind_eq_ok_iff.mpr ⟨script, placed, ?_⟩, by simp⟩
          simp only [provided]
          rfl
      | some source =>
          have isKnown := sourceKnown source provided
          cases source with
          | interaction id =>
              obtain ⟨interaction, interactionPlaced, grouped⟩ := ofInteraction id isKnown
              refine ⟨some interaction.group, bind_eq_ok_iff.mpr ⟨script, placed, ?_⟩,
                by rintro _ ⟨⟩; exact grouped⟩
              simp only [provided]
              exact bind_eq_ok_iff.mpr ⟨interaction, interactionPlaced, rfl⟩
          | target group =>
              refine ⟨some group, bind_eq_ok_iff.mpr ⟨script, placed, ?_⟩,
                by rintro _ ⟨⟩; exact isKnown⟩
              simp only [provided]
              rfl

theorem exists_contextGroup (linked : specification.Linked)
    (eventsKnown : specification.EventsKnown) {subject : Subject}
    (known : subject.Known specification) :
    ∃ found, specification.contextGroup subject = .ok found ∧
      ∀ group ∈ found, group.index < specification.groups.size := by
  obtain ⟨provider, done, providerKnown⟩ := exists_eventGroup linked eventsKnown known
  rw [contextGroup, done]
  cases provider with
  | none =>
      exact ⟨none, rfl, by simp⟩
  | some group =>
      have groupKnown := providerKnown group rfl
      obtain ⟨found, placed⟩ := exists_group groupKnown
      refine ⟨if found.target.isSome then some group else none, ?_, ?_⟩
      · change (specification.group group >>= _) = _
        rw [placed]
        rfl
      · intro other member
        split at member
        · cases member
          exact groupKnown
        · cases member

private theorem succeeds_contextIn (linked : specification.Linked)
    (eventsKnown : specification.EventsKnown) (admits : specification.Admits allowed)
    (model : SemanticModel) {subject : Subject} (known : subject.Known specification) :
    (specification.contextIn model subject).Succeeds allowed := by
  cases model with
  | trace =>
      exact trivial
  | timed =>
      obtain ⟨context, done, contextKnown⟩ := exists_contextGroup linked eventsKnown known
      refine Attempt.Succeeds.bind ?_ fun _ => trivial
      refine Attempt.completes_lift_bind ⟨context, done⟩ fun other same => ?_
      cases same.symm.trans done
      cases context with
      | none =>
          exact ⟨admits.logs _ _, trivial⟩
      | some group =>
          exact Attempt.succeeds_lift (exists_groupName (contextKnown group rfl))

private theorem succeeds_referenceTo (linked : specification.Linked)
    (admits : specification.Admits allowed) {subject : Subject}
    (known : subject.Known specification) :
    (specification.referenceTo subject).Succeeds allowed := by
  cases subject with
  | interaction id =>
      obtain ⟨interaction, placed, member⟩ := exists_entryAt known
      refine Attempt.completes_lift_bind ⟨interaction, placed⟩ fun other same => ?_
      cases same.symm.trans placed
      exact Attempt.completes_lift_bind
        (exists_groupName (linked.interactionsGrouped interaction member)) fun _ _ => trivial
  | target group =>
      refine Attempt.completes_lift_bind (exists_groupName known) fun name _ => ?_
      refine Attempt.completes_lift_bind (exists_group known) fun found _ => ?_
      split
      · exact trivial
      · exact ⟨admits.logs _ _, admits.remarks _ _, trivial⟩
  | script id =>
      obtain ⟨script, placed, member⟩ := exists_entryAt known
      refine Attempt.completes_lift_bind ⟨script, placed⟩ fun other same => ?_
      cases same.symm.trans placed
      exact Attempt.completes_lift_bind
        (exists_groupName (linked.scriptsGrouped script member)) fun _ _ => trivial

private theorem succeeds_sideOf (linked : specification.Linked)
    (eventsKnown : specification.EventsKnown) (admits : specification.Admits allowed)
    (model : SemanticModel) {subject : Subject}
    (known : subject.Known specification) :
    (specification.sideOf model subject).Succeeds allowed :=
  (succeeds_referenceTo linked admits known).bind fun _ =>
    (succeeds_contextIn linked eventsKnown admits model known).bind fun _ => trivial

private theorem succeeds_refinementAssertions (linked : specification.Linked)
    (eventsKnown : specification.EventsKnown) (admits : specification.Admits allowed)
    {property : Refinement} (leftKnown : property.left.Known specification)
    (rightKnown : property.right.Known specification) :
    (specification.refinementAssertions property).Succeeds allowed := by
  have one : ∀ given : Refinement, given.left.Known specification →
      given.right.Known specification →
      (specification.refinementAssertion given).Succeeds allowed := by
    intro given givenLeft givenRight
    exact (succeeds_sideOf linked eventsKnown admits given.model givenLeft).bind fun _ =>
      (succeeds_sideOf linked eventsKnown admits given.model givenRight).bind fun _ => trivial
  rw [refinementAssertions]
  split
  · exact (one property leftKnown rightKnown).bind fun _ => trivial
  · exact (one property leftKnown rightKnown).bind fun _ =>
      (one property.swapped rightKnown leftKnown).bind fun _ => trivial

/-- The assertions of a property can be written if its subjects exist. -/
theorem succeeds_assertions (linked : specification.Linked)
    (eventsKnown : specification.EventsKnown) (admits : specification.Admits allowed)
    {property : Property} (known : ∀ subject ∈ property.subjects, subject.Known specification) :
    (specification.assertions property).Succeeds allowed := by
  cases property with
  | refinement property =>
      exact succeeds_refinementAssertions linked eventsKnown admits
        (known property.left (by simp [Property.subjects]))
        (known property.right (by simp [Property.subjects]))
  | core property =>
      exact Attempt.Succeeds.bind
        ((succeeds_sideOf linked eventsKnown admits property.model
          (known property.subject (by simp [Property.subjects]))).bind fun _ => trivial)
        fun _ => trivial
  | sequence property =>
      have ownKnown := known (.interaction property.interaction) (by simp [Property.subjects])
      obtain ⟨interaction, placed, member⟩ := exists_entryAt ownKnown
      have targetKnown : (Subject.target interaction.group).Known specification :=
        linked.interactionsGrouped interaction member
      refine Attempt.completes_lift_bind
        (exists_bind_eq_ok ⟨interaction, placed⟩ fun _ _ => ⟨_, rfl⟩) fun refinement done => ?_
      obtain ⟨other, same, last⟩ := bind_eq_ok_iff.mp done
      cases same.symm.trans placed
      cases last
      cases property.kind with
      | holds =>
          exact succeeds_refinementAssertions linked eventsKnown admits targetKnown ownKnown
      | observed =>
          exact succeeds_refinementAssertions linked eventsKnown admits ownKnown targetKnown

def NamesFile (specification : Specification) (id : GroupId) (file : GeneratedFile) : Prop :=
  ∃ name, specification.groupName id = .ok name ∧ file.name = name ++ ".csp"

/-- The file of every group can be written. -/
theorem completes_groupFile (linked : specification.Linked)
    (wellFormed : specification.WellFormed) (admits : specification.Admits allowed)
    (configuration : Configuration) {id : GroupId}
    (known : id.index < specification.groups.size) :
    (specification.groupFile configuration id).Completes allowed
      (specification.NamesFile id) := by
  refine Attempt.completes_lift_bind (exists_groupName known) fun name named => ?_
  refine ⟨admits.logs _ _, ?_⟩
  refine (succeeds_groupModule linked wellFormed admits known).bind fun content => ?_
  obtain ⟨group, placed, member⟩ := exists_entryAt known
  refine Attempt.completes_lift_bind ⟨group, placed⟩ fun other same => ?_
  cases same.symm.trans placed
  have subjectsKnown := wellFormed.subjectsKnown group member
  refine (Attempt.succeeds_mapM fun property isProperty =>
    succeeds_assertions linked wellFormed.eventsKnown admits
      (subjectsKnown property isProperty)).bind fun _ => ?_
  exact ⟨name, named, rfl⟩

/-- Generation comes to the library and one file for every group, in order. -/
theorem completes_generate (linked : specification.Linked)
    (wellFormed : specification.WellFormed) (admits : specification.Admits allowed)
    (configuration : Configuration) :
    (specification.generate configuration).Completes allowed fun files =>
      ∃ groupFiles, files = ⟨configuration.libraryFile, libraryText configuration⟩ :: groupFiles ∧
        List.Forall₂ specification.NamesFile specification.groupIds groupFiles := by
  have each : ∀ id ∈ specification.groupIds,
      (specification.groupFile configuration id).Completes allowed
        (specification.NamesFile id) := by
    intro id member
    obtain ⟨index, inRange, rfl⟩ := List.mem_map.mp member
    exact completes_groupFile linked wellFormed admits configuration
      (List.mem_range.mp inRange)
  exact (Attempt.completes_mapM each).bind fun groupFiles named =>
    ⟨admits.logs _ _, groupFiles, rfl, named⟩

end Specification

/-- The place of a fragment is one of those that were given for fragments. -/
theorem Diagram.exists_of_location {diagram : Diagram} {fragment : FragmentId}
    {place : SourceSpan} (located : diagram.location fragment = some place) :
    ∃ entry ∈ diagram.locations, entry.2 = place := by
  -- a later entry replaces an earlier one, so what was found before is carried along
  have behind : ∀ (entries : List (FragmentId × SourceSpan)) (start : Option SourceSpan),
      entries.foldl (fun found entry => if entry.1 = fragment then some entry.2 else found)
        start = some place →
      start = some place ∨ ∃ entry ∈ entries, entry.2 = place := by
    intro entries
    induction entries with
    | nil =>
        exact fun start found => Or.inl found
    | cons entry rest inductionHypothesis =>
        intro start found
        rcases inductionHypothesis _ found with isStart | ⟨later, isLater, same⟩
        · dsimp only at isStart
          split at isStart
          · exact Or.inr ⟨entry, List.mem_cons_self, Option.some.inj isStart⟩
          · exact Or.inl isStart
        · exact Or.inr ⟨later, List.mem_cons_of_mem entry isLater, same⟩
  rcases behind diagram.locations none located with impossible | found
  · cases impossible
  · exact found

/-- A desk that can show the places of all fragments takes in what generation
reports. -/
theorem Desk.admits_takes {specification : Specification} {desk : Desk}
    (shown : ∀ interaction ∈ specification.interactions, ∀ entry ∈ interaction.locations,
      desk.CanShow entry.2) :
    specification.Admits desk.Takes where
  logs := takes_log
  remarks title message := takes_general title message .warning
  warnings id interaction placed fragment message := by
    apply takes_fragment
    intro place located
    obtain ⟨entry, isEntry, rfl⟩ := Diagram.exists_of_location located
    exact shown interaction (Array.mem_of_getElem? (entryAt_eq_ok_iff.mp placed)) entry isEntry

/-- A well-formed specification that was built entry by entry is generated to the
end at every desk that can show the places of its fragments: to the library
first, and then to one file for every group, in the order of the groups and each
under the name of its group. -/
theorem Specification.Built.generates {specification : Specification}
    (built : specification.Built) (wellFormed : specification.WellFormed)
    (configuration : Configuration) {desk : Desk}
    (shown : ∀ interaction ∈ specification.interactions, ∀ entry ∈ interaction.locations,
      desk.CanShow entry.2) :
    ∃ notices final groupFiles,
      desk.follow (specification.generate configuration) =
        ⟨notices, .ok (final,
          ⟨configuration.libraryFile, libraryText configuration⟩ :: groupFiles)⟩ ∧
      List.Forall₂ specification.NamesFile specification.groupIds groupFiles := by
  have completes := completes_generate built.linked wellFormed (Desk.admits_takes shown)
    configuration
  obtain ⟨notices, final, files, followed, groupFiles, rfl, named⟩ :=
    Desk.exists_followAfter completes rfl []
  exact ⟨notices, final, groupFiles, followed, named⟩

/-- One component waits in a critical region, at a known place, before it gives a
value to the other one inside of an until fragment. -/
def handover : Diagram where
  name := "Handover"
  body := [⟨2⟩, ⟨5⟩]
  lifelines := [⟨0⟩, ⟨1⟩]
  locals := [⟨0⟩]
  fragments := #[.message ⟨⟨0⟩, ⟨1⟩, .event "give", [.value ⟨0⟩]⟩, .wait ⟨1⟩ ⟨1⟩, .critical ⟨1⟩,
    .operand (some ⟨2⟩) [⟨0⟩], .par [⟨3⟩], .until .every ⟨4⟩]
  expressions := #[.var ⟨0⟩, .natural 2, .binary .lt ⟨0⟩ ⟨1⟩]
  locations := [(⟨2⟩, ⟨4, 9, 0⟩)]

/-- A group with the handover, a script that uses its events, and a property. -/
def handoverSpecification : Specification where
  name := "Handovers"
  actors := #[⟨"A", .component⟩, ⟨"B", .component⟩]
  actorsByName := [("B", ⟨1⟩), ("A", ⟨0⟩)]
  vars := #[⟨"x", .nat, some ⟨0⟩⟩]
  constants := #[]
  groups := #[⟨some "Given", none, [⟨0⟩], [⟨0⟩], [.sequence ⟨.holds, .timed, false, ⟨0⟩⟩]⟩]
  interactions := #[⟨handover, ⟨0⟩⟩]
  scripts := #[⟨"Check", "STOP", ⟨0⟩, some (.interaction ⟨0⟩)⟩]

theorem built_handover : handoverSpecification.Built := by
  have grouped := Specification.Built.enterGroup ⟨some "Given", none, [], [], []⟩
    (.empty "Handovers")
  have one := grouped.addActor (Specification.addActor_eq_ok "A" .component rfl)
  have two := one.addActor (Specification.addActor_eq_ok "B" .component rfl)
  have kept := two.addVariable "x" .nat
  have drawn := kept.addInteraction
    (show Specification.addInteraction _ ⟨0⟩ handover = .ok (_, _) from rfl)
  have scripted := drawn.addScript
    (show Specification.addScript _ ⟨0⟩ "Check" "STOP" (some (.interaction ⟨0⟩)) =
      .ok (_, _) from rfl)
  exact scripted.addProperty
    (show Specification.addProperty _ ⟨0⟩ (.sequence ⟨.holds, .timed, false, ⟨0⟩⟩) =
      .ok handoverSpecification from rfl)

theorem wellFormed_handover : handoverSpecification.WellFormed where
  diagrams := by
    intro interaction member
    cases Array.mem_singleton.mp member
    exact Diagram.Closed.wellFormed (by decide) (by decide)
  interactionsKnown := by decide
  scriptsKnown := by decide
  eventsKnown := by decide
  subjectsKnown := by decide

/-- A desk with the file that the place of the critical region is in. -/
def handoverDesk : Desk :=
  { Desk.empty false with files := #[⟨"handover.txt", "one\ntwo three\n"⟩] }

theorem generates_handover :
    handoverSpecification.Built ∧ handoverSpecification.WellFormed ∧
      (∀ interaction ∈ handoverSpecification.interactions, ∀ entry ∈ interaction.locations,
        handoverDesk.CanShow entry.2) ∧
      ∃ notices final file,
        handoverDesk.follow (handoverSpecification.generate .standard) =
          ⟨notices, .ok (final, [⟨"seqlib.csp", libraryText .standard⟩, file])⟩ ∧
        handoverSpecification.NamesFile ⟨0⟩ file := by
  have shown : ∀ interaction ∈ handoverSpecification.interactions,
      ∀ entry ∈ interaction.locations, handoverDesk.CanShow entry.2 := by
    intro interaction member entry isEntry
    cases Array.mem_singleton.mp member
    cases List.mem_singleton.mp isEntry
    exact fun title message severity => ⟨_, rfl⟩
  obtain ⟨notices, final, groupFiles, followed, named⟩ :=
    built_handover.generates wellFormed_handover .standard shown
  cases named with
  | cons fileNamed rest =>
      cases rest
      exact ⟨built_handover, wellFormed_handover, shown, notices, final, _, followed, fileNamed⟩

end SequenceChart
