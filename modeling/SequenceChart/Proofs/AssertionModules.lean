import SequenceChart.Proofs.FilePairs
import SequenceChart.Proofs.QualifiedNames

/-!
# The modules that assertions need

The file of a group includes the library and defines the module of the group,
but its assertions may name the modules of other groups.  These are the groups
that define the processes to be checked and, in timed checks, the groups whose
targets provide the events of these processes.  A file can be read on its own if
and only if all of them go by the name of its own group.
-/

namespace SequenceChart

def Reference.space : Reference → Option String
  | .main group _ => some group
  | .target group => some group
  | .script group _ => some group
  | .absent _ => none

def Side.spaces (side : Side) : List String :=
  side.context.toList ++ side.process.space.toList

def Assertion.sides : Assertion → List Side
  | .refinement _ _ abstract concrete => [abstract, concrete]
  | .core _ _ subject => [subject]

def Assertion.spaces (assertion : Assertion) : List String :=
  assertion.sides.flatMap Side.spaces

/-- The module of a side's process is printed in front of its name, and the
module of its context in front of the lift. -/
def Side.IsQualified (side : Side) : Prop :=
  (match side.process.space with
    | some space => ∃ name, side.process.text = qualified space name
    | none => ∃ remark, side.process.text = "STOP " ++ comment remark) ∧
  side.text = match side.context with
    | some space => qualified space "TT" ++ "(" ++ side.process.text ++ ")"
    | none => side.process.text

theorem Side.isQualified (side : Side) : side.IsQualified := by
  obtain ⟨context, process⟩ := side
  constructor
  · cases process with
    | main group interaction =>
        exact ⟨qualified interaction Setting.mainName, by
          simp [Reference.text, qualified, String.append_assoc]⟩
    | target group =>
        exact ⟨"Target", rfl⟩
    | script group name =>
        exact ⟨name, rfl⟩
    | absent group =>
        exact ⟨group ++ " has no target", rfl⟩
  · cases context with
    | none =>
        rfl
    | some space =>
        simp [Side.text, liftText, application, commaSeparated, joinWith, appendAll]

/-- The model in which a property is checked. -/
def Property.model : Property → SemanticModel
  | .refinement property => property.model
  | .core property => property.model
  | .sequence property => property.model

namespace Specification

variable {specification : Specification}

/-- The property is about the subject.  A property of an interaction is about the
target of its group as well. -/
def Checks (specification : Specification) (subject : Subject) : Property → Prop
  | .refinement property => subject = property.left ∨ subject = property.right
  | .core property => subject = property.subject
  | .sequence property => subject = .interaction property.interaction ∨
      ∃ interaction, specification.interaction property.interaction = .ok interaction ∧
        subject = .target interaction.group

/-- There is a process for the subject, which is not so for the target of a group
without one. -/
def HasProcess (specification : Specification) : Subject → Prop
  | .target id => ∃ group, specification.group id = .ok group ∧ group.target.isSome = true
  | _ => True

/-- A group is needed for a subject if it defines the process, or if its target
provides the events of a timed check. -/
inductive Needs (specification : Specification) (model : SemanticModel) (subject : Subject)
    (id : GroupId) : Prop
  | definition : specification.homeOf subject = .ok id → specification.HasProcess subject →
      Needs specification model subject id
  | events : model = .timed → specification.contextGroup subject = .ok (some id) →
      Needs specification model subject id

/-- The module belongs to a needed group, or lifts over no events because no group
provides any. -/
def NeedsModule (specification : Specification) (model : SemanticModel) (subject : Subject)
    (space : String) : Prop :=
  (∃ id, specification.Needs model subject id ∧ specification.groupName id = .ok space) ∨
    (model = .timed ∧ specification.contextGroup subject = .ok none ∧ space = emptyContext)

/-- The name of a process leads to the group that defines it. -/
theorem mem_space_iff {subject : Subject} {home : GroupId} {name : String}
    {reference : Reference} (homeDone : specification.homeOf subject = .ok home)
    (named : specification.groupName home = .ok name)
    (calls : specification.Calls name reference subject) (space : String) :
    reference.space = some space ↔ specification.HasProcess subject ∧
      ∃ id, specification.homeOf subject = .ok id ∧ specification.groupName id = .ok space := by
  have only : (∃ id, specification.homeOf subject = .ok id ∧
      specification.groupName id = .ok space) ↔ name = space := by
    simp only [homeDone, Except.ok.injEq, exists_eq_left', named]
  rw [only]
  cases subject with
  | interaction id =>
      obtain ⟨interaction, _, rfl⟩ := calls
      simp [Reference.space, HasProcess]
  | target id =>
      obtain ⟨group, placed, rfl⟩ := calls
      by_cases given : group.target.isSome = true
      · simp [Reference.space, HasProcess, placed, given]
      · simp [Reference.space, HasProcess, placed, given]
  | script id =>
      obtain ⟨script, _, rfl⟩ := calls
      simp [Reference.space, HasProcess]

/-- One side of an assertion names the modules that its subject needs. -/
theorem exists_side (linked : specification.Linked)
    (eventsKnown : specification.EventsKnown) (model : SemanticModel) {subject : Subject}
    (known : subject.Known specification) :
    ∃ side, (specification.sideOf model subject).result = .ok side ∧
      ∀ space, space ∈ side.spaces ↔ specification.NeedsModule model subject space := by
  obtain ⟨home, name, reference, context, space, homeDone, named, _, calls, contextDone,
    isContext, traced, timed⟩ := exists_sides linked eventsKnown known
  have inReference := mem_space_iff homeDone named calls
  cases model with
  | trace =>
      refine ⟨_, traced, fun other => ?_⟩
      simp only [Side.spaces, Option.toList_none, List.nil_append, Option.mem_toList,
        inReference]
      constructor
      · rintro ⟨present, id, isHome, isNamed⟩
        exact .inl ⟨id, .definition isHome present, isNamed⟩
      · rintro (⟨id, isHome | ⟨⟨⟩, _⟩, isNamed⟩ | ⟨⟨⟩, _⟩)
        exact ⟨‹_›, id, isHome, isNamed⟩
  | timed =>
      refine ⟨_, timed, fun other => ?_⟩
      simp only [Side.spaces, List.mem_append, Option.mem_toList, inReference]
      constructor
      · rintro (⟨⟨⟩⟩ | ⟨present, id, isHome, isNamed⟩)
        · cases context with
          | none =>
              exact .inr ⟨rfl, contextDone, isContext⟩
          | some provider =>
              exact .inl ⟨provider, .events rfl contextDone, isContext⟩
        · exact .inl ⟨id, .definition isHome present, isNamed⟩
      · rintro (⟨id, isHome | ⟨_, provides⟩, isNamed⟩ | ⟨_, provides, rfl⟩)
        · exact .inr ⟨‹_›, id, isHome, isNamed⟩
        · cases contextDone.symm.trans provides
          cases isContext.symm.trans isNamed
          exact .inl rfl
        · cases contextDone.symm.trans provides
          cases isContext
          exact .inl rfl

/-- The assertions of a refinement name the modules that its sides need. -/
theorem exists_refinementAssertions (linked : specification.Linked)
    (eventsKnown : specification.EventsKnown) {property : Refinement}
    (leftKnown : property.left.Known specification)
    (rightKnown : property.right.Known specification) :
    ∃ checks, (specification.refinementAssertions property).result = .ok checks ∧
      ∀ space, space ∈ checks.flatMap Assertion.spaces ↔
        specification.NeedsModule property.model property.left space ∨
          specification.NeedsModule property.model property.right space := by
  obtain ⟨left, leftDone, leftSpaces⟩ :=
    exists_side linked eventsKnown property.model leftKnown
  obtain ⟨right, rightDone, rightSpaces⟩ :=
    exists_side linked eventsKnown property.model rightKnown
  have forward : (specification.refinementAssertion property).result =
      .ok (.refinement property.negated property.model right left) :=
    Attempt.result_bind_eq_ok_iff.mpr ⟨left, leftDone,
      Attempt.result_bind_eq_ok_iff.mpr ⟨right, rightDone, rfl⟩⟩
  have backward : (specification.refinementAssertion property.swapped).result =
      .ok (.refinement property.negated property.model left right) :=
    Attempt.result_bind_eq_ok_iff.mpr ⟨right, rightDone,
      Attempt.result_bind_eq_ok_iff.mpr ⟨left, leftDone, rfl⟩⟩
  unfold refinementAssertions
  cases property.operator with
  | refines =>
      refine ⟨_, Attempt.result_bind_eq_ok_iff.mpr ⟨_, forward, rfl⟩, fun space => ?_⟩
      simp [Assertion.spaces, Assertion.sides, leftSpaces, rightSpaces, or_comm]
  | equals =>
      refine ⟨_, Attempt.result_bind_eq_ok_iff.mpr ⟨_, forward,
        Attempt.result_bind_eq_ok_iff.mpr ⟨_, backward, rfl⟩⟩, fun space => ?_⟩
      simp only [Assertion.spaces, Assertion.sides, List.flatMap_cons, List.flatMap_nil,
        List.mem_append, List.not_mem_nil, leftSpaces, rightSpaces]
      tauto

/-- A property of an interaction is a refinement between it and the target. -/
theorem exists_sequenceRefinement (property : SequenceProperty) {interaction : Interaction}
    (placed : specification.interaction property.interaction = .ok interaction) :
    ∃ refinement, specification.sequenceRefinement property = .ok refinement ∧
      refinement.model = property.model ∧
      ((refinement.left = .target interaction.group ∧
          refinement.right = .interaction property.interaction) ∨
        (refinement.left = .interaction property.interaction ∧
          refinement.right = .target interaction.group)) := by
  refine ⟨_, bind_eq_ok_iff.mpr ⟨interaction, placed, rfl⟩, ?_⟩
  cases property.kind with
  | holds =>
      exact ⟨rfl, .inl ⟨rfl, rfl⟩⟩
  | observed =>
      exact ⟨rfl, .inr ⟨rfl, rfl⟩⟩

/-- The assertions of a property name the modules that what it is about needs. -/
theorem exists_assertions (linked : specification.Linked)
    (eventsKnown : specification.EventsKnown) {property : Property}
    (known : ∀ subject ∈ property.subjects, subject.Known specification) :
    ∃ checks, (specification.assertions property).result = .ok checks ∧
      ∀ space, space ∈ checks.flatMap Assertion.spaces ↔
        ∃ subject, specification.Checks subject property ∧
          specification.NeedsModule property.model subject space := by
  cases property with
  | refinement property =>
      obtain ⟨checks, done, spaces⟩ := exists_refinementAssertions linked eventsKnown
        (known property.left (by simp [Property.subjects]))
        (known property.right (by simp [Property.subjects]))
      refine ⟨checks, done, fun space => ?_⟩
      simp [spaces, Checks, Property.model, or_and_right, exists_or]
  | core property =>
      obtain ⟨side, sideDone, spaces⟩ := exists_side linked eventsKnown property.model
        (known property.subject (by simp [Property.subjects]))
      refine ⟨[.core property.negated property.kind side],
        Attempt.result_bind_eq_ok_iff.mpr ⟨_, Attempt.result_bind_eq_ok_iff.mpr
          ⟨side, sideDone, rfl⟩, rfl⟩, fun space => ?_⟩
      simp [Assertion.spaces, Assertion.sides, spaces, Checks, Property.model]
  | sequence property =>
      have ownKnown := known (.interaction property.interaction) (by simp [Property.subjects])
      obtain ⟨interaction, placed, member⟩ := exists_entryAt ownKnown
      have targetKnown : (Subject.target interaction.group).Known specification :=
        linked.interactionsGrouped interaction member
      have about : ∀ subject, specification.Checks subject (.sequence property) ↔
          subject = .interaction property.interaction ∨ subject = .target interaction.group := by
        intro subject
        have found : specification.interaction property.interaction = .ok interaction := placed
        simp [Checks, found]
      obtain ⟨refinement, refinementDone, sameModel, sides⟩ :=
        exists_sequenceRefinement property placed
      rcases sides with ⟨isLeft, isRight⟩ | ⟨isLeft, isRight⟩
      · obtain ⟨checks, done, spaces⟩ := exists_refinementAssertions linked eventsKnown
          (isLeft ▸ targetKnown) (isRight ▸ ownKnown)
        refine ⟨checks, Attempt.result_bind_eq_ok_iff.mpr ⟨refinement, refinementDone, done⟩,
          fun space => ?_⟩
        simp [spaces, about, isLeft, isRight, sameModel, Property.model, or_and_right, exists_or,
          or_comm]
      · obtain ⟨checks, done, spaces⟩ := exists_refinementAssertions linked eventsKnown
          (isLeft ▸ ownKnown) (isRight ▸ targetKnown)
        refine ⟨checks, Attempt.result_bind_eq_ok_iff.mpr ⟨refinement, refinementDone, done⟩,
          fun space => ?_⟩
        simp [spaces, about, isLeft, isRight, sameModel, Property.model, or_and_right, exists_or]

/-- The assertions of a group name no module but the group's own and the one of the
library that lifts over no events. -/
def SelfContained (specification : Specification) (id : GroupId) : Prop :=
  ∀ name checks, specification.groupName id = .ok name →
    (specification.assertionsOf id).result = .ok checks →
    ∀ space ∈ checks.flatMap Assertion.spaces, space = name ∨ space = emptyContext

/-- The assertions of a group name the modules that its properties need. -/
theorem exists_assertionsOf (linked : specification.Linked)
    (eventsKnown : specification.EventsKnown) {id : GroupId} {group : Group}
    (placed : specification.group id = .ok group)
    (subjectsKnown : ∀ property ∈ group.properties, ∀ subject ∈ property.subjects,
      subject.Known specification) :
    ∃ checks, (specification.assertionsOf id).result = .ok checks ∧
      ∀ space, space ∈ checks.flatMap Assertion.spaces ↔
        ∃ property ∈ group.properties, ∃ subject, specification.Checks subject property ∧
          specification.NeedsModule property.model subject space := by
  have each : ∀ property ∈ group.properties, ∃ checks,
      (specification.assertions property).result = .ok checks := by
    intro property member
    obtain ⟨checks, done, _⟩ :=
      exists_assertions linked eventsKnown (subjectsKnown property member)
    exact ⟨checks, done⟩
  obtain ⟨checks, checksDone⟩ := exists_mapM_eq_ok each
  have collected : (specification.assertionsOf id).result = .ok checks.flatten := by
    refine Attempt.result_bind_eq_ok_iff.mpr ⟨group, placed, ?_⟩
    refine Attempt.result_bind_eq_ok_iff.mpr ⟨checks, ?_, rfl⟩
    rw [Attempt.result_mapM]
    exact checksDone
  rw [mapM_eq_ok_iff] at checksDone
  refine ⟨checks.flatten, collected, fun space => ?_⟩
  -- Each list of assertions is the one that `exists_assertions` describes.
  have described : ∀ property ∈ group.properties, ∀ found,
      (specification.assertions property).result = .ok found →
      (space ∈ found.flatMap Assertion.spaces ↔
        ∃ subject, specification.Checks subject property ∧
          specification.NeedsModule property.model subject space) := by
    intro property member found done
    obtain ⟨same, sameDone, spaces⟩ :=
      exists_assertions linked eventsKnown (subjectsKnown property member)
    cases done.symm.trans sameDone
    exact spaces space
  constructor
  · intro named
    obtain ⟨assertion, member, inAssertion⟩ := List.mem_flatMap.mp named
    obtain ⟨found, isFound, inFound⟩ := List.mem_flatten.mp member
    obtain ⟨property, isProperty, done⟩ := exists_left_of_mem checksDone isFound
    exact ⟨property, isProperty, (described property isProperty found done).mp
      (List.mem_flatMap.mpr ⟨assertion, inFound, inAssertion⟩)⟩
  · rintro ⟨property, isProperty, needed⟩
    obtain ⟨found, isFound, done⟩ := exists_right_of_mem checksDone isProperty
    obtain ⟨assertion, inFound, inAssertion⟩ := List.mem_flatMap.mp
      ((described property isProperty found done).mpr needed)
    exact List.mem_flatMap.mpr
      ⟨assertion, List.mem_flatten.mpr ⟨found, isFound, inFound⟩, inAssertion⟩

/-- The file of a group includes the library, and defines the module of the group
before the assertions. -/
theorem result_groupFile (configuration : Configuration) {id : GroupId} {name : String}
    {content : Declaration} {checks : List Assertion}
    (named : specification.groupName id = .ok name)
    (contentDone : (specification.groupModule id).result = .ok content)
    (checksDone : (specification.assertionsOf id).result = .ok checks) :
    (specification.groupFile configuration id).result =
      .ok ⟨name ++ ".csp", sectionsText
        ((configuration.heading (specification.groupHeading name)).map comment ++
          [inclusion configuration.libraryFile, content.text] ++
          if checks.isEmpty then [] else [joinWith "\n" (checks.map Assertion.text)])⟩ := by
  obtain ⟨group, placed, rest⟩ := Attempt.result_bind_eq_ok_iff.mp checksDone
  obtain ⟨found, foundDone, last⟩ := Attempt.result_bind_eq_ok_iff.mp rest
  cases last
  have heading : (configuration.heading (specification.groupHeading name)).map comment =
      if configuration.header then [comment (specification.groupHeading name)] else [] := by
    rw [Configuration.heading]
    split <;> rfl
  rw [heading]
  exact Attempt.result_bind_eq_ok_iff.mpr ⟨name, named,
    Attempt.result_bind_eq_ok_iff.mpr ⟨(), rfl,
      Attempt.result_bind_eq_ok_iff.mpr ⟨content, contentDone,
        Attempt.result_bind_eq_ok_iff.mpr ⟨group, placed,
          Attempt.result_bind_eq_ok_iff.mpr ⟨found, foundDone, rfl⟩⟩⟩⟩⟩

/-- The file of a group includes the library alone and defines the module of the
group alone.  Its assertions name the modules of the groups that define the
processes to be checked and of those that provide the events of timed checks, and
the module that lifts over no events where no group provides any.  The file needs
no other module if and only if all these groups go by the name of its own. -/
theorem assertions_name_needed_modules {specification : Specification}
    (linked : specification.Linked) (eventsKnown : specification.EventsKnown) {id : GroupId}
    {group : Group} (placed : specification.group id = .ok group)
    (subjectsKnown : ∀ property ∈ group.properties, ∀ subject ∈ property.subjects,
      subject.Known specification) :
    ∃ name checks, specification.groupName id = .ok name ∧
      (specification.assertionsOf id).result = .ok checks ∧
      (∀ configuration content, (specification.groupModule id).result = .ok content →
        (∃ exported, content = .module name [] exported) ∧
        (specification.groupFile configuration id).result =
          .ok ⟨name ++ ".csp", sectionsText
            ((configuration.heading (specification.groupHeading name)).map comment ++
              [inclusion configuration.libraryFile, content.text] ++
              if checks.isEmpty then [] else [joinWith "\n" (checks.map Assertion.text)])⟩) ∧
      (∀ assertion ∈ checks, ∀ side ∈ assertion.sides, side.IsQualified) ∧
      (∀ space, space ∈ checks.flatMap Assertion.spaces ↔
        ∃ property ∈ group.properties, ∃ subject, specification.Checks subject property ∧
          specification.NeedsModule property.model subject space) ∧
      (specification.SelfContained id ↔
        ∀ property ∈ group.properties, ∀ subject, specification.Checks subject property →
          ∀ other space, specification.Needs property.model subject other →
            specification.groupName other = .ok space →
            space = name ∨ space = emptyContext) := by
  have known : id.index < specification.groups.size :=
    (Array.getElem?_eq_some_iff.mp (entryAt_eq_ok_iff.mp placed)).1
  obtain ⟨name, named⟩ := exists_groupName known
  obtain ⟨checks, checksDone, spaces⟩ :=
    exists_assertionsOf linked eventsKnown placed subjectsKnown
  refine ⟨name, checks, named, checksDone, ?_, ?_, spaces, ?_⟩
  · intro configuration content contentDone
    obtain ⟨_, _, _, _, _, written⟩ := exists_items_of_groupModule placed named contentDone
    exact ⟨⟨_, written⟩, result_groupFile configuration named contentDone checksDone⟩
  · intro assertion _ side _
    exact side.isQualified
  · constructor
    · intro closed property isProperty subject isChecked other space needed isNamed
      exact closed name checks named checksDone space
        ((spaces space).mpr ⟨property, isProperty, subject, isChecked, .inl
          ⟨other, needed, isNamed⟩⟩)
    · intro own sameName sameChecks sameNamed sameDone space member
      cases named.symm.trans sameNamed
      cases checksDone.symm.trans sameDone
      obtain ⟨property, isProperty, subject, isChecked, needed⟩ := (spaces space).mp member
      rcases needed with ⟨other, needed, isNamed⟩ | ⟨_, _, rfl⟩
      · exact own property isProperty subject isChecked other space needed isNamed
      · exact .inr rfl

end Specification

/-- The audit is lifted over the events of the plant, and the module of the plant
is not in its file. -/
theorem not_selfContained_audit :
    auditSpecification.Built ∧ auditSpecification.EventsKnown ∧
      (∀ group ∈ auditSpecification.groups, ∀ property ∈ group.properties,
        ∀ subject ∈ property.subjects, subject.Known auditSpecification) ∧
      auditSpecification.groupName ⟨1⟩ = .ok "Audit" ∧
      (∃ checks, (auditSpecification.assertionsOf ⟨1⟩).result = .ok checks ∧
        checks.map Assertion.text = ["assert Plant::TT(Audit::Watch) :[deadlock free]"]) ∧
      ¬ auditSpecification.SelfContained ⟨1⟩ := by
  refine ⟨built_audit, eventsKnown_audit, ?_, rfl, ⟨_, rfl, by decide⟩, ?_⟩
  · decide
  · intro closed
    have among := closed "Audit" _ rfl rfl "Plant" (by decide)
    exact absurd among (by decide)

/-- The assertion about the handover needs the module of its own group only. -/
theorem selfContained_handover :
    handoverSpecification.Linked ∧ handoverSpecification.EventsKnown ∧
      (∃ group, handoverSpecification.group ⟨0⟩ = .ok group ∧ group.properties.length = 1 ∧
        ∀ property ∈ group.properties, ∀ subject ∈ property.subjects,
          subject.Known handoverSpecification) ∧
      handoverSpecification.SelfContained ⟨0⟩ ∧
      ∃ checks, (handoverSpecification.assertionsOf ⟨0⟩).result = .ok checks ∧
        "Given" ∈ checks.flatMap Assertion.spaces := by
  have linked := built_handover.linked
  have eventsKnown : handoverSpecification.EventsKnown := wellFormed_handover.eventsKnown
  have subjectsKnown : ∀ property ∈ [Property.sequence ⟨.holds, .timed, false, ⟨0⟩⟩],
      ∀ subject ∈ property.subjects, subject.Known handoverSpecification := by
    simp [Property.subjects, Subject.Known, handoverSpecification]
  obtain ⟨name, checks, named, checksDone, _, _, spaces, closed⟩ :=
    Specification.assertions_name_needed_modules linked eventsKnown
      (show handoverSpecification.group ⟨0⟩ = .ok _ from rfl) subjectsKnown
  cases named
  refine ⟨linked, eventsKnown, ⟨_, rfl, rfl, subjectsKnown⟩, closed.mpr ?_, checks, checksDone,
    (spaces "Given").mpr ⟨_, List.mem_singleton_self _, .interaction ⟨0⟩, .inl rfl, .inl
      ⟨⟨0⟩, .definition rfl trivial, rfl⟩⟩⟩
  intro property isProperty subject isChecked other space needed isNamed
  cases List.mem_singleton.mp isProperty
  have home : handoverSpecification.homeOf subject = .ok ⟨0⟩ ∧
      handoverSpecification.contextGroup subject = .ok none := by
    rcases isChecked with rfl | ⟨interaction, placed, rfl⟩
    · exact ⟨rfl, rfl⟩
    · cases placed
      exact ⟨rfl, rfl⟩
  rcases needed with ⟨isHome, _⟩ | ⟨_, provides⟩
  · cases home.1.symm.trans isHome
    cases isNamed
    exact .inl rfl
  · cases home.2.symm.trans provides

end SequenceChart
