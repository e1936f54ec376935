import SequenceChart.Proofs.GenerationSuccess
import SequenceChart.Proofs.MemoryChannels
import SequenceChart.Proofs.Ownership

/-!
Assertions name processes by the modules they are defined in, and in timed
checks they lift them by the definition of another module.  The names are found
from the entries, which know their group; the modules are written from the
groups, which list their entries.  In a specification that was built both come
to the same: every name is defined by the module it names.
-/

namespace SequenceChart

/-- The item is visible from outside through the given modules, the outermost
first. -/
inductive Declaration.Exports (item : Declaration) : List String → Declaration → Prop
  | here {name : String} {hidden exported : List Declaration} :
      item ∈ exported → Exports item [name] (.module name hidden exported)
  | inside {name : String} {spaces : List String} {hidden exported : List Declaration}
      {inner : Declaration} :
      inner ∈ exported → Exports item spaces inner →
      Exports item (name :: spaces) (.module name hidden exported)

/-- What a visible module exports is visible through one more module. -/
theorem Declaration.Exports.trans {item inner outer : Declaration}
    {spaces further : List String} (first : Exports inner spaces outer)
    (next : Exports item further inner) : Exports item (spaces ++ further) outer := by
  induction first with
  | here member =>
      exact .inside member next
  | inside member _ inductionHypothesis =>
      exact .inside member inductionHypothesis

def Declaration.DefinesLift (space : String) (declared : Declaration) : Prop :=
  ∃ lift : Definition, lift.head = "TT(P)" ∧ Exports (.definition lift) [space] declared

namespace Specification

variable {specification : Specification}

section GroupModules

variable {id : GroupId} {group : Group} {name : String} {declared : Declaration}
  (placed : specification.group id = .ok group)
  (named : specification.groupName id = .ok name)
  (done : (specification.groupModule id).result = .ok declared)
include placed named done

/-- The module of a group has its name, and hides nothing. -/
theorem exists_items_of_groupModule :
    ∃ scripts memories interactions,
      List.Forall₂ (fun script item => specification.scriptDeclaration script = .ok item)
        group.scripts scripts ∧
      List.Forall₂ (fun interaction item =>
        (specification.interactionModule interaction).result = .ok item)
        group.interactions interactions ∧
      declared = .module name [] (group.target.toList.flatMap targetDeclarations ++ scripts ++
        memories ++ interactions) := by
  obtain ⟨same, samePlaced, rest⟩ := Attempt.result_bind_eq_ok_iff.mp done
  cases placed.symm.trans samePlaced
  obtain ⟨sameName, sameNamed, rest⟩ := Attempt.result_bind_eq_ok_iff.mp rest
  cases named.symm.trans sameNamed
  obtain ⟨scripts, scriptsDone, rest⟩ := Attempt.result_bind_eq_ok_iff.mp rest
  obtain ⟨memories, _, rest⟩ := Attempt.result_bind_eq_ok_iff.mp rest
  obtain ⟨interactions, interactionsDone, last⟩ := Attempt.result_bind_eq_ok_iff.mp rest
  cases last
  rw [Attempt.result_mapM, mapM_eq_ok_iff] at scriptsDone interactionsDone
  exact ⟨scripts, _, interactions, scriptsDone, interactionsDone, rfl⟩

/-- The module of a group exports its target, its scripts and its interactions. -/
theorem exports_of_groupModule :
    (∀ target ∈ group.target, ∀ item ∈ targetDeclarations target,
      Declaration.Exports item [name] declared) ∧
    (∀ script ∈ group.scripts, ∃ item, specification.scriptDeclaration script = .ok item ∧
      Declaration.Exports item [name] declared) ∧
    ∀ interaction ∈ group.interactions, ∃ item,
      (specification.interactionModule interaction).result = .ok item ∧
        Declaration.Exports item [name] declared := by
  obtain ⟨scripts, memories, interactions, scriptsDone, interactionsDone, rfl⟩ :=
    exists_items_of_groupModule placed named done
  refine ⟨?_, ?_, ?_⟩
  · intro target isTarget item member
    have among : item ∈ group.target.toList.flatMap targetDeclarations :=
      List.mem_flatMap.mpr ⟨target, by simpa using isTarget, member⟩
    exact .here (by simp only [List.mem_append, among, true_or])
  · intro script member
    obtain ⟨item, among, itemDone⟩ := exists_right_of_mem scriptsDone member
    exact ⟨item, itemDone, .here (by simp only [List.mem_append, among, true_or, or_true])⟩
  · intro interaction member
    obtain ⟨item, among, itemDone⟩ := exists_right_of_mem interactionsDone member
    exact ⟨item, itemDone, .here (List.mem_append_right _ among)⟩

end GroupModules

/-- The module of an interaction has its name and exports its main process. -/
theorem exports_of_interactionModule {id : InteractionId} {interaction : Interaction}
    (placed : specification.interaction id = .ok interaction) {declared : Declaration}
    (done : (specification.interactionModule id).result = .ok declared) :
    ∃ main, Declaration.Exports (.process Setting.mainName main) [interaction.name]
      declared := by
  obtain ⟨setting, memory, definitions, channels, found, _, rfl⟩ :=
    exists_main_of_interactionModule done
  obtain ⟨_, rfl, _⟩ := setting_facts placed found
  exact ⟨setting.mainBehaviour memory,
    .here (List.mem_append_right _ (List.mem_singleton_self _))⟩

/-- The group in which a subject is defined. -/
def homeOf (specification : Specification) : Subject → Except Fault GroupId
  | .interaction id => do
      let interaction ← specification.interaction id
      return interaction.group
  | .target group => .ok group
  | .script id => do
      let script ← specification.script id
      return script.group

def Calls (specification : Specification) (name : String) (reference : Reference) :
    Subject → Prop
  | .interaction id => ∃ interaction, specification.interaction id = .ok interaction ∧
      reference = .main name interaction.name
  | .target id => ∃ group, specification.group id = .ok group ∧
      reference = if group.target.isSome then .target name else .absent name
  | .script id => ∃ script, specification.script id = .ok script ∧
      reference = .script name script.name

/-- A subject that exists is named inside its group. -/
theorem exists_reference (linked : specification.Linked) {subject : Subject}
    (known : subject.Known specification) :
    ∃ home name reference, specification.homeOf subject = .ok home ∧
      specification.groupName home = .ok name ∧
      (specification.referenceTo subject).result = .ok reference ∧
      specification.Calls name reference subject := by
  cases subject with
  | interaction id =>
      obtain ⟨interaction, placed, member⟩ := exists_entryAt known
      have grouped := linked.interactionsGrouped interaction member
      obtain ⟨name, named⟩ := exists_groupName grouped
      refine ⟨interaction.group, name, .main name interaction.name,
        bind_eq_ok_iff.mpr ⟨interaction, placed, rfl⟩, named, ?_,
        interaction, placed, rfl⟩
      exact Attempt.result_bind_eq_ok_iff.mpr ⟨interaction, placed,
        Attempt.result_bind_eq_ok_iff.mpr ⟨name, named, rfl⟩⟩
  | target id =>
      obtain ⟨group, placed⟩ := exists_group known
      obtain ⟨name, named⟩ := exists_groupName known
      refine ⟨id, name, _, rfl, named, ?_, group, placed, rfl⟩
      refine Attempt.result_bind_eq_ok_iff.mpr ⟨name, named,
        Attempt.result_bind_eq_ok_iff.mpr ⟨group, placed, ?_⟩⟩
      by_cases given : group.target.isSome = true
      · simp only [given, if_true]
        rfl
      · simp only [given]
        rfl
  | script id =>
      obtain ⟨script, placed, member⟩ := exists_entryAt known
      have grouped := linked.scriptsGrouped script member
      obtain ⟨name, named⟩ := exists_groupName grouped
      refine ⟨script.group, name, .script name script.name,
        bind_eq_ok_iff.mpr ⟨script, placed, rfl⟩, named, ?_,
        script, placed, rfl⟩
      exact Attempt.result_bind_eq_ok_iff.mpr ⟨script, placed,
        Attempt.result_bind_eq_ok_iff.mpr ⟨name, named, rfl⟩⟩

/-- The module defines the subject under the name that the reference prints.  Of
a target that does not exist no name is printed. -/
def Resolves (specification : Specification) (name : String) (declared : Declaration)
    (reference : Reference) : Subject → Prop
  | .interaction id => ∃ interaction main, specification.interaction id = .ok interaction ∧
      reference.text = joinWith "::" [name, interaction.name, "Main"] ∧
      Declaration.Exports (.process "Main" main) [name, interaction.name] declared
  | .script id => ∃ script, specification.script id = .ok script ∧
      reference.text = joinWith "::" [name, script.name] ∧
      Declaration.Exports (.process script.name (.verbatim script.body)) [name] declared
  | .target id => ∃ group, specification.group id = .ok group ∧
      match group.target with
      | some target => reference.text = joinWith "::" [name, "Target"] ∧
          Declaration.Exports
            (.process "Target" (.verbatim (target.renamed.applyTo target.process))) [name]
            declared
      | none => reference.text = "STOP " ++ comment (name ++ " has no target")

/-- What is named inside a group is defined by the module of that group. -/
theorem Filed.resolves (filed : specification.Filed) {subject : Subject} {home : GroupId}
    {name : String} {reference : Reference}
    (homeDone : specification.homeOf subject = .ok home)
    (named : specification.groupName home = .ok name)
    (calls : specification.Calls name reference subject) {declared : Declaration}
    (done : (specification.groupModule home).result = .ok declared) :
    specification.Resolves name declared reference subject := by
  cases subject with
  | interaction id =>
      obtain ⟨interaction, placed, rfl⟩ := calls
      obtain ⟨same, samePlaced, last⟩ := bind_eq_ok_iff.mp homeDone
      cases placed.symm.trans samePlaced
      cases last
      obtain ⟨group, found, listed⟩ :=
        filed.interactionsFiled id interaction (entryAt_eq_ok_iff.mp placed)
      obtain ⟨_, _, interactions⟩ :=
        exports_of_groupModule (entryAt_eq_ok_iff.mpr found) named done
      obtain ⟨item, itemDone, isExported⟩ := interactions id listed
      obtain ⟨main, exported⟩ := exports_of_interactionModule placed itemDone
      exact ⟨interaction, main, placed, by simp [Reference.text, qualified, joinWith,
        appendAll, Setting.mainName, String.append_assoc], isExported.trans exported⟩
  | target id =>
      obtain ⟨group, placed, rfl⟩ := calls
      cases homeDone
      obtain ⟨targets, _, _⟩ := exports_of_groupModule placed named done
      refine ⟨group, placed, ?_⟩
      cases given : group.target with
      | none =>
          rfl
      | some target =>
          refine ⟨by simp [Reference.text, qualified, joinWith, appendAll,
            String.append_assoc], targets target given _ ?_⟩
          exact List.mem_append_right _ (List.mem_singleton_self _)
  | script id =>
      obtain ⟨script, placed, rfl⟩ := calls
      obtain ⟨same, samePlaced, last⟩ := bind_eq_ok_iff.mp homeDone
      cases placed.symm.trans samePlaced
      cases last
      obtain ⟨group, found, listed⟩ :=
        filed.scriptsFiled id script (entryAt_eq_ok_iff.mp placed)
      obtain ⟨_, scripts, _⟩ :=
        exports_of_groupModule (entryAt_eq_ok_iff.mpr found) named done
      obtain ⟨item, itemDone, isExported⟩ := scripts id listed
      obtain ⟨other, otherPlaced, written⟩ := bind_eq_ok_iff.mp itemDone
      cases placed.symm.trans otherPlaced
      cases written
      exact ⟨script, placed, by simp [Reference.text, qualified, joinWith, appendAll,
        String.append_assoc], isExported⟩

/-- The module of the name lifts processes over the events of the group, or over
no events where there is no group. -/
def IsContext (specification : Specification) (space : String) : Option GroupId → Prop
  | some provider => specification.groupName provider = .ok space
  | none => space = emptyContext

/-- A group provides events only if it has a target. -/
theorem exists_target_of_contextGroup {subject : Subject} {provider : GroupId}
    (found : specification.contextGroup subject = .ok (some provider)) :
    ∃ group target, specification.group provider = .ok group ∧
      group.target = some target := by
  obtain ⟨events, _, rest⟩ := bind_eq_ok_iff.mp found
  cases events with
  | none =>
      cases rest
  | some other =>
      obtain ⟨group, placed, last⟩ := bind_eq_ok_iff.mp rest
      by_cases given : group.target.isSome = true
      · obtain ⟨target, isTarget⟩ := Option.isSome_iff_exists.mp given
        simp only [given, if_true] at last
        cases last
        exact ⟨group, target, placed, isTarget⟩
      · simp only [given] at last
        cases last

/-- In a timed check every subject that exists is lifted by one module. -/
theorem exists_context (linked : specification.Linked)
    (eventsKnown : specification.EventsKnown) {subject : Subject}
    (known : subject.Known specification) :
    ∃ context space, specification.contextGroup subject = .ok context ∧
      specification.IsContext space context ∧
      (specification.contextIn .timed subject).result = .ok (some space) := by
  obtain ⟨context, found, contextKnown⟩ := exists_contextGroup linked eventsKnown known
  cases context with
  | none =>
      refine ⟨none, emptyContext, found, rfl, ?_⟩
      exact Attempt.result_bind_eq_ok_iff.mpr ⟨emptyContext,
        Attempt.result_bind_eq_ok_iff.mpr ⟨none, found, rfl⟩, rfl⟩
  | some provider =>
      obtain ⟨space, named⟩ := exists_groupName (contextKnown provider rfl)
      refine ⟨some provider, space, found, named, ?_⟩
      exact Attempt.result_bind_eq_ok_iff.mpr ⟨space,
        Attempt.result_bind_eq_ok_iff.mpr ⟨some provider, found, named⟩, rfl⟩

/-- The module of a group that provides events exports them and their lift. -/
theorem lifts_of_contextGroup {subject : Subject} {provider : GroupId} {space : String}
    (found : specification.contextGroup subject = .ok (some provider))
    (named : specification.groupName provider = .ok space) {declared : Declaration}
    (done : (specification.groupModule provider).result = .ok declared) :
    (∃ events, Declaration.Exports (.events "Context" events) [space] declared) ∧
      declared.DefinesLift space := by
  obtain ⟨group, target, placed, isTarget⟩ := exists_target_of_contextGroup found
  obtain ⟨targets, _, _⟩ := exports_of_groupModule placed named done
  have exported := targets target isTarget
  refine ⟨⟨_, exported (.events "Context" (.productions target.channels)) ?_⟩,
    ⟨⟨"TT", [], true, .applied "TTLift" [.events (.named "Context"), .call "P" []]⟩, rfl,
      exported _ ?_⟩⟩
  · simp [targetDeclarations, Target.contextDeclarations]
  · simp [targetDeclarations, Target.contextDeclarations]

/-- The library ends with the module that lifts over no events. -/
theorem exists_emptyContext (configuration : Configuration) :
    ∃ sections module, libraryText configuration =
        sectionsText (sections ++ [Declaration.text module]) ∧
      module.DefinesLift emptyContext :=
  ⟨_, .module emptyContext [] [.definition Library.emptyLift],
    congrArg sectionsText (List.append_assoc _ [_, _, _, _, _] [_]).symm, Library.emptyLift,
    rfl, .here (List.mem_singleton_self _)⟩

/-- The two sides of an assertion that a subject can become: with the same
process, and in the timed model with the lift of one module. -/
theorem exists_sides (linked : specification.Linked)
    (eventsKnown : specification.EventsKnown) {subject : Subject}
    (known : subject.Known specification) :
    ∃ home name reference context space, specification.homeOf subject = .ok home ∧
      specification.groupName home = .ok name ∧
      (specification.referenceTo subject).result = .ok reference ∧
      specification.Calls name reference subject ∧
      specification.contextGroup subject = .ok context ∧
      specification.IsContext space context ∧
      (specification.sideOf .trace subject).result = .ok ⟨none, reference⟩ ∧
      (specification.sideOf .timed subject).result = .ok ⟨some space, reference⟩ := by
  obtain ⟨home, name, reference, homeDone, named, referenceDone, calls⟩ :=
    exists_reference linked known
  obtain ⟨context, space, contextDone, isContext, spaceDone⟩ :=
    exists_context linked eventsKnown known
  refine ⟨home, name, reference, context, space, homeDone, named, referenceDone, calls,
    contextDone, isContext, ?_, ?_⟩
  · exact Attempt.result_bind_eq_ok_iff.mpr ⟨reference, referenceDone, rfl⟩
  · exact Attempt.result_bind_eq_ok_iff.mpr ⟨reference, referenceDone,
      Attempt.result_bind_eq_ok_iff.mpr ⟨some space, spaceDone, rfl⟩⟩

/-- Every process that can stand in an assertion is printed under the name under
which the module of its group defines it, or as `STOP` if it is a target that
does not exist.  In the timed model it is lifted by the module of a group that
exports its events and their lift, or by the module of the library that lifts
over no events. -/
theorem assertion_names_are_defined {specification : Specification}
    (built : specification.Built) (eventsKnown : specification.EventsKnown)
    {subject : Subject} (known : subject.Known specification) :
    ∃ home name reference context space, specification.homeOf subject = .ok home ∧
      specification.groupName home = .ok name ∧
      (specification.referenceTo subject).result = .ok reference ∧
      (specification.sideOf .trace subject).result = .ok ⟨none, reference⟩ ∧
      (specification.sideOf .timed subject).result = .ok ⟨some space, reference⟩ ∧
      (Side.mk none reference).text = reference.text ∧
      (Side.mk (some space) reference).text = space ++ "::TT(" ++ reference.text ++ ")" ∧
      (∀ declared, (specification.groupModule home).result = .ok declared →
        specification.Resolves name declared reference subject) ∧
      specification.contextGroup subject = .ok context ∧
      match context with
      | none => space = emptyContext ∧ ∀ configuration, ∃ sections module,
          libraryText configuration = sectionsText (sections ++ [Declaration.text module]) ∧
            module.DefinesLift space
      | some provider => specification.groupName provider = .ok space ∧
          ∀ declared, (specification.groupModule provider).result = .ok declared →
            (∃ events, Declaration.Exports (.events "Context" events) [space] declared) ∧
              declared.DefinesLift space := by
  obtain ⟨home, name, reference, context, space, homeDone, named, referenceDone, calls,
    contextDone, isContext, traced, timed⟩ := exists_sides built.linked eventsKnown known
  refine ⟨home, name, reference, context, space, homeDone, named, referenceDone, traced, timed,
    rfl, ?_, ?_, contextDone, ?_⟩
  · simp [Side.text, liftText, application, commaSeparated, joinWith, appendAll, qualified,
      String.append_assoc]
  · intro declared done
    exact built.filed.resolves homeDone named calls done
  · cases context with
    | none =>
        cases isContext
        exact ⟨rfl, exists_emptyContext⟩
    | some provider =>
        exact ⟨isContext, fun declared done => lifts_of_contextGroup contextDone isContext done⟩

end Specification

def machineStart : Diagram where
  name := "Run"
  body := [⟨0⟩]
  lifelines := [⟨1⟩]
  locals := []
  fragments := #[.message ⟨⟨0⟩, ⟨1⟩, .event "start", []⟩]
  expressions := #[]
  locations := []

/-- A plant with an interaction, and an audit of its events in a group of its
own. -/
def auditSpecification : Specification where
  name := "Audits"
  actors := #[⟨"Environment", .world⟩, ⟨"Press", .component⟩]
  actorsByName := [("Press", ⟨1⟩), ("Environment", ⟨0⟩)]
  vars := #[]
  constants := #[]
  groups := #[⟨some "Plant", some ⟨"SYSTEM", ["start"], ⟨[]⟩⟩, [⟨0⟩], [], []⟩,
    ⟨some "Audit", none, [], [⟨0⟩], [.core ⟨.deadlockFree, .timed, false, .script ⟨0⟩⟩]⟩]
  interactions := #[⟨machineStart, ⟨0⟩⟩]
  scripts := #[⟨"Watch", "start.in -> Watch", ⟨1⟩, some (.target ⟨0⟩)⟩]

theorem built_audit : auditSpecification.Built := by
  have world := (Specification.Built.empty "Audits").addActor
    (Specification.addActor_eq_ok "Environment" .world rfl)
  have press := world.addActor (Specification.addActor_eq_ok "Press" .component rfl)
  have plant := press.enterGroup
    ⟨some "Plant", some ⟨"SYSTEM", ["start"], ⟨[]⟩⟩, [], [], []⟩
  have audit := plant.enterGroup ⟨some "Audit", none, [], [], []⟩
  have run := audit.addInteraction
    (show Specification.addInteraction _ ⟨0⟩ machineStart = .ok (_, _) from rfl)
  have watch := run.addScript
    (show Specification.addScript _ ⟨1⟩ "Watch" "start.in -> Watch" (some (.target ⟨0⟩)) =
      .ok (_, _) from rfl)
  exact watch.addProperty
    (show Specification.addProperty _ ⟨1⟩
      (.core ⟨.deadlockFree, .timed, false, .script ⟨0⟩⟩) = .ok auditSpecification from rfl)

theorem eventsKnown_audit : auditSpecification.EventsKnown := by
  decide

theorem assertion_names_are_defined_audit :
    auditSpecification.Built ∧ auditSpecification.EventsKnown ∧
      (Subject.script ⟨0⟩).Known auditSpecification ∧
      ∃ audit plant, (auditSpecification.groupModule ⟨1⟩).result = .ok audit ∧
        (auditSpecification.groupModule ⟨0⟩).result = .ok plant ∧
        (auditSpecification.sideOf .timed (.script ⟨0⟩)).result =
          .ok ⟨some "Plant", .script "Audit" "Watch"⟩ ∧
        auditSpecification.Resolves "Audit" audit (.script "Audit" "Watch") (.script ⟨0⟩) ∧
        (∃ events, Declaration.Exports (.events "Context" events) ["Plant"] plant) ∧
        plant.DefinesLift "Plant" := by
  have known : (Subject.script ⟨0⟩).Known auditSpecification := Nat.zero_lt_one
  obtain ⟨home, name, reference, context, space, homeDone, named, referenceDone, _, timed, _, _,
    resolves, contextDone, lifts⟩ :=
    Specification.assertion_names_are_defined built_audit eventsKnown_audit known
  cases homeDone
  cases named
  cases referenceDone
  cases contextDone
  obtain ⟨lifted, exported⟩ := lifts
  cases lifted
  exact ⟨built_audit, eventsKnown_audit, known, _, _, rfl, rfl, timed, resolves _ rfl,
    exported _ rfl⟩

end SequenceChart
