import SequenceChart.Proofs.PieceTexts

/-!
# Texts of modules

A text law carries over from the pieces of processes to declarations, if these are printed
out of what they declare and of fixed texts.  So it holds of everything that stands in the
modules of interactions, and of targets and scripts.  The channels of a memory are left
out, since the types of variables are not under every law; the branches of the store and
its first call are.
-/

namespace SequenceChart

variable {isAllowed : Char → Bool} {good : String → Prop} {holds : Declaration → Prop}

/-- What holds of declarations of which all parts are good. -/
structure DeclarationLaw (good : String → Prop) (holds : Declaration → Prop) : Prop where
  channels : ∀ {names : List String} {type : String}, (∀ name ∈ names, good name) → good type →
    holds (.channels names (some type))
  events : ∀ {name : String} {set : EventSet}, good name → good set.text →
    holds (.events name set)
  definition : ∀ {content : Definition}, good content.name →
    (∀ parameter ∈ content.parameters, good parameter) → SaysOnly good content.body.pieces →
    holds (.definition content)
  module : ∀ {name : String} {hidden exported : List Declaration}, good name →
    (∀ inner ∈ hidden ++ exported, holds inner) → holds (.module name hidden exported)

/-- All pieces of a declaration say something good if its parts do. -/
theorem declarationLaw_pieces :
    DeclarationLaw good fun declaration => SaysOnly good declaration.pieces where
  channels ofNames ofType :=
    SaysOnly.append (List.forall_mem_map.mpr ofNames) (List.forall_mem_singleton.mpr ofType)
  events ofName ofSet := .cons ofName (.cons ofSet .nil)
  definition ofName ofParameters ofBody :=
    .cons ofName (SaysOnly.append (List.forall_mem_map.mpr ofParameters) ofBody)
  module ofName each := by
    rw [List.forall_mem_append] at each
    simp only [Declaration.pieces, Declaration.listPieces_eq_flatMap]
    exact .cons ofName ((SaysOnly.flatMap each.1).append (SaysOnly.flatMap each.2))

theorem DeclarationLaw.process (declares : DeclarationLaw good holds) {name : String}
    {body : Behaviour} (ofName : good name) (ofBody : SaysOnly good body.pieces) :
    holds (.process name body) :=
  declares.definition ofName (List.forall_mem_nil _) ofBody

/-- The composition of a setting is good if the names of its participants are, and if its
labels fit. -/
theorem Setting.holds_composition {setting : Setting} {good : Behaviour → Prop}
    {fits : EventSet → Prop} (grouped : ∀ body, good body → good body.grouped)
    (synchronised : ∀ left events right,
      good left → fits events → good right → good (.synchronised left events right))
    (ofLifeline : ∀ actor name, setting.specification.lifelineName actor = .ok name →
      good (.named name))
    (ofRunner : good (.named untilProcessName))
    (ofLabel : ∀ links before actor, setting.links = .ok links →
      fits (setting.lifelineLabel links before actor))
    (ofUntil : fits (.productions [HandshakeKind.until.channel, finish]))
    {composed : Behaviour} (done : setting.composition = .ok composed) : good composed := by
  obtain ⟨links, linksDone, parallelDone⟩ := bind_eq_ok_iff.mp done
  refine Behaviour.holds_parallel grouped synchronised ?_ ?_ parallelDone
  · intro participant process processDone
    cases participant with
    | lifeline actor =>
        obtain ⟨name, nameDone, last⟩ := bind_eq_ok_iff.mp processDone
        cases last
        exact ofLifeline actor name nameDone
    | untilProcess =>
        cases processDone
        exact ofRunner
  · intro participant rest events labelDone
    cases rest with
    | nil =>
        cases participant <;> cases labelDone
    | cons next others =>
        cases next with
        | untilProcess =>
            cases participant <;> cases labelDone <;> exact ofUntil
        | lifeline joined =>
            cases participant with
            | untilProcess =>
                cases labelDone
            | lifeline current =>
                obtain ⟨before, _, last⟩ := bind_eq_ok_iff.mp labelDone
                cases last
                exact ofLabel links before joined linksDone

namespace Setting.Writes

variable {setting : Setting} (writes : setting.Writes isAllowed good)
include writes

private theorem consistsOf_links {links : List Link} (done : setting.links = .ok links) :
    ∀ link ∈ links, ConsistsOf isAllowed link.eventName := by
  obtain ⟨messages, listed, linked⟩ := bind_eq_ok_iff.mp done
  obtain ⟨_, visited⟩ := visited_of_mem_messages listed
  intro link member
  obtain ⟨content, isMessage, linkDone⟩ := exists_left_of_mem (mapM_eq_ok_iff.mp linked) member
  obtain ⟨direction, _, last⟩ := bind_eq_ok_iff.mp linkDone
  cases last
  obtain ⟨place, _, present⟩ := visited content isMessage
  have ofTopic := writes.topic (Array.mem_of_getElem? present) List.mem_cons_self
  exact writes.law.allowsNames.consistsOf_eventName ofTopic direction

private theorem good_lifelineLabel {links : List Link} (linksDone : setting.links = .ok links)
    (before : List ActorId) (actor : ActorId) :
    good (setting.lifelineLabel links before actor).text := by
  have fixed : ∀ channel ∈ [tock, finish], ConsistsOf isNameCharacter channel := by decide
  apply writes.law.productions
  rw [List.forall_mem_append, List.forall_mem_append]
  refine ⟨⟨?_, ?_⟩, writes.consistsOf_handshakeChannels⟩
  · intro channel isEvent
    rw [mem_firstOccurrences] at isEvent
    obtain ⟨link, isLink, rfl⟩ := List.mem_map.mp isEvent
    exact writes.consistsOf_links linksDone link (List.mem_filter.mp isLink).1
  · exact fun channel member => writes.law.allowsNames.consistsOf (fixed channel member)

private theorem saysOnly_composition {composed : Behaviour}
    (done : setting.composition = .ok composed) :
    SaysOnly good composed.pieces := by
  have law := writes.law
  have grouped : ∀ body : Behaviour, SaysOnly good body.pieces →
      SaysOnly good body.grouped.pieces := fun _ => law.saysOnly_grouped
  refine holds_composition grouped (fun _ _ _ => law.saysOnly_synchronised) ?_ ?_ ?_ ?_ done
  · intro actor name nameDone
    exact .named (law.given (writes.gives.lifeline_name law.allowsNames nameDone))
  · exact .named (law.fixed (by decide))
  · exact fun links before actor linksDone => writes.good_lifelineLabel linksDone before actor
  · have fixed : ∀ channel ∈ [HandshakeKind.until.channel, finish],
        ConsistsOf isNameCharacter channel := by decide
    exact law.productions fun channel member => law.allowsNames.consistsOf (fixed channel member)

private theorem saysOnly_untilBranch {internal : List String} {id : FragmentId} {branch : Behaviour}
    (internalDone : setting.internalChannels = .ok internal)
    (done : (setting.untilBranch internal id).result = .ok branch) :
    SaysOnly good branch.pieces := by
  obtain ⟨intra, body, inner, enter, leave, present, innerDone, enterDone, leaveDone, rfl⟩ :=
    exists_of_untilBranch done
  have law := writes.law
  have entered : good enter.text := writes.good_content (arises_handshake enterDone)
  have left : good leave.text := writes.good_content (arises_handshake leaveDone)
  have run : ((untilHeader intra internal).around (inner.getD .skip)).Arises setting :=
    Behaviour.arises_wrapped (.until _ (Array.mem_of_getElem? present) internalDone)
      (arises_project innerDone)
  have again : good untilProcessName := law.fixed (by decide)
  apply law.saysOnly_grouped
  apply law.saysOnly_andThen
  · exact law.saysOnly_perform entered (writes.saysOnly run)
  · exact law.saysOnly_perform left (.named again)

/-- The exported process is fixed but for the channels it hides. -/
theorem saysOnly_mainBehaviour {memory : List String}
    (ofMemory : ∀ channel ∈ memory, ConsistsOf isAllowed channel) :
    SaysOnly good (setting.mainBehaviour memory).pieces := by
  have law := writes.law
  have lifelines : SaysOnly good (Behaviour.named lifelinesName).pieces :=
    .named (law.fixed (by decide))
  have ending : SaysOnly good (Behaviour.perform (.signal terminate) .skip).pieces :=
    law.saysOnly_perform (law.fixed (by decide : isFixed terminate = true)) law.saysOnly_skip
  have ofSignals : ∀ channel ∈ setting.hiddenSignals, ConsistsOf isAllowed channel := by
    rw [hiddenSignals, List.forall_mem_append]
    refine ⟨writes.consistsOf_handshakeChannels, ?_⟩
    split
    · exact List.forall_mem_nil _
    · exact List.forall_mem_singleton.mpr (law.allowsNames.consistsOf (by decide))
  have ofShared : ∀ channel ∈ memory ++ [terminate], ConsistsOf isAllowed channel := by
    rw [List.forall_mem_append, List.forall_mem_singleton]
    exact ⟨ofMemory, law.allowsNames.consistsOf (by decide)⟩
  have start : ConsistsOf isAllowed (qualified (memoryName setting.interaction.name) "Init") := by
    apply law.allowsNames.consistsOf_qualified
    · exact law.allowsNames.consistsOf_memoryName (writes.gives.interaction_name writes.placed)
    · exact law.allowsNames.consistsOf (by decide)
  rw [mainBehaviour]
  split
  · split
    · exact lifelines
    · exact law.saysOnly_hiding lifelines (law.productions ofSignals)
  · have ofHidden := List.forall_mem_append.mpr ⟨ofSignals, ofShared⟩
    apply law.saysOnly_hiding _ (law.productions ofHidden)
    apply law.saysOnly_grouped
    apply law.saysOnly_synchronised _ (law.productions ofShared)
    · exact law.saysOnly_grouped (law.saysOnly_interrupted (.named (law.given start)) ending)
    · exact law.saysOnly_grouped (law.saysOnly_andThen lifelines ending)

variable (declares : DeclarationLaw good holds)
include declares

private theorem holds_untilProcess {runner : Option Declaration}
    (done : setting.untilProcess.result = .ok runner) :
    ∀ declaration ∈ runner.toList, holds declaration := by
  have law := writes.law
  rw [untilProcess] at done
  split at done
  · obtain ⟨internal, internalDone, rest⟩ := Attempt.result_bind_eq_ok_iff.mp done
    obtain ⟨branches, branchesDone, last⟩ := Attempt.result_bind_eq_ok_iff.mp rest
    cases last
    rw [Attempt.result_mapM, mapM_eq_ok_iff] at branchesDone
    refine List.forall_mem_singleton.mpr (declares.process (law.fixed (by decide)) ?_)
    apply law.saysOnly_joinAll
    refine List.forall_mem_cons.mpr ⟨?_, ?_⟩
    · exact law.saysOnly_perform (law.fixed (by decide : isFixed finish = true)) law.saysOnly_skip
    · intro branch member
      obtain ⟨id, _, branchDone⟩ := exists_left_of_mem branchesDone member
      exact writes.saysOnly_untilBranch internalDone branchDone
  · cases done
    exact List.forall_mem_nil _

private theorem holds_lifelineDefinition {actor : ActorId} {declaration : Declaration}
    (done : (setting.lifelineDefinition actor).result = .ok declaration) : holds declaration := by
  have law := writes.law
  obtain ⟨seen, seenDone, rest⟩ := Attempt.result_bind_eq_ok_iff.mp done
  obtain ⟨name, nameDone, last⟩ := Attempt.result_bind_eq_ok_iff.mp rest
  have ofName := writes.gives.lifeline_name law.allowsNames nameDone
  have finished : SaysOnly good Behaviour.finished.pieces := .named (law.fixed (by decide))
  have ofSeen := writes.saysOnly (arises_projectSequence seenDone)
  cases last
  apply declares.process (law.given ofName)
  cases seen with
  | none =>
      exact finished
  | some behaviour =>
      exact law.saysOnly_andThen ofSeen finished

private theorem holds_lifelineDefinitions {definitions : List Declaration}
    (done : setting.lifelineDefinitions.result = .ok definitions) :
    ∀ declaration ∈ definitions, holds declaration := by
  have named : good lifelinesName := writes.law.fixed (by decide)
  rw [lifelineDefinitions] at done
  split at done
  · obtain ⟨_, _, rest⟩ := Attempt.result_bind_eq_ok_iff.mp done
    obtain ⟨behaviour, behaviourDone, last⟩ := Attempt.result_bind_eq_ok_iff.mp rest
    cases last
    obtain ⟨seen, seenDone, last⟩ := Attempt.result_bind_eq_ok_iff.mp behaviourDone
    cases last
    have ofSeen := writes.saysOnly (arises_projectSequence seenDone)
    exact List.forall_mem_singleton.mpr (declares.process named ofSeen)
  · obtain ⟨lifelines, lifelinesDone, rest⟩ := Attempt.result_bind_eq_ok_iff.mp done
    obtain ⟨runner, runnerDone, rest⟩ := Attempt.result_bind_eq_ok_iff.mp rest
    obtain ⟨composed, composedDone, last⟩ := Attempt.result_bind_eq_ok_iff.mp rest
    cases last
    rw [Attempt.result_mapM, mapM_eq_ok_iff] at lifelinesDone
    rw [List.forall_mem_append, List.forall_mem_append, List.forall_mem_singleton]
    refine ⟨⟨?_, writes.holds_untilProcess declares runnerDone⟩, ?_⟩
    · intro declaration member
      obtain ⟨actor, _, declarationDone⟩ := exists_left_of_mem lifelinesDone member
      exact writes.holds_lifelineDefinition declares declarationDone
    · exact declares.process named (writes.saysOnly_composition composedDone)

end Setting.Writes

/-- The channel of a handshake carries a number and a phase. -/
theorem TextLaw.holds_declaration (law : TextLaw isAllowed good)
    (declares : DeclarationLaw good holds) {synchronisation : Synchronisation}
    {declared : Option Declaration} (done : synchronisation.declaration = .ok declared) :
    ∀ declaration ∈ declared.toList, holds declaration := by
  rw [Synchronisation.declaration] at done
  split at done
  · obtain ⟨last, _, finished⟩ := bind_eq_ok_iff.mp done
    cases finished
    have channel : isFixed synchronisation.kind.channel = true := by
      cases synchronisation.kind <;> decide
    have numbers : good ("\x7b0.." ++ toString last ++ "\x7d.SyncDir") :=
      law.separated (isSeparator_natural last) (law.fixed (by decide)) (law.fixed (by decide))
    refine List.forall_mem_singleton.mpr (declares.channels ?_ numbers)
    exact List.forall_mem_singleton.mpr (law.fixed channel)
  · cases done
    exact List.forall_mem_nil _

theorem Specification.holds_interactionModule {specification : Specification}
    (law : PieceLaw isAllowed good) (declares : DeclarationLaw good holds)
    (gives : specification.GivesOnly (ConsistsOf isAllowed)) {id : InteractionId}
    {declaration : Declaration}
    (done : (specification.interactionModule id).result = .ok declaration) :
    holds declaration := by
  obtain ⟨setting, settingDone, rest⟩ := Attempt.result_bind_eq_ok_iff.mp done
  obtain ⟨interaction, meetings, placed, _, rfl⟩ := setting_eq_ok_iff.mp settingDone
  obtain ⟨definitions, definitionsDone, rest⟩ := Attempt.result_bind_eq_ok_iff.mp rest
  obtain ⟨untilChannel, untilDone, rest⟩ := Attempt.result_bind_eq_ok_iff.mp rest
  obtain ⟨parChannel, parDone, rest⟩ := Attempt.result_bind_eq_ok_iff.mp rest
  obtain ⟨memory, memoryDone, last⟩ := Attempt.result_bind_eq_ok_iff.mp rest
  cases last
  have writes : Setting.Writes { specification, id, interaction, meetings } isAllowed good :=
    ⟨law, gives, placed⟩
  have ofMemory := law.allowsNames.consistsOf_memoryChannels (fun _ _ => gives.interaction_name)
    (fun _ _ => gives.variable_name) memoryDone
  apply declares.module (law.given (gives.interaction_name placed))
  rw [List.forall_mem_append, List.forall_mem_append, List.forall_mem_append,
    List.forall_mem_singleton]
  refine ⟨writes.holds_lifelineDefinitions declares definitionsDone, ⟨?_, ?_⟩, ?_⟩
  · exact law.holds_declaration declares untilDone
  · exact law.holds_declaration declares parDone
  · exact declares.process (law.fixed (by decide)) (writes.saysOnly_mainBehaviour ofMemory)

namespace TextLaw

variable (law : TextLaw isAllowed good)
include law

theorem storeCall {arguments : List String} (each : ∀ argument ∈ arguments, good argument) :
    good (Store.call arguments) :=
  law.application (law.fixed (by decide)) each

/-- A branch of a store names its variable, and goes on with values under the names of all
of them. -/
theorem branchText {parameters : List String} {position : Nat} {name : String}
    (ofName : ConsistsOf isAllowed name)
    (ofParameters : ∀ parameter ∈ parameters, ConsistsOf isAllowed parameter) :
    ∀ branch ∈ Store.branchesAt parameters position name, good (Store.branchText branch) := by
  have ofArrival : good (Store.arrival name) := law.followed (by decide) (law.given ofName)
  have ofGet := law.given (law.allowsNames.consistsOf_getChannel ofName)
  have ofSet := law.given (law.allowsNames.consistsOf_setChannel ofName)
  have offered : good (Access.offer name).text :=
    law.separated (by decide) ofGet (law.given ofName)
  have accepted : good (Access.accept name (Store.arrival name)).text :=
    law.separated (by decide) ofSet ofArrival
  have kept := law.storeCall fun parameter member => law.given (ofParameters parameter member)
  have changed : good (Store.call (parameters.set position (Store.arrival name))) := by
    apply law.storeCall
    intro argument member
    rcases List.mem_or_eq_of_mem_set member with isParameter | rfl
    · exact law.given (ofParameters argument isParameter)
    · exact ofArrival
  rw [Store.branchesAt, List.forall_mem_cons, List.forall_mem_singleton]
  exact ⟨law.separated (by decide) offered kept, law.separated (by decide) accepted changed⟩

theorem branchesFrom {parameters : List String}
    (ofParameters : ∀ parameter ∈ parameters, ConsistsOf isAllowed parameter)
    {position : Nat} {names : List String} (ofNames : ∀ name ∈ names, ConsistsOf isAllowed name) :
    ∀ branch ∈ Store.branchesFrom parameters position names, good (Store.branchText branch) := by
  induction names generalizing position with
  | nil =>
      exact List.forall_mem_nil _
  | cons name rest inductionHypothesis =>
      obtain ⟨ofName, ofRest⟩ := List.forall_mem_cons.mp ofNames
      rw [Store.branchesFrom, List.forall_mem_append]
      exact ⟨law.branchText ofName ofParameters, inductionHypothesis ofRest⟩

/-- First values are chosen in front of a call, one variable after the other. -/
theorem choices {cells : List Cell} (ofNames : ∀ cell ∈ cells, ConsistsOf isAllowed cell.name)
    (ofTypes : ∀ cell ∈ cells, ∀ type, cell.type = .named type → ConsistsOf isAllowed type)
    {call : String} (ofCall : good call) :
    good (concatenate (cells.map Store.choice) ++ call) := by
  induction cells with
  | nil =>
      rw [List.map_nil, show concatenate [] = "" from rfl, String.empty_append]
      exact ofCall
  | cons cell rest inductionHypothesis =>
      rw [List.forall_mem_cons] at ofNames ofTypes
      have ofRest := inductionHypothesis ofNames.2 ofTypes.2
      rw [List.map_cons, concatenate_cons, String.append_assoc, Store.choice]
      split
      · rename_i type named
        have chosen := law.separated (by decide : isSeparator " : " = true)
          (law.behind (by decide : isSeparator "|~| " = true) (law.given ofNames.1))
          (law.given (ofTypes.1 type named))
        exact law.separated (by decide) chosen ofRest
      · rw [String.empty_append]
        exact ofRest

theorem storeStart {store : Store}
    (ofNames : ∀ cell ∈ store.cells, ConsistsOf isAllowed cell.name)
    (ofTypes : ∀ cell ∈ store.cells, ∀ type, cell.type = .named type →
      ConsistsOf isAllowed type) : good store.start := by
  apply law.choices ofNames ofTypes
  apply law.storeCall
  refine List.forall_mem_map.mpr ?_
  intro cell member
  rw [Store.initialValue]
  split
  · exact law.fixed (by decide)
  · exact law.fixed (by decide)
  · exact law.fixed (by decide)
  · exact law.given (ofNames cell member)

end TextLaw

/-- The memory of an interaction has a module, unless the interaction keeps no
variables. -/
theorem Specification.exists_of_memoryModule {specification : Specification} {id : InteractionId}
    {declared : Option Declaration} (done : specification.memoryModule id = .ok declared) :
    ∃ interaction kept, specification.interaction id = .ok interaction ∧
      interaction.locals.mapM specification.variableAt = .ok kept ∧
      (kept = [] ∧ declared = none ∨
        kept ≠ [] ∧ declared = some (.module (memoryName interaction.name) []
          (kept.map (fun found => cellDeclaration ⟨found.name, found.type⟩) ++
            [.store ⟨kept.map fun found => ⟨found.name, found.type⟩⟩]))) := by
  obtain ⟨interaction, interactionDone, rest⟩ := bind_eq_ok_iff.mp done
  obtain ⟨kept, keptDone, last⟩ := bind_eq_ok_iff.mp rest
  refine ⟨interaction, kept, interactionDone, keptDone, ?_⟩
  by_cases empty : kept = []
  · subst empty
    cases last
    exact .inl ⟨rfl, rfl⟩
  · have shape := (pure_eq_ok_iff.mp last).symm
    exact .inr ⟨empty, by simpa [empty, Function.comp_def] using shape⟩

theorem Specification.GivesOnly.kept {specification : Specification}
    (gives : specification.GivesOnly good) {ids : List VariableId} {kept : List Variable}
    (done : ids.mapM specification.variableAt = .ok kept) :
    ∀ found ∈ kept, ∀ text ∈ found.givenTexts, good text := by
  intro found isKept
  obtain ⟨id, _, foundDone⟩ := exists_left_of_mem (mapM_eq_ok_iff.mp done) isKept
  exact gives.vars found (mem_of_entryAt foundDone)

theorem TextLaw.applyTo (law : TextLaw isAllowed good) {clause : Renaming} {process : String}
    (ofProcess : ConsistsOf isAllowed process)
    (ofPairs : ∀ pair ∈ clause.pairs, ConsistsOf isAllowed pair.1 ∧ ConsistsOf isAllowed pair.2) :
    good (clause.applyTo process) := by
  have listed :
      good (commaSeparated (clause.pairs.map fun pair => pair.1 ++ " <- " ++ pair.2)) := by
    apply law.joinWith (by decide)
    refine List.forall_mem_map.mpr ?_
    intro pair member
    obtain ⟨ofOld, ofNew⟩ := ofPairs pair member
    exact law.separated (by decide) (law.given ofOld) (law.given ofNew)
  rw [Renaming.applyTo, Renaming.text]
  split
  · exact law.given ofProcess
  · exact law.separated (by decide) (law.given ofProcess)
      (law.followed (by decide) (law.behind (by decide) listed))

namespace DeclarationLaw

variable (law : TextLaw isAllowed good) (declares : DeclarationLaw good holds)
include law declares

/-- What a group exports for its target. -/
theorem holds_targetDeclarations {target : Target}
    (ofTarget : ∀ text ∈ target.givenTexts, ConsistsOf isAllowed text) :
    ∀ declaration ∈ Specification.targetDeclarations target, holds declaration := by
  rw [Target.givenTexts, List.forall_mem_cons, List.forall_mem_append] at ofTarget
  have ofPairs : ∀ pair ∈ target.renamed.pairs,
      ConsistsOf isAllowed pair.1 ∧ ConsistsOf isAllowed pair.2 := by
    intro pair member
    constructor
    · exact ofTarget.2.2 _ (List.mem_flatMap.mpr ⟨pair, member, by simp⟩)
    · exact ofTarget.2.2 _ (List.mem_flatMap.mpr ⟨pair, member, by simp⟩)
  have lift : good (application "TTLift"
      ([Operand.events (.named "Context"), .call "P" []].map Operand.text)) := by
    have words : ∀ word ∈ [Operand.events (.named "Context"), .call "P" []].map Operand.text,
        isFixed word = true := by decide
    exact law.application (law.fixed (by decide)) fun word member => law.fixed (words word member)
  have renamed := law.applyTo ofTarget.1 ofPairs
  rw [Specification.targetDeclarations, Target.contextDeclarations, List.forall_mem_append,
    List.forall_mem_cons, List.forall_mem_singleton, List.forall_mem_singleton]
  refine ⟨⟨?_, ?_⟩, ?_⟩
  · exact declares.events (law.fixed (by decide)) (law.productions ofTarget.2.1)
  · exact declares.definition (law.fixed (by decide)) (List.forall_mem_nil _)
      (List.forall_mem_singleton.mpr lift)
  · exact declares.process (law.fixed (by decide)) (List.forall_mem_singleton.mpr renamed)

theorem holds_scriptDeclaration {specification : Specification}
    (gives : specification.GivesOnly (ConsistsOf isAllowed)) {id : ScriptId}
    {declaration : Declaration} (done : specification.scriptDeclaration id = .ok declaration) :
    holds declaration := by
  obtain ⟨script, scriptDone, last⟩ := bind_eq_ok_iff.mp done
  cases last
  obtain ⟨ofName, ofBody⟩ := gives.scripts script (mem_of_entryAt scriptDone)
  exact declares.process (law.given ofName) (List.forall_mem_singleton.mpr (law.given ofBody))

end DeclarationLaw

end SequenceChart
