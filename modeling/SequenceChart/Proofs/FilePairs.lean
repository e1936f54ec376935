import SequenceChart.Proofs.ModulePairs

/-!
# Pairs in files

The file of a group consists of the module of the group and of assertions.  All of it
is settled, apart from the channels of memories.  So the pairs in the file are those of
its heading, those in the types of the variables that the group keeps, and those of the
comments in projections and in assertions.

The library has no comment but its heading.
-/

namespace SequenceChart

variable {β : Type} {rule : PairRule β} {isAllowed : Char → Bool}

def Configuration.heading (configuration : Configuration) (text : String) : List String :=
  if configuration.header then [text] else []

theorem Configuration.eq_of_mem_heading (configuration : Configuration) {text heading : String}
    (member : heading ∈ configuration.heading text) : heading = text := by
  rw [Configuration.heading] at member
  split at member
  · exact List.mem_singleton.mp member
  · cases member

theorem Configuration.within_heading (configuration : Configuration) (text : String) :
    (if configuration.header then [comment text] else []).flatMap rule.within =
      (configuration.heading text).flatMap fun heading => rule.within (comment heading) := by
  rw [heading]
  split
  · rw [List.flatMap_singleton, List.flatMap_singleton]
  · rfl

namespace Specification

variable {specification : Specification} (tolerates : rule.Tolerates isAllowed)
  (gives : specification.GivesOnly (ConsistsOf isAllowed))
include tolerates gives

private theorem settlesAll_referenceTo {subject : Subject} {reference : Reference}
    (done : (specification.referenceTo subject).result = .ok reference) :
    rule.SettlesAll reference.pieces := by
  have law := tolerates.textLaw
  cases subject with
  | interaction id =>
      obtain ⟨interaction, interactionDone, rest⟩ := Attempt.result_bind_eq_ok_iff.mp done
      obtain ⟨group, groupDone, last⟩ := Attempt.result_bind_eq_ok_iff.mp rest
      cases last
      have ofGroup := gives.group_name law.allowsNames groupDone
      have ofName := gives.interaction_name interactionDone
      have main : ConsistsOf isAllowed Setting.mainName := law.allowsNames.consistsOf (by decide)
      have text := law.allowsNames.consistsOf_qualified
        (law.allowsNames.consistsOf_qualified ofGroup ofName) main
      exact .named (law.given text)
  | target id =>
      obtain ⟨name, nameDone, rest⟩ := Attempt.result_bind_eq_ok_iff.mp done
      obtain ⟨group, _, rest⟩ := Attempt.result_bind_eq_ok_iff.mp rest
      have ofName := gives.group_name law.allowsNames nameDone
      by_cases present : group.target.isSome = true
      · rw [if_pos present] at rest
        cases rest
        have target : ConsistsOf isAllowed "Target" := law.allowsNames.consistsOf (by decide)
        exact .named (law.given (law.allowsNames.consistsOf_qualified ofName target))
      · rw [if_neg present] at rest
        cases rest
        have remark := law.followed (by decide : isSeparator " has no target" = true)
          (law.given ofName)
        have stop := law.fixed (by decide : isFixed "STOP" = true)
        have blank := law.fixed (by decide : isFixed " " = true)
        exact .cons stop (.cons blank (.cons remark .nil))
  | script id =>
      obtain ⟨script, scriptDone, rest⟩ := Attempt.result_bind_eq_ok_iff.mp done
      obtain ⟨group, groupDone, last⟩ := Attempt.result_bind_eq_ok_iff.mp rest
      cases last
      have ofGroup := gives.group_name law.allowsNames groupDone
      have ofName := (gives.scripts script (mem_of_entryAt scriptDone)).1
      exact .named (law.given (law.allowsNames.consistsOf_qualified ofGroup ofName))

private theorem consistsOf_contextName {subject : Subject} {space : String}
    (done : (specification.contextName subject).result = .ok space) :
    ConsistsOf isAllowed space := by
  obtain ⟨group, _, rest⟩ := Attempt.result_bind_eq_ok_iff.mp done
  cases group with
  | none =>
      cases rest
      exact tolerates.allowsNames.consistsOf (by decide)
  | some id =>
      exact gives.group_name tolerates.allowsNames rest

private theorem settlesAll_sideOf {model : SemanticModel} {subject : Subject} {side : Side}
    (done : (specification.sideOf model subject).result = .ok side) :
    rule.SettlesAll side.pieces := by
  obtain ⟨process, processDone, rest⟩ := Attempt.result_bind_eq_ok_iff.mp done
  obtain ⟨context, contextDone, last⟩ := Attempt.result_bind_eq_ok_iff.mp rest
  cases last
  have ofProcess := settlesAll_referenceTo tolerates gives processDone
  cases model with
  | trace =>
      cases contextDone
      exact ofProcess
  | timed =>
      obtain ⟨space, spaceDone, last⟩ := Attempt.result_bind_eq_ok_iff.mp contextDone
      cases last
      have lift : ConsistsOf isAllowed "TT" := tolerates.allowsNames.consistsOf (by decide)
      have ofSpace := consistsOf_contextName tolerates gives spaceDone
      have text := tolerates.within_eq_nil (tolerates.allowsNames.consistsOf_qualified ofSpace lift)
      exact .cons text ofProcess

private theorem settlesAll_refinementAssertion {property : Refinement} {assertion : Assertion}
    (done : (specification.refinementAssertion property).result = .ok assertion) :
    rule.SettlesAll assertion.pieces := by
  obtain ⟨left, leftDone, rest⟩ := Attempt.result_bind_eq_ok_iff.mp done
  obtain ⟨right, rightDone, last⟩ := Attempt.result_bind_eq_ok_iff.mp rest
  cases last
  have ofLeft := settlesAll_sideOf tolerates gives leftDone
  have ofRight := settlesAll_sideOf tolerates gives rightDone
  exact ofRight.append ofLeft

private theorem settlesAll_refinementAssertions {property : Refinement} {found : List Assertion}
    (done : (specification.refinementAssertions property).result = .ok found) :
    ∀ assertion ∈ found, rule.SettlesAll assertion.pieces := by
  rw [refinementAssertions] at done
  cases operator : property.operator with
  | refines =>
      rw [operator] at done
      obtain ⟨only, onlyDone, last⟩ := Attempt.result_bind_eq_ok_iff.mp done
      cases last
      have ofOnly := settlesAll_refinementAssertion tolerates gives onlyDone
      exact List.forall_mem_singleton.mpr ofOnly
  | equals =>
      rw [operator] at done
      obtain ⟨first, firstDone, rest⟩ := Attempt.result_bind_eq_ok_iff.mp done
      obtain ⟨second, secondDone, last⟩ := Attempt.result_bind_eq_ok_iff.mp rest
      cases last
      have ofFirst := settlesAll_refinementAssertion tolerates gives firstDone
      have ofSecond := settlesAll_refinementAssertion tolerates gives secondDone
      exact List.forall_mem_cons.mpr ⟨ofFirst, List.forall_mem_singleton.mpr ofSecond⟩

private theorem settlesAll_assertions {property : Property} {found : List Assertion}
    (done : (specification.assertions property).result = .ok found) :
    ∀ assertion ∈ found, rule.SettlesAll assertion.pieces := by
  cases property with
  | refinement property =>
      exact settlesAll_refinementAssertions tolerates gives done
  | core property =>
      obtain ⟨only, onlyDone, last⟩ := Attempt.result_bind_eq_ok_iff.mp done
      cases last
      obtain ⟨subject, subjectDone, last⟩ := Attempt.result_bind_eq_ok_iff.mp onlyDone
      cases last
      have ofSubject := settlesAll_sideOf tolerates gives subjectDone
      exact List.forall_mem_singleton.mpr ofSubject
  | sequence property =>
      obtain ⟨refinement, _, rest⟩ := Attempt.result_bind_eq_ok_iff.mp done
      exact settlesAll_refinementAssertions tolerates gives rest

omit gives in
/-- What a group exports for its target is settled, and has no comments. -/
theorem settlesAll_targets {target : Option Target}
    (ofTarget : ∀ found ∈ target, ∀ text ∈ found.givenTexts, ConsistsOf isAllowed text) :
    rule.SettlesAll (Declaration.listPieces (target.toList.flatMap targetDeclarations)) ∧
      remarksIn (Declaration.listPieces (target.toList.flatMap targetDeclarations)) = [] := by
  cases target with
  | none =>
      exact ⟨.nil, rfl⟩
  | some found =>
      have settled : ∀ declaration ∈ targetDeclarations found, rule.SettlesAll declaration.pieces :=
        declarationLaw_pieces.holds_targetDeclarations tolerates.textLaw (ofTarget found rfl)
      rw [Option.toList_some, List.flatMap_singleton]
      constructor
      · rw [Declaration.listPieces_eq_flatMap]
        exact SaysOnly.flatMap settled
      · rfl

private theorem settlesAll_scripts {ids : List ScriptId} {scripts : List Declaration}
    (done : List.Forall₂ (fun id script => specification.scriptDeclaration id = .ok script)
      ids scripts) :
    rule.SettlesAll (Declaration.listPieces scripts) ∧
      remarksIn (Declaration.listPieces scripts) = [] := by
  rw [Declaration.listPieces_eq_flatMap]
  constructor
  · apply SaysOnly.flatMap
    intro declaration member
    obtain ⟨id, _, scriptDone⟩ := exists_left_of_mem done member
    exact declarationLaw_pieces.holds_scriptDeclaration tolerates.textLaw gives scriptDone
  · rw [remarksIn, List.filterMap_flatMap, List.flatMap_eq_nil_iff]
    intro declaration member
    obtain ⟨id, _, scriptDone⟩ := exists_left_of_mem done member
    obtain ⟨script, _, last⟩ := bind_eq_ok_iff.mp scriptDone
    cases last
    rfl

/-- The memories of several interactions have the pairs in the types of all their
variables. -/
theorem inPieces_memories {ids : List InteractionId} {memories : List (Option Declaration)}
    (done : List.Forall₂ (fun id memory => specification.memoryModule id = .ok memory)
      ids memories) :
    ∃ kept, List.Forall₂ (fun id found => specification.keptBy id = .ok found) ids kept ∧
      rule.inPieces (Declaration.listPieces (memories.flatMap Option.toList)) =
        kept.flatten.flatMap (fun found => rule.within found.type.text) ∧
      remarksIn (Declaration.listPieces (memories.flatMap Option.toList)) = [] := by
  induction done with
  | nil =>
      exact ⟨[], .nil, rfl, rfl⟩
  | @cons id memory rest others memoryDone _ inductionHypothesis =>
      obtain ⟨later, laterDone, laterPairs, laterRemarks⟩ := inductionHypothesis
      obtain ⟨first, firstDone, firstPairs, firstRemarks⟩ :=
        inPieces_memoryModule tolerates gives memoryDone
      refine ⟨first :: later, .cons firstDone laterDone, ?_, ?_⟩
      · rw [Declaration.listPieces_eq_flatMap] at firstPairs laterPairs ⊢
        rw [List.flatMap_cons, List.flatMap_append, rule.inPieces_append, firstPairs, laterPairs,
          List.flatten_cons, List.flatMap_append]
      · rw [Declaration.listPieces_eq_flatMap] at firstRemarks laterRemarks ⊢
        rw [List.flatMap_cons, List.flatMap_append, remarksIn_append, firstRemarks, laterRemarks]
        rfl

/-- The module of a group has the pairs in the types of the variables that the group
keeps, and behind them those of the comments of its interactions. -/
theorem inPieces_groupModule {id : GroupId} {content : Declaration}
    (done : (specification.groupModule id).result = .ok content) :
    ∃ kept, specification.keptIn id = .ok kept ∧
      rule.inPieces content.pieces =
        kept.flatMap (fun found => rule.within found.type.text) ++
          (remarksIn content.pieces).flatMap (fun text => rule.within (comment text)) ∧
      ∀ text ∈ remarksIn content.pieces, rule.within text = [] := by
  obtain ⟨group, groupDone, rest⟩ := Attempt.result_bind_eq_ok_iff.mp done
  obtain ⟨name, nameDone, rest⟩ := Attempt.result_bind_eq_ok_iff.mp rest
  obtain ⟨scripts, scriptsDone, rest⟩ := Attempt.result_bind_eq_ok_iff.mp rest
  obtain ⟨memories, memoriesDone, rest⟩ := Attempt.result_bind_eq_ok_iff.mp rest
  obtain ⟨interactions, interactionsDone, last⟩ := Attempt.result_bind_eq_ok_iff.mp rest
  rw [Attempt.result_mapM, mapM_eq_ok_iff] at scriptsDone memoriesDone interactionsDone
  obtain ⟨kept, keptDone, pairs, noRemarks⟩ := inPieces_memories tolerates gives memoriesDone
  have allKept : specification.keptIn id = .ok kept.flatten := by
    refine bind_eq_ok_iff.mpr ⟨group, groupDone, bind_eq_ok_iff.mpr ⟨kept, ?_, rfl⟩⟩
    exact mapM_eq_ok_iff.mpr keptDone
  refine ⟨kept.flatten, allKept, ?_⟩
  have ofName := tolerates.within_eq_nil (gives.group_name tolerates.allowsNames nameDone)
  have ofTarget : ∀ found ∈ group.target, ∀ text ∈ found.givenTexts, ConsistsOf isAllowed text := by
    intro found present text member
    apply gives.groups group (mem_of_entryAt groupDone)
    simp [Group.givenTexts, Option.mem_def.mp present, member]
  have ofTargets := settlesAll_targets tolerates ofTarget
  have ofScripts := settlesAll_scripts tolerates gives scriptsDone
  have ofInteractions : rule.SettlesAll (Declaration.listPieces interactions) := by
    rw [Declaration.listPieces_eq_flatMap]
    apply SaysOnly.flatMap
    intro declaration member
    obtain ⟨interaction, _, interactionDone⟩ := exists_left_of_mem interactionsDone member
    exact holds_interactionModule tolerates.pieceLaw declarationLaw_pieces gives interactionDone
  cases last
  have parts : (Declaration.module name [] (group.target.toList.flatMap targetDeclarations ++
      scripts ++ memories.flatMap Option.toList ++ interactions)).pieces =
      .layout name :: (Declaration.listPieces (group.target.toList.flatMap targetDeclarations) ++
        Declaration.listPieces scripts ++
        Declaration.listPieces (memories.flatMap Option.toList) ++
        Declaration.listPieces interactions) := by
    simp [Declaration.pieces]
  have remarks : remarksIn (.layout name ::
      (Declaration.listPieces (group.target.toList.flatMap targetDeclarations) ++
        Declaration.listPieces scripts ++
        Declaration.listPieces (memories.flatMap Option.toList) ++
        Declaration.listPieces interactions)) =
      remarksIn (Declaration.listPieces interactions) := by
    rw [remarksIn_layout, remarksIn_append, remarksIn_append, remarksIn_append, ofTargets.2,
      ofScripts.2, noRemarks]
    rfl
  rw [parts, remarks]
  refine ⟨?_, ofInteractions.within_remark⟩
  rw [rule.inPieces_cons, rule.inPieces_append, rule.inPieces_append, rule.inPieces_append,
    ofTargets.1.inPieces_eq, ofTargets.2, ofScripts.1.inPieces_eq, ofScripts.2, pairs,
    ofInteractions.inPieces_eq, Piece.text, ofName]
  rfl

/-! ## Files -/

omit tolerates gives in
variable (specification) in
def assertionsOf (id : GroupId) : Attempt (List Assertion) := do
  let group ← specification.group id
  let checks ← group.properties.mapM specification.assertions
  return checks.flatten

omit tolerates gives in
variable (specification) in
def groupHeading (name : String) : String :=
  "generated from " ++ specification.name ++ ", group " ++ name

omit tolerates gives in
/-- The comments in a file behind its heading, given the module and the assertions. -/
def commentsIn (content : Declaration) (assertions : List Assertion) : List String :=
  remarksIn content.pieces ++ assertions.flatMap fun assertion => remarksIn assertion.pieces

omit tolerates gives in
private theorem within_assertions {assertions : List Assertion}
    (settled : ∀ assertion ∈ assertions, rule.SettlesAll assertion.pieces) :
    (assertions.flatMap fun assertion => rule.within assertion.text) =
      (assertions.flatMap fun assertion => remarksIn assertion.pieces).flatMap
        fun text => rule.within (comment text) := by
  have all := (PairRule.SettlesAll.inPieces_eq (SaysOnly.flatMap settled))
  have remarks : remarksIn (assertions.flatMap Assertion.pieces) =
      assertions.flatMap fun assertion => remarksIn assertion.pieces :=
    List.filterMap_flatMap
  rw [rule.inPieces_flatMap, remarks] at all
  simpa only [rule.within_assertion] using all

/-- The pairs in the file of a group: those of its heading, those in the types of the
variables that the group keeps, and those of the comments in it.  There are no pairs in
the texts of the comments. -/
theorem within_groupFile {configuration : Configuration} {id : GroupId} {file : GeneratedFile}
    (ofLibrary : ConsistsOf isAllowed configuration.libraryFile)
    (done : (specification.groupFile configuration id).result = .ok file) :
    ∃ name content assertions kept, specification.groupName id = .ok name ∧
      (specification.groupModule id).result = .ok content ∧
      (specification.assertionsOf id).result = .ok assertions ∧
      specification.keptIn id = .ok kept ∧
      rule.within file.contents =
        (configuration.heading (specification.groupHeading name)).flatMap
            (fun text => rule.within (comment text)) ++
          kept.flatMap (fun found => rule.within found.type.text) ++
          (commentsIn content assertions).flatMap (fun text => rule.within (comment text)) ∧
      ∀ text ∈ specification.groupHeading name :: commentsIn content assertions,
        rule.within text = [] := by
  obtain ⟨name, nameDone, rest⟩ := Attempt.result_bind_eq_ok_iff.mp done
  obtain ⟨_, _, rest⟩ := Attempt.result_bind_eq_ok_iff.mp rest
  obtain ⟨content, contentDone, rest⟩ := Attempt.result_bind_eq_ok_iff.mp rest
  obtain ⟨group, groupDone, rest⟩ := Attempt.result_bind_eq_ok_iff.mp rest
  obtain ⟨checks, checksDone, last⟩ := Attempt.result_bind_eq_ok_iff.mp rest
  obtain ⟨kept, keptDone, pairs, ofRemarks⟩ := inPieces_groupModule tolerates gives contentDone
  have collected : (specification.assertionsOf id).result = .ok checks.flatten := by
    refine Attempt.result_bind_eq_ok_iff.mpr ⟨group, groupDone, ?_⟩
    exact Attempt.result_bind_eq_ok_iff.mpr ⟨checks, checksDone, rfl⟩
  rw [Attempt.result_mapM, mapM_eq_ok_iff] at checksDone
  have ofAssertions : ∀ assertion ∈ checks.flatten, rule.SettlesAll assertion.pieces := by
    intro assertion member
    obtain ⟨found, isFound, inFound⟩ := List.mem_flatten.mp member
    obtain ⟨property, _, propertyDone⟩ := exists_left_of_mem checksDone isFound
    exact settlesAll_assertions tolerates gives propertyDone assertion inFound
  have ofName := tolerates.within_eq_nil (gives.group_name tolerates.allowsNames nameDone)
  have law := tolerates.textLaw
  have ofHeading : rule.within (specification.groupHeading name) = [] :=
    law.separated (by decide) (law.behind (by decide) (law.given gives.name)) ofName
  have included : rule.within (inclusion configuration.libraryFile) = [] :=
    law.followed (by decide) (law.behind (by decide) (law.given ofLibrary))
  have checked : (if checks.flatten.isEmpty then
        []
      else
        [joinWith "\n" (checks.flatten.map Assertion.text)]).flatMap rule.within =
      checks.flatten.flatMap fun assertion => rule.within assertion.text := by
    split
    · rename_i empty
      rw [List.isEmpty_iff.mp empty]
      rfl
    · rw [List.flatMap_singleton, rule.within_joinWith (by decide), List.flatMap_map]
  refine ⟨name, content, checks.flatten, kept, nameDone, contentDone, collected, keptDone, ?_, ?_⟩
  · cases last
    have sections := rule.within_sectionsText
      ((if configuration.header then [comment (specification.groupHeading name)] else []) ++
        [inclusion configuration.libraryFile, content.text] ++
        if checks.flatten.isEmpty then
          []
        else
          [joinWith "\n" (checks.flatten.map Assertion.text)])
    rw [List.flatMap_append, List.flatMap_append, Configuration.within_heading, checked,
      within_assertions ofAssertions, List.flatMap_cons, List.flatMap_singleton, included,
      rule.within_declaration, pairs] at sections
    refine sections.trans ?_
    rw [commentsIn, List.flatMap_append]
    simp only [List.nil_append, List.append_assoc]
  · refine List.forall_mem_cons.mpr ⟨ofHeading, List.forall_mem_append.mpr ⟨ofRemarks, ?_⟩⟩
    intro text member
    obtain ⟨assertion, isAssertion, inAssertion⟩ := List.mem_flatMap.mp member
    exact (ofAssertions assertion isAssertion).within_remark text inAssertion

end Specification

def Configuration.libraryHeading (configuration : Configuration) : String :=
  configuration.libraryFile ++ ": processes shared by generated interactions"

namespace PairRule.Tolerates

variable (tolerates : rule.Tolerates isAllowed)
include tolerates

omit tolerates in
private theorem inPieces_of_keepsApart {pieces : List Piece}
    (apart : ∀ piece ∈ pieces, keepsApart piece.text.toList = true) :
    rule.inPieces pieces = [] := by
  refine List.flatMap_eq_nil_iff.mpr ?_
  exact fun piece member => rule.among_eq_nil_of_keepsApart (apart piece member)

omit tolerates in
/-- The definitions of the library keep reserved characters apart. -/
theorem within_definitions {definitions : List Definition}
    (apart : ∀ definition ∈ definitions, ∀ piece ∈ definition.pieces,
      keepsApart piece.text.toList = true) :
    rule.within (declarationsText (definitions.map .definition)) = [] := by
  rw [rule.within_declarationsText, Declaration.listPieces_eq_flatMap, List.flatMap_map]
  apply inPieces_of_keepsApart
  intro piece member
  obtain ⟨definition, isDefinition, inDefinition⟩ := List.mem_flatMap.mp member
  exact apart definition isDefinition piece inDefinition

/-- The library has no comment but its heading. -/
theorem within_libraryText {configuration : Configuration}
    (given : configuration.GivesOnly (ConsistsOf isAllowed)) :
    rule.within (libraryText configuration) =
        (configuration.heading configuration.libraryHeading).flatMap
          (fun text => rule.within (comment text)) ∧
      rule.within configuration.libraryHeading = [] := by
  have law := tolerates.textLaw
  have ofHeading : rule.within configuration.libraryHeading = [] :=
    law.followed (by decide) (law.given given.libraryFile)
  have included : rule.within (inclusion configuration.tickTockFile) = [] :=
    law.followed (by decide) (law.behind (by decide) (law.given given.tickTockFile))
  have shared : rule.within (declarationsText (Library.shared configuration.natMax)) = [] := by
    have number : rule.within (Term.natural configuration.natMax).text = [] :=
      rule.within_border (isBorder_natural configuration.natMax)
    have apart : ∀ word ∈ [tock, finish, terminate, "datatype SyncDir = enter | leave", "NatMax",
        "nametype Nat = \x7b0..NatMax\x7d"], keepsApart word.toList = true := by decide
    have words := fun word member => rule.among_eq_nil_of_keepsApart (apart word member)
    rw [rule.within_declarationsText]
    refine List.flatMap_eq_nil_iff.mpr ?_
    intro piece member
    simp only [Library.shared, Declaration.listPieces, Declaration.pieces, List.map_cons,
      List.map_nil, Option.toList_none, List.append_nil, List.cons_append, List.nil_append,
      List.mem_cons, List.not_mem_nil, or_false] at member
    rcases member with rfl | rfl | rfl | rfl | rfl | rfl | rfl
    · exact words tock (by decide)
    · exact words finish (by decide)
    · exact words terminate (by decide)
    · exact words "datatype SyncDir = enter | leave" (by decide)
    · exact words "NatMax" (by decide)
    · exact number
    · exact words "nametype Nat = \x7b0..NatMax\x7d" (by decide)
  have timers : rule.within (declarationsText (Library.timers.map .definition)) = [] :=
    within_definitions (by decide +kernel)
  have loops : rule.within (declarationsText (Library.loops.map .definition)) = [] :=
    within_definitions (by decide +kernel)
  have wrappers : rule.within (declarationsText (Library.wrappers.map .definition)) = [] :=
    within_definitions (by decide +kernel)
  have lift : rule.within
      (Declaration.module emptyContext [] [.definition Library.emptyLift]).text = [] := by
    have call : rule.within (application "TTLift"
        ([Operand.events (.productions []), .call "P" []].map Operand.text)) = [] := by
      apply law.application (law.fixed (by decide))
      rw [List.forall_mem_map, List.forall_mem_cons, List.forall_mem_singleton]
      exact ⟨law.emptySet, law.fixed (by decide : isFixed "P" = true)⟩
    have space : rule.within emptyContext = [] := rule.within_border (by decide)
    have name : rule.within "TT" = [] := rule.within_border (by decide)
    rw [rule.within_declaration]
    refine List.flatMap_eq_nil_iff.mpr ?_
    intro piece member
    simp only [Library.emptyLift, Declaration.listPieces, Declaration.pieces, Definition.pieces,
      Behaviour.pieces, List.map_nil, List.append_nil, List.nil_append, List.mem_cons,
      List.not_mem_nil, or_false] at member
    rcases member with rfl | rfl | rfl
    · exact space
    · exact name
    · exact call
  refine ⟨?_, ofHeading⟩
  have sections := rule.within_sectionsText
    ((if configuration.header then [comment configuration.libraryHeading] else []) ++
      [inclusion configuration.tickTockFile,
        declarationsText (Library.shared configuration.natMax),
        declarationsText (Library.timers.map .definition),
        declarationsText (Library.loops.map .definition),
        declarationsText (Library.wrappers.map .definition),
        (Declaration.module emptyContext [] [.definition Library.emptyLift]).text])
  simp only [List.flatMap_append, Configuration.within_heading, List.flatMap_cons,
    List.flatMap_nil, included, shared, timers, loops, wrappers, lift, List.append_nil]
    at sections
  exact sections

end PairRule.Tolerates

end SequenceChart
