import SequenceChart.Proofs.Indentation
import SequenceChart.Proofs.LineComments
import SequenceChart.Proofs.ModuleTexts

/-!
# Lines of group modules

If given texts have no line breaks, then every definition and every channel of a model is
printed in a single line.  Only a store takes several lines, and these are blocks that are
moved to the right and put below each other.

So the module of a group is laid out, with the modules of memories and interactions that
stand in it: each line of each item is a line of the whole, behind two blanks for every
module around the item.
-/

namespace SequenceChart

private theorem inline_comment {text : String} (inline : ConsistsOf isInline text) :
    ConsistsOf isInline (comment text) := by
  simp +decide [comment, consistsOf_append_iff, inline]

/-- A process is printed in a line of its own, if all its pieces say what is of one line. -/
theorem Behaviour.inline_text {behaviour : Behaviour}
    (inline : SaysOnly (ConsistsOf isInline) behaviour.pieces) :
    ConsistsOf isInline behaviour.text := by
  rw [← behaviour.concatenate_pieces]
  apply consistsOf_concatenate
  refine List.forall_mem_map.mpr ?_
  intro piece isPiece
  have said := inline piece isPiece
  cases piece with
  | remark text =>
      exact inline_comment said
  | layout | event | call =>
      exact said

theorem Definition.inline_head {definition : Definition}
    (ofName : ConsistsOf isInline definition.name)
    (ofParameters : ∀ parameter ∈ definition.parameters, ConsistsOf isInline parameter) :
    ConsistsOf isInline definition.head := by
  apply ConsistsOf.append (textLaw_inline.application ofName ofParameters)
  split <;> decide

/-- Declarations other than stores take one line each. -/
theorem declarationLaw_isLaidOut :
    DeclarationLaw (ConsistsOf isInline) Declaration.IsLaidOut where
  channels {names type} ofNames ofType := by
    apply Declaration.IsLaidOut.leaf rfl
    have listed : ConsistsOf isInline (commaSeparated names) :=
      textLaw_inline.joinWith (by decide) ofNames
    apply isBlock_of_inline
    · simp +decide [Declaration.text, consistsOf_append_iff, listed, ofType]
    · simp [Declaration.text]
  events ofName ofSet := by
    apply Declaration.IsLaidOut.leaf rfl
    apply isBlock_of_inline
    · simp +decide [Declaration.text, consistsOf_append_iff, ofName, ofSet]
    · simp [Declaration.text]
  definition {content} ofName ofParameters ofBody := by
    apply Declaration.IsLaidOut.leaf rfl
    have head := Definition.inline_head ofName ofParameters
    have body := Behaviour.inline_text ofBody
    apply isBlock_of_inline
    · simp +decide [Declaration.text, Definition.text, consistsOf_append_iff, head, body]
    · simp [Declaration.text, Definition.text]
  module ofName each := .module ofName each

namespace Store

variable {store : Store} (ofNames : ∀ cell ∈ store.cells, ConsistsOf isInline cell.name)

include ofNames

private theorem inline_parameters : ∀ parameter ∈ store.parameters, ConsistsOf isInline parameter :=
  List.forall_mem_map.mpr ofNames

private theorem isBlock_definition (nonempty : store.cells ≠ []) : IsBlock store.definition := by
  have ofParameters := inline_parameters ofNames
  have inline : ∀ text ∈ store.branches.map branchText, ConsistsOf isInline text :=
    List.forall_mem_map.mpr (textLaw_inline.branchesFrom ofParameters ofParameters)
  have some : store.branches.map branchText ≠ [] := by
    obtain ⟨cell, others, shape⟩ := List.exists_cons_of_ne_nil nonempty
    simp [branches, parameters, shape, branchesFrom, branchesAt]
  have visible : (store.branches.map branchText).getLast some ≠ "" := by
    obtain ⟨branch, _, isLast⟩ := List.mem_map.mp (List.getLast_mem some)
    rw [← isLast]
    simp [branchText]
  have last := isBlock_of_inline (inline _ (List.getLast_mem some)) visible
  have listed : IsBlock (joinWith "\n[] " (store.branches.map branchText)) := by
    apply isBlock_joinWith (by decide) _ (List.getLast?_eq_some_getLast some) last
    exact fun text member => noReturn_of_inline (inline text member)
  apply (listed.indented 1).behind
  exact noReturn_append (noReturn_of_inline (textLaw_inline.storeCall ofParameters)) (by decide)

private theorem isBlock_start (ofTypes : ∀ cell ∈ store.cells, ∀ type, cell.type = .named type →
    ConsistsOf isInline type) : IsBlock store.start := by
  apply isBlock_of_inline (textLaw_inline.storeStart ofNames ofTypes)
  rw [start]
  simp only [call, application]
  split <;> simp

/-- A store is printed in blocks, each to the right of the one around it. -/
theorem isBlock_letWithin (nonempty : store.cells ≠ [])
    (ofTypes : ∀ cell ∈ store.cells, ∀ type, cell.type = .named type →
      ConsistsOf isInline type) : IsBlock (letWithin [store.definition] store.start) := by
  have definition := (isBlock_definition ofNames nonempty).indented 1
  have start := (isBlock_start ofNames ofTypes).indented 1
  apply start.behind
  exact noReturn_append (noReturn_append (by decide) definition.noReturn) (by decide)

private theorem isBlock_text (nonempty : store.cells ≠ [])
    (ofTypes : ∀ cell ∈ store.cells, ∀ type, cell.type = .named type →
      ConsistsOf isInline type) : IsBlock store.text :=
  ((isBlock_letWithin ofNames nonempty ofTypes).indented 1).behind (by decide)

private theorem one_lt_length_textLines (nonempty : store.cells ≠ [])
    (ofTypes : ∀ cell ∈ store.cells, ∀ type, cell.type = .named type →
      ConsistsOf isInline type) : 1 < (textLines store.text).length := by
  have body := (isBlock_letWithin ofNames nonempty ofTypes).indented 1
  have heading : "Init =\n" = "Init =" ++ "\n" := rfl
  rw [text, heading, textLines_break (by decide), List.length_cons]
  exact Nat.succ_lt_succ (List.length_pos_of_ne_nil body.textLines_ne_nil)

end Store

theorem Variable.inline_type {content : Variable}
    (given : ∀ text ∈ content.givenTexts, ConsistsOf isInline text) :
    ConsistsOf isInline content.type.text := by
  cases type : content.type with
  | nat | int | bool =>
      decide
  | named name =>
      exact given name (type_mem_givenTexts type)

namespace Specification

variable {specification : Specification}
  (gives : specification.GivesOnly (ConsistsOf isInline))
include gives

private theorem isLaidOut_memoryModule {id : InteractionId} {declared : Option Declaration}
    (done : specification.memoryModule id = .ok declared) :
    ∀ declaration ∈ declared.toList, declaration.IsLaidOut := by
  obtain ⟨interaction, kept, interactionDone, keptDone, cases⟩ := exists_of_memoryModule done
  have ofVariable := gives.kept keptDone
  rcases cases with ⟨_, rfl⟩ | ⟨nonempty, rfl⟩
  · exact List.forall_mem_nil _
  · rw [Option.toList_some, List.forall_mem_singleton]
    apply Declaration.IsLaidOut.module
    · exact allowsNames_isInline.consistsOf_memoryName (gives.interaction_name interactionDone)
    · rw [List.nil_append, List.forall_mem_append, List.forall_mem_map, List.forall_mem_singleton]
      constructor
      · intro found isKept
        have ofName := ofVariable found isKept _ found.name_mem_givenTexts
        apply declarationLaw_isLaidOut.channels
        · rw [List.forall_mem_cons, List.forall_mem_singleton]
          exact ⟨allowsNames_isInline.consistsOf_getChannel ofName,
            allowsNames_isInline.consistsOf_setChannel ofName⟩
        · exact Variable.inline_type (ofVariable found isKept)
      · apply Declaration.IsLaidOut.leaf rfl
        apply Store.isBlock_text
        · refine List.forall_mem_map.mpr ?_
          exact fun found isKept => ofVariable found isKept _ found.name_mem_givenTexts
        · simpa using nonempty
        · refine List.forall_mem_map.mpr ?_
          intro found isKept type named
          exact ofVariable found isKept type (Variable.type_mem_givenTexts named)

/-- The module of a group is laid out, if no given text has line breaks. -/
theorem isLaidOut_groupModule {id : GroupId} {content : Declaration}
    (done : (specification.groupModule id).result = .ok content) : content.IsLaidOut := by
  obtain ⟨group, groupDone, rest⟩ := Attempt.result_bind_eq_ok_iff.mp done
  obtain ⟨name, nameDone, rest⟩ := Attempt.result_bind_eq_ok_iff.mp rest
  obtain ⟨scripts, scriptsDone, rest⟩ := Attempt.result_bind_eq_ok_iff.mp rest
  obtain ⟨memories, memoriesDone, rest⟩ := Attempt.result_bind_eq_ok_iff.mp rest
  obtain ⟨interactions, interactionsDone, last⟩ := Attempt.result_bind_eq_ok_iff.mp rest
  cases last
  rw [Attempt.result_mapM, mapM_eq_ok_iff] at scriptsDone memoriesDone interactionsDone
  apply Declaration.IsLaidOut.module (gives.group_name allowsNames_isInline nameDone)
  rw [List.nil_append, List.forall_mem_append, List.forall_mem_append, List.forall_mem_append]
  refine ⟨⟨⟨?_, ?_⟩, ?_⟩, ?_⟩
  · intro declaration member
    obtain ⟨target, isTarget, inTarget⟩ := List.mem_flatMap.mp member
    apply declarationLaw_isLaidOut.holds_targetDeclarations textLaw_inline _ declaration inTarget
    intro text given
    apply gives.groups group (mem_of_entryAt groupDone)
    exact List.mem_append_right _ (List.mem_flatMap.mpr ⟨target, isTarget, given⟩)
  · intro declaration member
    obtain ⟨script, _, scriptDone⟩ := exists_left_of_mem scriptsDone member
    exact declarationLaw_isLaidOut.holds_scriptDeclaration textLaw_inline gives scriptDone
  · intro declaration member
    obtain ⟨memory, isMemory, inMemory⟩ := List.mem_flatMap.mp member
    obtain ⟨interaction, _, memoryDone⟩ := exists_left_of_mem memoriesDone isMemory
    exact isLaidOut_memoryModule gives memoryDone declaration inMemory
  · intro declaration member
    obtain ⟨interaction, _, interactionDone⟩ := exists_left_of_mem interactionsDone member
    exact holds_interactionModule pieceLaw_inline declarationLaw_isLaidOut gives interactionDone

omit gives in
/-- The modules of the memories and of the interactions of a group stand in its module. -/
theorem holds_groupModule {id : GroupId} {group : Group} {content : Declaration}
    (placed : specification.group id = .ok group)
    (done : (specification.groupModule id).result = .ok content) :
    ∀ interaction ∈ group.interactions,
      (∃ memory, specification.memoryModule interaction = .ok memory ∧
        ∀ inner ∈ memory, content.Holds 1 inner) ∧
      ∃ inner, (specification.interactionModule interaction).result = .ok inner ∧
        content.Holds 1 inner := by
  obtain ⟨same, samePlaced, rest⟩ := Attempt.result_bind_eq_ok_iff.mp done
  cases placed.symm.trans samePlaced
  obtain ⟨name, _, rest⟩ := Attempt.result_bind_eq_ok_iff.mp rest
  obtain ⟨scripts, _, rest⟩ := Attempt.result_bind_eq_ok_iff.mp rest
  obtain ⟨memories, memoriesDone, rest⟩ := Attempt.result_bind_eq_ok_iff.mp rest
  obtain ⟨interactions, interactionsDone, last⟩ := Attempt.result_bind_eq_ok_iff.mp rest
  cases last
  rw [Attempt.result_mapM, mapM_eq_ok_iff] at memoriesDone interactionsDone
  intro interaction member
  constructor
  · obtain ⟨memory, isMemory, memoryDone⟩ := exists_right_of_mem memoriesDone member
    refine ⟨memory, memoryDone, fun inner isInner => ?_⟩
    have among : inner ∈ memories.flatMap Option.toList :=
      List.mem_flatMap.mpr ⟨memory, isMemory, Option.mem_toList.mpr isInner⟩
    have member : inner ∈ [] ++ (group.target.toList.flatMap targetDeclarations ++ scripts ++
        memories.flatMap Option.toList ++ interactions) :=
      List.mem_append_right [] (List.mem_append_left _ (List.mem_append_right _ among))
    exact .within name member (.itself inner)
  · obtain ⟨inner, among, innerDone⟩ := exists_right_of_mem interactionsDone member
    have member := List.mem_append_right [] (List.mem_append_right
      (group.target.toList.flatMap targetDeclarations ++ scripts ++
        memories.flatMap Option.toList) among)
    exact ⟨inner, innerDone, .within name member (.itself inner)⟩

omit gives in
/-- Indenting a tidy text twice is indenting it by the sum of the levels.  It moves each
line and can be taken back.  So in the module of a group, in which the modules of its
memories and interactions stand, every item has its lines next to each other, each moved
by one level for every module around the item. -/
theorem items_keep_their_lines :
    (∀ (text : String) (first second : Nat), IsTidy text →
      indent second (indent first text) = indent (first + second) text ∧
      (textLines (indent first text)).length = (textLines text).length ∧
      outdent first (indent first text) = some text ∧
      (2 * (first + second) ≤ largestTextSize →
        (indentBy first text >>= indentBy second) = indentBy (first + second) text)) ∧
    ∀ (specification : Specification) (id : GroupId) (content : Declaration),
      specification.GivesOnly (ConsistsOf isInline) →
      (specification.groupModule id).result = .ok content →
      (∀ group, specification.group id = .ok group → ∀ interaction ∈ group.interactions,
        (∃ memory, specification.memoryModule interaction = .ok memory ∧
          ∀ inner ∈ memory, content.Holds 1 inner) ∧
        ∃ inner, (specification.interactionModule interaction).result = .ok inner ∧
          content.Holds 1 inner) ∧
      ∀ (depth : Nat) (item : Declaration), content.Holds depth item →
        (textLines item.text).map (indentLine depth) <:+: textLines content.text := by
  constructor
  · intro text first second tidy
    have twice := tidy.indent_indent first second
    refine ⟨twice, tidy.length_textLines_indent first, tidy.outdent_indent first, ?_⟩
    intro fits
    have firstFits : 2 * first ≤ largestTextSize := by omega
    have secondFits : 2 * second ≤ largestTextSize := by omega
    rw [indentBy_eq_ok firstFits, indentBy_eq_ok fits, ← twice]
    exact indentBy_eq_ok secondFits (indent first text)
  · intro specification id content gives done
    refine ⟨fun group placed => holds_groupModule placed done, fun depth item holds => ?_⟩
    exact holds.infix_textLines (isLaidOut_groupModule gives done)

end Specification

private theorem givesOnly_inline_settlements : settlements.GivesOnly (ConsistsOf isInline) := by
  decide

def settlementStore : Declaration :=
  .store ⟨[⟨"debt", .int⟩]⟩

/-- The store stands in two modules. -/
theorem items_keep_their_lines_settlements :
    IsTidy "let\n\n  Memory\nwithin" ∧
      indent 2 (indent 1 "let\n\n  Memory\nwithin") =
        "      let\n\n        Memory\n      within" ∧
      settlements.GivesOnly (ConsistsOf isInline) ∧
      ∃ content, (settlements.groupModule ⟨0⟩).result = .ok content ∧
        content.Holds 2 settlementStore ∧ 1 < (textLines settlementStore.text).length ∧
        (textLines settlementStore.text).map (indentLine 2) <:+: textLines content.text := by
  have tidy : IsTidy "let\n\n  Memory\nwithin" := ⟨by decide, by decide⟩
  have laws := Specification.items_keep_their_lines
  refine ⟨tidy, (laws.1 _ 1 2 tidy).1.trans (by decide), givesOnly_inline_settlements, ?_⟩
  have several : 1 < (textLines settlementStore.text).length := by
    rw [settlementStore, Declaration.text]
    exact Store.one_lt_length_textLines (by decide) (by decide) (by simp)
  have succeeds : (settlements.groupModule ⟨0⟩).result.toOption.isSome = true := by
    decide +kernel
  cases done : (settlements.groupModule ⟨0⟩).result with
  | error fault =>
      rw [done] at succeeds
      cases succeeds
  | ok content =>
      obtain ⟨modules, together⟩ :=
        laws.2 settlements ⟨0⟩ content givesOnly_inline_settlements done
      obtain ⟨⟨memory, memoryDone, holds⟩, _⟩ := modules _ rfl ⟨0⟩ List.mem_cons_self
      cases memoryDone
      have inside : content.Holds 2 settlementStore :=
        (holds _ rfl).trans (.within _ (.tail _ (.head _)) (.itself _))
      exact ⟨content, rfl, inside, several, together 2 settlementStore inside⟩

end SequenceChart
