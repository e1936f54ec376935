import SequenceChart.Declaration
import SequenceChart.Proofs.Pieces
import SequenceChart.Proofs.TextLaws

/-!
A text without carriage returns that does not end in a line break is its lines, put
together again.  Lines without breaks of which the last one is not empty are the lines of
such a text.  So whatever moves single lines to the right can be followed line by line.

The lines of a module are those of its items, moved by one level, with three lines around
and between them.  An item of an item is moved by two levels, and so on.
-/

namespace SequenceChart

/-- The text has no carriage returns, and no line break at its end. -/
structure IsTidy (text : String) : Prop where
  noReturn : '\r' ∉ text.toList
  noLastBreak : text.toList.getLast? ≠ some '\n'

/-- The text is tidy and not empty, so it has a last line, which is not empty. -/
structure IsBlock (text : String) : Prop extends IsTidy text where
  notEmpty : text ≠ ""

theorem noReturn_of_inline {text : String} (inline : ConsistsOf isInline text) :
    '\r' ∉ text.toList :=
  fun present => absurd (inline _ present) (by decide)

theorem isBlock_of_inline {text : String} (inline : ConsistsOf isInline text)
    (notEmpty : text ≠ "") : IsBlock text where
  noReturn := noReturn_of_inline inline
  noLastBreak last := absurd (inline _ (List.mem_of_getLast? last)) (by decide)
  notEmpty := notEmpty

theorem noReturn_append {first second : String} (ofFirst : '\r' ∉ first.toList)
    (ofSecond : '\r' ∉ second.toList) : '\r' ∉ (first ++ second).toList := by
  rw [String.toList_append, List.mem_append]
  exact not_or.mpr ⟨ofFirst, ofSecond⟩

/-- Only the end of a text decides on its last line. -/
theorem IsBlock.behind {front text : String} (block : IsBlock text)
    (noReturn : '\r' ∉ front.toList) : IsBlock (front ++ text) where
  noReturn := noReturn_append noReturn block.noReturn
  noLastBreak := by
    have visible : text.toList ≠ [] := by simpa using block.notEmpty
    rw [String.toList_append, List.getLast?_append_of_ne_nil _ visible]
    exact block.noLastBreak
  notEmpty := by simp [block.notEmpty]

theorem isBlock_joinWith {separator : String} (between : '\r' ∉ separator.toList)
    {parts : List String} (each : ∀ part ∈ parts, '\r' ∉ part.toList) {last : String}
    (isLast : parts.getLast? = some last) (block : IsBlock last) :
    IsBlock (joinWith separator parts) := by
  induction parts with
  | nil =>
      cases isLast
  | cons part rest inductionHypothesis =>
      rw [List.forall_mem_cons] at each
      cases rest with
      | nil =>
          cases isLast
          exact block
      | cons next others =>
          rw [joinWith_cons_cons]
          have ofRest := inductionHypothesis each.2 (by simpa using isLast)
          exact ofRest.behind (noReturn_append each.1 between)

/-- Lines without breaks, of which the last is not empty. -/
structure AreLines (lines : List String) : Prop where
  inline : ∀ line ∈ lines, ConsistsOf isInline line
  lastNotEmpty : lines.getLast? ≠ some ""

theorem AreLines.tail {line next : String} {others : List String}
    (areLines : AreLines (line :: next :: others)) : AreLines (next :: others) where
  inline := (List.forall_mem_cons.mp areLines.inline).2
  lastNotEmpty := by simpa using areLines.lastNotEmpty

theorem characterLines_cons {character : Char} (inline : isInline character = true)
    (rest : List Char) :
    characterLines (character :: rest) =
      match characterLines rest with
      | [] => [[character]]
      | line :: others => (character :: line) :: others := by
  apply characterLines.eq_4
  · rintro rfl
    cases inline
  · rintro _ rfl
    cases inline

private theorem characterLines_break {line : List Char}
    (inline : ∀ character ∈ line, isInline character = true) (rest : List Char) :
    characterLines (line ++ '\n' :: rest) = line :: characterLines rest := by
  induction line with
  | nil =>
      rfl
  | cons character others inductionHypothesis =>
      rw [List.forall_mem_cons] at inline
      rw [List.cons_append, characterLines_cons inline.1, inductionHypothesis inline.2]

private theorem characterLines_line {line : List Char}
    (inline : ∀ character ∈ line, isInline character = true) (nonempty : line ≠ []) :
    characterLines line = [line] := by
  induction line with
  | nil =>
      exact absurd rfl nonempty
  | cons character others inductionHypothesis =>
      rw [List.forall_mem_cons] at inline
      rw [characterLines_cons inline.1]
      by_cases last : others = []
      · subst last
        rfl
      · rw [inductionHypothesis inline.2 last]

theorem textLines_break {line : String} (inline : ConsistsOf isInline line) (text : String) :
    textLines (line ++ "\n" ++ text) = line :: textLines text := by
  have together : (line ++ "\n" ++ text).toList = line.toList ++ '\n' :: text.toList := by
    simp
  rw [textLines, together, characterLines_break inline, List.map_cons, String.ofList_toList]
  rfl

private theorem textLines_line {line : String} (inline : ConsistsOf isInline line)
    (nonempty : line ≠ "") : textLines line = [line] := by
  have some : line.toList ≠ [] := by simpa using nonempty
  rw [textLines, characterLines_line inline some, List.map_singleton, String.ofList_toList]

/-- Lines that are put together are found again. -/
theorem textLines_joinWith {lines : List String} (areLines : AreLines lines) :
    textLines (joinWith "\n" lines) = lines := by
  induction lines with
  | nil =>
      rfl
  | cons line rest inductionHypothesis =>
      have inline := (List.forall_mem_cons.mp areLines.inline).1
      cases rest with
      | nil =>
          have notEmpty : line ≠ "" := by simpa using areLines.lastNotEmpty
          exact textLines_line inline notEmpty
      | cons next others =>
          rw [joinWith_cons_cons, textLines_break inline, inductionHypothesis areLines.tail]

theorem AreLines.isBlock {lines : List String} (areLines : AreLines lines)
    (nonempty : lines ≠ []) : IsBlock (joinWith "\n" lines) := by
  have isLast := List.getLast?_eq_some_getLast nonempty
  have inline := areLines.inline (lines.getLast nonempty) (List.getLast_mem nonempty)
  apply isBlock_joinWith (by decide) _ isLast
  · apply isBlock_of_inline inline
    intro empty
    apply areLines.lastNotEmpty
    rw [isLast, empty]
  · exact fun line member => noReturn_of_inline (areLines.inline line member)

/-- A line break in front of lines puts an empty line in front. -/
theorem AreLines.behindBreak {lines : List String} (areLines : AreLines lines)
    (nonempty : lines ≠ []) :
    AreLines ("" :: lines) ∧ joinWith "\n" ("" :: lines) = "\n" ++ joinWith "\n" lines := by
  obtain ⟨line, others, rfl⟩ := List.exists_cons_of_ne_nil nonempty
  refine ⟨⟨?_, ?_⟩, ?_⟩
  · exact List.forall_mem_cons.mpr ⟨by decide, areLines.inline⟩
  · simpa using areLines.lastNotEmpty
  · rw [joinWith_cons_cons]
    simp

/-- Any other character in front belongs to the first line. -/
theorem AreLines.behindCharacter {lines : List String} (areLines : AreLines lines)
    {front : String} (inline : ConsistsOf isInline front) (visible : front ≠ "") :
    ∃ more, AreLines more ∧ joinWith "\n" more = front ++ joinWith "\n" lines := by
  cases lines with
  | nil =>
      refine ⟨[front], ⟨List.forall_mem_singleton.mpr inline, by simpa using visible⟩, ?_⟩
      exact String.append_empty.symm
  | cons line others =>
      have ofLines := List.forall_mem_cons.mp areLines.inline
      refine ⟨(front ++ line) :: others, ⟨?_, ?_⟩, ?_⟩
      · exact List.forall_mem_cons.mpr ⟨inline.append ofLines.1, ofLines.2⟩
      · cases others with
        | nil =>
            simp [visible]
        | cons next later =>
            simpa using areLines.lastNotEmpty
      · cases others with
        | nil =>
            rfl
        | cons next later =>
            rw [joinWith_cons_cons, joinWith_cons_cons]
            simp only [String.append_assoc]

/-- Every tidy text is made of lines. -/
theorem IsTidy.exists_lines {text : String} (tidy : IsTidy text) :
    ∃ lines, AreLines lines ∧ joinWith "\n" lines = text := by
  obtain ⟨noReturn, noLastBreak⟩ := tidy
  rw [← String.ofList_toList (s := text)]
  generalize text.toList = characters at noReturn noLastBreak
  induction characters with
  | nil =>
      exact ⟨[], ⟨by simp, by simp⟩, rfl⟩
  | cons character rest inductionHypothesis =>
      rw [List.mem_cons, not_or] at noReturn
      have noLaterBreak : rest.getLast? ≠ some '\n' := by
        intro isLast
        apply noLastBreak
        rwa [List.getLast?_cons_of_ne_nil (List.ne_nil_of_mem (List.mem_of_getLast? isLast))]
      obtain ⟨lines, areLines, joined⟩ := inductionHypothesis noReturn.2 noLaterBreak
      rw [← List.singleton_append, String.ofList_append, ← joined]
      by_cases isBreak : character = '\n'
      · subst isBreak
        have nonempty : lines ≠ [] := by
          rintro rfl
          have ended : rest = [] := by simpa [joinWith] using joined
          exact noLastBreak (by rw [ended]; rfl)
        exact ⟨"" :: lines, areLines.behindBreak nonempty⟩
      · have inline : ConsistsOf isInline (String.ofList [character]) := by
          intro other member
          rw [String.toList_ofList, List.mem_singleton] at member
          rw [member, isInline, Bool.and_eq_true, decide_eq_true_iff, decide_eq_true_iff]
          exact ⟨isBreak, Ne.symm noReturn.1⟩
        exact areLines.behindCharacter inline (by simp)

theorem IsTidy.areLines {text : String} (tidy : IsTidy text) : AreLines (textLines text) := by
  obtain ⟨lines, areLines, rfl⟩ := tidy.exists_lines
  rwa [textLines_joinWith areLines]

/-- A tidy text is its lines. -/
theorem IsTidy.joinWith_textLines {text : String} (tidy : IsTidy text) :
    joinWith "\n" (textLines text) = text := by
  obtain ⟨lines, areLines, rfl⟩ := tidy.exists_lines
  rw [textLines_joinWith areLines]

theorem IsBlock.textLines_ne_nil {text : String} (block : IsBlock text) : textLines text ≠ [] := by
  intro none
  apply block.notEmpty
  rw [← block.joinWith_textLines, none]
  rfl

theorem indentLine_eq_empty_iff {level : Nat} {line : String} :
    indentLine level line = "" ↔ line = "" := by
  rw [indentLine]
  by_cases empty : line = ""
  · simp [empty]
  · rw [if_neg (by simpa using empty)]
    simp [empty]

private theorem consistsOf_indentLine {level : Nat} {line : String}
    (inline : ConsistsOf isInline line) :
    ConsistsOf isInline (indentLine level line) := by
  rw [indentLine]
  split
  · exact inline
  · refine ConsistsOf.append (fun character member => ?_) inline
    rw [String.toList_ofList] at member
    rw [List.eq_of_mem_replicate member]
    rfl

@[simp]
theorem indentLine_zero (line : String) : indentLine 0 line = line := by
  rw [indentLine]
  split
  · rfl
  · exact String.empty_append

private theorem indentLine_indentLine (first second : Nat) (line : String) :
    indentLine second (indentLine first line) = indentLine (first + second) line := by
  by_cases empty : line = ""
  · subst empty
    rfl
  · have moved : indentLine first line ≠ "" := indentLine_eq_empty_iff.not.mpr empty
    have blanks : 2 * (first + second) = 2 * second + 2 * first := by omega
    rw [indentLine, if_neg (by simpa using moved), indentLine, if_neg (by simpa using empty),
      indentLine, if_neg (by simpa using empty), ← String.append_assoc, ← String.ofList_append,
      List.replicate_append_replicate, blanks]

theorem AreLines.indented {lines : List String} (areLines : AreLines lines) (level : Nat) :
    AreLines (lines.map (indentLine level)) where
  inline := List.forall_mem_map.mpr fun line member =>
    consistsOf_indentLine (areLines.inline line member)
  lastNotEmpty := by
    rw [List.getLast?_map]
    intro moved
    obtain ⟨line, isLast, empty⟩ := Option.map_eq_some_iff.mp moved
    apply areLines.lastNotEmpty
    rw [isLast, indentLine_eq_empty_iff.mp empty]

namespace IsTidy

variable {text : String} (tidy : IsTidy text)
include tidy

/-- An indented text has the same lines, moved to the right. -/
theorem textLines_indent (level : Nat) :
    textLines (indent level text) = (textLines text).map (indentLine level) :=
  textLines_joinWith (tidy.areLines.indented level)

theorem indent_indent (first second : Nat) :
    indent second (indent first text) = indent (first + second) text := by
  rw [indent, tidy.textLines_indent, List.map_map, indent]
  congr 1
  apply List.map_congr_left
  intro line _
  exact indentLine_indentLine first second line

theorem length_textLines_indent (level : Nat) :
    (textLines (indent level text)).length = (textLines text).length := by
  rw [tidy.textLines_indent, List.length_map]

end IsTidy

theorem IsBlock.indented {text : String} (block : IsBlock text) (level : Nat) :
    IsBlock (indent level text) := by
  apply (block.areLines.indented level).isBlock
  simpa using block.textLines_ne_nil

/-- The line without two blanks a level at its begin, if it has them.  An empty line stays
as it is. -/
def outdentLine (level : Nat) (line : String) : Option String :=
  if line.isEmpty then
    some line
  else if List.replicate (2 * level) ' ' <+: line.toList then
    some (String.ofList (line.toList.drop (2 * level)))
  else
    none

/-- Every line of a text moved left by two blanks a level, if all lines allow it. -/
def outdent (level : Nat) (text : String) : Option String :=
  ((textLines text).mapM (outdentLine level)).map (joinWith "\n")

private theorem outdentLine_indentLine (level : Nat) (line : String) :
    outdentLine level (indentLine level line) = some line := by
  by_cases empty : line = ""
  · subst empty
    rfl
  · have moved : indentLine level line ≠ "" := indentLine_eq_empty_iff.not.mpr empty
    have shape : (indentLine level line).toList =
        List.replicate (2 * level) ' ' ++ line.toList := by
      rw [indentLine, if_neg (by simpa using empty), String.toList_append, String.toList_ofList]
    rw [outdentLine, if_neg (by simpa using moved), shape, if_pos (List.prefix_append _ _),
      List.drop_left' (List.length_replicate), String.ofList_toList]

private theorem mapM_outdentLine (level : Nat) (lines : List String) :
    (lines.map (indentLine level)).mapM (outdentLine level) = some lines := by
  induction lines with
  | nil =>
      rfl
  | cons line rest inductionHypothesis =>
      rw [List.map_cons, List.mapM_cons, outdentLine_indentLine, inductionHypothesis]
      rfl

theorem IsTidy.outdent_indent {text : String} (tidy : IsTidy text) (level : Nat) :
    outdent level (indent level text) = some text := by
  rw [outdent, tidy.textLines_indent, mapM_outdentLine, Option.map_some, tidy.joinWith_textLines]

theorem indentBy_eq_ok {level : Nat} (fits : 2 * level ≤ largestTextSize) (text : String) :
    indentBy level text = .ok (indent level text) := by
  rw [indentBy, if_neg]
  simp [Nat.not_lt.mpr fits]

/-! ## Lines of modules -/

def endedLines (lines : List String) : String :=
  concatenate (lines.map (· ++ "\n"))

@[simp]
theorem endedLines_cons (line : String) (rest : List String) :
    endedLines (line :: rest) = line ++ "\n" ++ endedLines rest := by
  rw [endedLines, List.map_cons, concatenate_cons]
  rfl

@[simp]
theorem endedLines_append (first second : List String) :
    endedLines (first ++ second) = endedLines first ++ endedLines second := by
  rw [endedLines, List.map_append, concatenate_append]
  rfl

private theorem joinWith_break {lines : List String} (nonempty : lines ≠ []) :
    joinWith "\n" lines ++ "\n" = endedLines lines := by
  induction lines with
  | nil =>
      exact absurd rfl nonempty
  | cons line rest inductionHypothesis =>
      rw [endedLines_cons]
      cases rest with
      | nil =>
          exact String.append_empty.symm
      | cons next others =>
          rw [joinWith_cons_cons, String.append_assoc,
            inductionHypothesis (List.cons_ne_nil next others)]

private theorem endedLines_last (lines : List String) (last : String) :
    endedLines lines ++ last = joinWith "\n" (lines ++ [last]) := by
  induction lines with
  | nil =>
      exact String.empty_append
  | cons line rest inductionHypothesis =>
      rw [endedLines_cons, String.append_assoc, inductionHypothesis]
      cases rest with
      | nil | cons =>
          exact (joinWith_cons_cons "\n" line _ _).symm

namespace Declaration

def itemLines (items : List Declaration) : List String :=
  items.flatMap fun item => (textLines item.text).map (indentLine 1)

def moduleLines (name : String) (hidden exported : List Declaration) : List String :=
  ("module " ++ name) :: (itemLines hidden ++ "exports" :: itemLines exported) ++ ["endmodule"]

@[simp]
theorem itemLines_cons (item : Declaration) (rest : List Declaration) :
    itemLines (item :: rest) =
      (textLines item.text).map (indentLine 1) ++ itemLines rest :=
  List.flatMap_cons

private theorem infix_itemLines {items : List Declaration} {item : Declaration}
    (member : item ∈ items) :
    (textLines item.text).map (indentLine 1) <:+: itemLines items := by
  rw [itemLines, List.flatMap_def]
  exact List.infix_of_mem_flatten (List.mem_map_of_mem member)

private theorem inline_itemLines {items : List Declaration}
    (each : ∀ item ∈ items, IsBlock item.text) :
    ∀ line ∈ itemLines items, ConsistsOf isInline line := by
  intro line member
  obtain ⟨item, isItem, inItem⟩ := List.mem_flatMap.mp member
  exact ((each item isItem).areLines.indented 1).inline line inItem

private theorem concatenate_itemTexts {items : List Declaration}
    (each : ∀ item ∈ items, IsBlock item.text) :
    concatenate (itemTexts items) = endedLines (itemLines items) := by
  induction items with
  | nil =>
      rfl
  | cons item rest inductionHypothesis =>
      rw [List.forall_mem_cons] at each
      have nonempty : (textLines item.text).map (indentLine 1) ≠ [] := by
        simpa using each.1.textLines_ne_nil
      rw [itemTexts, concatenate_cons, inductionHypothesis each.2, itemLines_cons,
        endedLines_append, indent, joinWith_break nonempty]

private theorem infix_moduleLines (name : String) {hidden exported : List Declaration}
    {item : Declaration} (member : item ∈ hidden ++ exported) :
    (textLines item.text).map (indentLine 1) <:+: moduleLines name hidden exported := by
  rcases List.mem_append.mp member with isHidden | isExported
  · refine (infix_itemLines isHidden).trans ?_
    exact ⟨["module " ++ name], "exports" :: itemLines exported ++ ["endmodule"],
      by simp [moduleLines]⟩
  · refine (infix_itemLines isExported).trans ?_
    exact ⟨("module " ++ name) :: (itemLines hidden ++ ["exports"]), ["endmodule"],
      by simp [moduleLines]⟩

section Modules

variable {name : String} {hidden exported : List Declaration}
  (inline : ConsistsOf isInline name) (each : ∀ item ∈ hidden ++ exported, IsBlock item.text)
include each

private theorem text_module : (module name hidden exported).text =
    joinWith "\n" (moduleLines name hidden exported) := by
  rw [List.forall_mem_append] at each
  have separator : "exports\n" = "exports" ++ "\n" := rfl
  rw [text, concatenate_itemTexts each.1, concatenate_itemTexts each.2, moduleLines,
    ← endedLines_last, endedLines_cons, endedLines_append, endedLines_cons, separator]
  simp only [String.append_assoc]

include inline

private theorem areLines_moduleLines : AreLines (moduleLines name hidden exported) where
  inline := by
    have lead : ConsistsOf isInline "module " := by decide
    have between : ConsistsOf isInline "exports" := by decide
    have ending : ConsistsOf isInline "endmodule" := by decide
    rw [List.forall_mem_append] at each
    rw [moduleLines, List.forall_mem_append, List.forall_mem_cons, List.forall_mem_append,
      List.forall_mem_cons, List.forall_mem_singleton]
    exact ⟨⟨lead.append inline, inline_itemLines each.1, between, inline_itemLines each.2⟩, ending⟩
  lastNotEmpty := by
    rw [moduleLines, List.getLast?_concat]
    decide

private theorem textLines_module : textLines (module name hidden exported).text =
    moduleLines name hidden exported := by
  rw [text_module each, textLines_joinWith (areLines_moduleLines inline each)]

private theorem isBlock_module : IsBlock (module name hidden exported).text := by
  rw [text_module each]
  exact (areLines_moduleLines inline each).isBlock (List.cons_ne_nil _ _)

end Modules

def isModule : Declaration → Bool
  | .module _ _ _ => true
  | _ => false

/-- All that stands in the declaration is made of lines, and the names of modules are of
one line. -/
inductive IsLaidOut : Declaration → Prop
  | leaf {item : Declaration} : item.isModule = false → IsBlock item.text → IsLaidOut item
  | module {name : String} {hidden exported : List Declaration} :
      ConsistsOf isInline name →
      (∀ item ∈ hidden ++ exported, IsLaidOut item) →
      IsLaidOut (.module name hidden exported)

/-- `whole.Holds depth item` means that the item stands in so many modules inside of the
whole. -/
inductive Holds : Declaration → Nat → Declaration → Prop
  | itself (item : Declaration) : Holds item 0 item
  | within (name : String) {hidden exported : List Declaration} {inner item : Declaration}
      {depth : Nat} :
      inner ∈ hidden ++ exported → Holds inner depth item →
      Holds (.module name hidden exported) (depth + 1) item

theorem Holds.trans {whole inner item : Declaration} {depth further : Nat}
    (outside : whole.Holds depth inner) (inside : inner.Holds further item) :
    whole.Holds (depth + further) item := by
  induction outside with
  | itself =>
      rwa [Nat.zero_add]
  | within name member _ inductionHypothesis =>
      rw [Nat.add_right_comm]
      exact .within name member (inductionHypothesis inside)

theorem IsLaidOut.isBlock {declaration : Declaration} (laidOut : declaration.IsLaidOut) :
    IsBlock declaration.text := by
  induction laidOut with
  | leaf _ block =>
      exact block
  | module inline _ inductionHypothesis =>
      exact isBlock_module inline inductionHypothesis

/-- The lines of an item are next to each other among those of the whole, moved by as many
levels as there are modules around the item. -/
theorem Holds.infix_textLines {whole item : Declaration} {depth : Nat}
    (holds : whole.Holds depth item) (laidOut : whole.IsLaidOut) :
    (textLines item.text).map (indentLine depth) <:+: textLines whole.text := by
  induction holds with
  | itself item =>
      rw [List.map_congr_left fun line _ => indentLine_zero line, List.map_id']
  | @within name hidden exported inner item depth member _ inductionHypothesis =>
      cases laidOut with
      | leaf noModule =>
          cases noModule
      | module inline each =>
          have deeper : (textLines item.text).map (indentLine (depth + 1)) =
              ((textLines item.text).map (indentLine depth)).map (indentLine 1) := by
            rw [List.map_map]
            apply List.map_congr_left
            intro line _
            exact (indentLine_indentLine depth 1 line).symm
          rw [textLines_module inline fun item isItem => (each item isItem).isBlock, deeper]
          exact ((inductionHypothesis (each inner member)).map (indentLine 1)).trans
            (infix_moduleLines name member)

end Declaration

end SequenceChart
