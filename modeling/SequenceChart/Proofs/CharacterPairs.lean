import SequenceChart.Layout
import Mathlib.Data.Nat.Digits.Defs

/-!
# Pairs of reserved characters

Two characters side by side can mean something to the reader of a model that
neither means alone: a brace and a dash begin or end a comment, and two dashes begin
one that ends with the line.  A rule picks such pairs out of a text.  All of them
consist of dashes and braces, the reserved characters.

Layout keeps reserved characters apart.  The pairs in a text that is put together out
of pieces are then those in the pieces, and moving lines to the right changes none.
-/

namespace SequenceChart

/-- The characters of which pairs with a meaning consist. -/
def isReserved (character : Char) : Bool :=
  character = '-' || character = '\x7b' || character = '\x7d'

/-- A choice of pairs of reserved characters. -/
structure PairRule (β : Type) where
  select : Char → Char → Option β
  select_left : ∀ first second, isReserved first = false → select first second = none
  select_right : ∀ first second, isReserved second = false → select first second = none

namespace PairRule

variable {β : Type} (rule : PairRule β)

def among : List Char → List β
  | first :: second :: rest => (rule.select first second).toList ++ among (second :: rest)
  | _ => []

def within (text : String) : List β :=
  rule.among text.toList

@[simp]
theorem among_cons_cons (first second : Char) (rest : List Char) :
    rule.among (first :: second :: rest) =
      (rule.select first second).toList ++ rule.among (second :: rest) :=
  rfl

/-- No pair begins at a character that is not reserved. -/
theorem among_cons {character : Char} (rest : List Char)
    (free : isReserved character = false) :
    rule.among (character :: rest) = rule.among rest := by
  cases rest with
  | nil =>
      rfl
  | cons next others =>
      rw [among_cons_cons, rule.select_left character next free]
      rfl

/-- No pair is found across a border that does not begin with a reserved character. -/
theorem among_append_of_head (before : List Char) {after : List Char}
    (free : ∀ character ∈ after.head?, isReserved character = false) :
    rule.among (before ++ after) = rule.among before ++ rule.among after := by
  induction before with
  | nil =>
      rfl
  | cons character rest inductionHypothesis =>
      cases rest with
      | nil =>
          cases after with
          | nil =>
              rfl
          | cons next others =>
              have apart := rule.select_right character next (free next rfl)
              rw [List.cons_append, List.nil_append, among_cons_cons, apart]
              rfl
      | cons next others =>
          rw [List.cons_append, List.cons_append, among_cons_cons, ← List.cons_append,
            inductionHypothesis, among_cons_cons, List.append_assoc]

/-- No pair is found across a border that does not end with a reserved character. -/
theorem among_append_of_last {before : List Char} (after : List Char)
    (free : ∀ character ∈ before.getLast?, isReserved character = false) :
    rule.among (before ++ after) = rule.among before ++ rule.among after := by
  induction before with
  | nil =>
      rfl
  | cons character rest inductionHypothesis =>
      cases rest with
      | nil =>
          exact rule.among_cons after (free character rfl)
      | cons next others =>
          have laterFree : ∀ last ∈ (next :: others).getLast?, isReserved last = false := by
            intro last isLast
            apply free
            rwa [List.getLast?_cons_cons]
          rw [List.cons_append, List.cons_append, among_cons_cons, ← List.cons_append,
            inductionHypothesis laterFree, among_cons_cons, List.append_assoc]

/-- Characters of which no two neighbours are reserved. -/
def keepsApart : List Char → Bool
  | first :: second :: rest =>
      !(isReserved first && isReserved second) && keepsApart (second :: rest)
  | _ => true

theorem among_eq_nil_of_keepsApart {characters : List Char}
    (apart : keepsApart characters = true) : rule.among characters = [] := by
  induction characters with
  | nil =>
      rfl
  | cons first rest inductionHypothesis =>
      cases rest with
      | nil =>
          rfl
      | cons second others =>
          rw [keepsApart, Bool.and_eq_true] at apart
          have none : rule.select first second = none := by
            by_cases reserved : isReserved first = true
            · have free : isReserved second = false := by simpa [reserved] using apart.1
              exact rule.select_right first second free
            · exact rule.select_left first second (by simpa using reserved)
          rw [among_cons_cons, none, inductionHypothesis apart.2]
          rfl

end PairRule

def isFree (text : String) : Bool :=
  text.toList.all fun character => !isReserved character

def beginsFree (text : String) : Bool :=
  text.toList.head?.all fun character => !isReserved character

def endsFree (text : String) : Bool :=
  text.toList.getLast?.all fun character => !isReserved character

theorem isFree_iff {text : String} :
    isFree text = true ↔ ∀ character ∈ text.toList, isReserved character = false := by
  simp [isFree]

theorem beginsFree_iff {text : String} :
    beginsFree text = true ↔ ∀ character ∈ text.toList.head?, isReserved character = false := by
  simp [beginsFree, Option.all_eq_true]

theorem endsFree_iff {text : String} :
    endsFree text = true ↔
      ∀ character ∈ text.toList.getLast?, isReserved character = false := by
  simp [endsFree, Option.all_eq_true]

/-- A piece of layout that keeps what is before it apart from what is behind it, and
holds no pair of reserved characters itself. -/
def isBorder (text : String) : Bool :=
  match text.toList with
  | [] => false
  | first :: rest =>
      !isReserved first && !isReserved ((first :: rest).getLast (List.cons_ne_nil first rest)) &&
        PairRule.keepsApart (first :: rest)

theorem isBorder_iff {text : String} :
    isBorder text = true ↔ text.toList ≠ [] ∧
      beginsFree text = true ∧ endsFree text = true ∧
      PairRule.keepsApart text.toList = true := by
  rw [isBorder, beginsFree, endsFree]
  cases text.toList with
  | nil =>
      simp
  | cons first rest =>
      simp [List.getLast?_eq_some_getLast, and_assoc]

namespace PairRule

variable {β : Type} (rule : PairRule β)

theorem within_border {border : String} (isBorder : isBorder border = true) :
    rule.within border = [] :=
  rule.among_eq_nil_of_keepsApart (isBorder_iff.mp isBorder).2.2.2

theorem within_append_of_head (before : String) {after : String}
    (free : beginsFree after = true) :
    rule.within (before ++ after) = rule.within before ++ rule.within after := by
  rw [within, String.toList_append]
  exact rule.among_append_of_head _ (beginsFree_iff.mp free)

theorem within_append_of_last {before : String} (after : String)
    (free : endsFree before = true) :
    rule.within (before ++ after) = rule.within before ++ rule.within after := by
  rw [within, String.toList_append]
  exact rule.among_append_of_last _ (endsFree_iff.mp free)

/-- A border behind a text adds no pair. -/
theorem within_followed (text : String) {border : String}
    (isBorder : isBorder border = true) :
    rule.within (text ++ border) = rule.within text := by
  rw [rule.within_append_of_head text (isBorder_iff.mp isBorder).2.1,
    rule.within_border isBorder, List.append_nil]

/-- A border in front of a text adds no pair. -/
theorem within_behind {border : String} (text : String)
    (isBorder : isBorder border = true) :
    rule.within (border ++ text) = rule.within text := by
  rw [rule.within_append_of_last text (isBorder_iff.mp isBorder).2.2.1,
    rule.within_border isBorder, List.nil_append]

/-- Texts with a border between them have their pairs side by side. -/
theorem within_separated (before after : String) {border : String}
    (isBorder : isBorder border = true) :
    rule.within (before ++ border ++ after) = rule.within before ++ rule.within after := by
  obtain ⟨nonempty, headFree, _⟩ := isBorder_iff.mp isBorder
  have free : beginsFree (border ++ after) = true := by
    rw [beginsFree, String.toList_append]
    rw [beginsFree] at headFree
    cases shape : border.toList with
    | nil =>
        exact absurd shape nonempty
    | cons first rest =>
        rw [shape] at headFree
        exact headFree
  rw [String.append_assoc, rule.within_append_of_head before free,
    rule.within_behind after isBorder]

theorem within_joinWith {separator : String} (isBorder : isBorder separator = true)
    (pieces : List String) :
    rule.within (joinWith separator pieces) = pieces.flatMap rule.within := by
  induction pieces with
  | nil =>
      rfl
  | cons piece rest inductionHypothesis =>
      cases rest with
      | nil =>
          simp [joinWith, appendAll]
      | cons next others =>
          rw [joinWith_cons_cons, rule.within_separated _ _ isBorder, inductionHypothesis]
          exact List.flatMap_cons.symm

@[simp]
theorem within_commaSeparated (pieces : List String) :
    rule.within (commaSeparated pieces) = pieces.flatMap rule.within :=
  rule.within_joinWith (by decide) pieces

@[simp]
theorem within_application (function : String) (arguments : List String) :
    rule.within (application function arguments) =
      rule.within function ++ arguments.flatMap rule.within := by
  rw [application]
  split
  · rename_i empty
    rw [List.isEmpty_iff.mp empty]
    exact (List.append_nil _).symm
  · rw [rule.within_followed _ (by decide), rule.within_separated _ _ (by decide),
      within_commaSeparated]

/-- The pairs of a text are those of its lines.  A character in front of the text
belongs to the first line. -/
private theorem among_characterLines (characters : List Char) :
    rule.among characters = (characterLines characters).flatMap rule.among ∧
      ∀ character, rule.among (character :: characters) =
        match characterLines characters with
        | [] => []
        | line :: others => rule.among (character :: line) ++ others.flatMap rule.among := by
  have ended : ∀ rest : List Char, rule.among ('\n' :: rest) = rule.among rest :=
    fun rest => rule.among_cons rest (by decide)
  have returned : ∀ rest : List Char, rule.among ('\r' :: rest) = rule.among rest :=
    fun rest => rule.among_cons rest (by decide)
  have atEnd : ∀ character, (rule.select character '\n').toList = [] := by
    intro character
    rw [rule.select_right character '\n' (by decide)]
    rfl
  have atReturn : ∀ character, (rule.select character '\r').toList = [] := by
    intro character
    rw [rule.select_right character '\r' (by decide)]
    rfl
  fun_induction characterLines characters with
  | case1 =>
      exact ⟨rfl, fun _ => rfl⟩
  | case2 rest inductionHypothesis =>
      refine ⟨?_, fun character => ?_⟩
      · rw [ended, inductionHypothesis.1]
        rfl
      · rw [among_cons_cons, atEnd, ended, inductionHypothesis.1]
        rfl
  | case3 rest inductionHypothesis =>
      refine ⟨?_, fun character => ?_⟩
      · rw [returned, ended, inductionHypothesis.1]
        rfl
      · rw [among_cons_cons, atReturn, returned, ended, inductionHypothesis.1]
        rfl
  | case4 first rest _ _ noLines inductionHypothesis =>
      rw [noLines] at inductionHypothesis
      refine ⟨inductionHypothesis.2 first, fun character => ?_⟩
      rw [among_cons_cons, inductionHypothesis.2 first]
      exact (List.append_nil _).symm
  | case5 first rest _ _ line others lines inductionHypothesis =>
      rw [lines] at inductionHypothesis
      refine ⟨inductionHypothesis.2 first, fun character => ?_⟩
      rw [among_cons_cons, inductionHypothesis.2 first]
      exact (List.append_assoc _ _ _).symm

private theorem within_textLines (text : String) :
    (textLines text).flatMap rule.within = rule.within text := by
  rw [textLines, List.flatMap_map, within, (rule.among_characterLines text.toList).1]
  simp [within]

private theorem within_indentLine (level : Nat) (line : String) :
    rule.within (indentLine level line) = rule.within line := by
  have blanks : ∀ count, rule.among (List.replicate count ' ' ++ line.toList) =
      rule.among line.toList := by
    intro count
    induction count with
    | zero =>
        rfl
    | succ count inductionHypothesis =>
        rw [List.replicate_succ, List.cons_append, rule.among_cons _ (by decide),
          inductionHypothesis]
  rw [indentLine]
  split
  · rfl
  · rw [within, String.toList_append, String.toList_ofList]
    exact blanks (2 * level)

/-- Moving lines to the right keeps the pairs. -/
@[simp]
theorem within_indent (level : Nat) (text : String) :
    rule.within (indent level text) = rule.within text := by
  rw [indent, rule.within_joinWith (by decide), List.flatMap_map, ← rule.within_textLines text]
  simp only [within_indentLine]

end PairRule

namespace PairRule

theorem keepsApart_of_free {characters : List Char}
    (free : ∀ character ∈ characters, isReserved character = false) :
    keepsApart characters = true := by
  induction characters with
  | nil =>
      rfl
  | cons first rest inductionHypothesis =>
      have restApart := inductionHypothesis fun character member =>
        free character (List.mem_cons_of_mem first member)
      cases rest with
      | nil =>
          rfl
      | cons second others =>
          have firstFree := free first List.mem_cons_self
          rw [keepsApart, firstFree, restApart]
          rfl

end PairRule

private theorem isBorder_of_free {text : String} (nonempty : text.toList ≠ [])
    (free : ∀ character ∈ text.toList, isReserved character = false) :
    isBorder text = true := by
  refine isBorder_iff.mpr ⟨nonempty, ?_, ?_, PairRule.keepsApart_of_free free⟩
  · exact beginsFree_iff.mpr fun character isHead =>
      free character (List.mem_of_mem_head? isHead)
  · exact endsFree_iff.mpr fun character isLast =>
      free character (List.mem_of_mem_getLast? isLast)

theorem toString_injective {first second : Nat} (same : toString first = toString second) :
    first = second := by
  have values := congrArg (fun text => Nat.ofDigitChars 10 (String.toList text) 0) same
  simpa [Nat.toString_eq_ofList_toDigits] using values

theorem isDigit_of_mem_natural {value : Nat} {character : Char}
    (member : character ∈ (toString value).toList) : character.isDigit = true := by
  rw [Nat.toString_eq_ofList_toDigits, String.toList_ofList] at member
  exact Nat.isDigit_of_mem_toDigits (by decide) (by decide) member

theorem natural_ne_nil (value : Nat) : (toString value).toList ≠ [] := by
  rw [Nat.toString_eq_ofList_toDigits, String.toList_ofList]
  exact Nat.toDigits_ne_nil

/-- A number consists of digits, and no digit is reserved. -/
theorem natural_free (value : Nat) :
    ∀ character ∈ (toString value).toList, isReserved character = false := by
  intro character member
  have isDigit := isDigit_of_mem_natural member
  rw [← Bool.not_eq_true]
  intro reserved
  rw [isReserved, Bool.or_eq_true, Bool.or_eq_true] at reserved
  rcases reserved with (dash | opening) | closing
  · rw [of_decide_eq_true dash] at isDigit
    cases isDigit
  · rw [of_decide_eq_true opening] at isDigit
    cases isDigit
  · rw [of_decide_eq_true closing] at isDigit
    cases isDigit

@[simp]
theorem isBorder_natural (value : Nat) : isBorder (toString value) = true :=
  isBorder_of_free (natural_ne_nil value) (natural_free value)

end SequenceChart
