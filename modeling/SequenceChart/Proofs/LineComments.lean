import SequenceChart.Proofs.CommentMarks

/-!
# Line comments in generated files

Two dashes side by side begin a comment that ends with the line.  Models are full of
single dashes: minus signs, arrows, the ends of comments and the set of integers.  If
no given text has a dash, then no two of them meet.

Unlike the marks of other comments, two dashes are no part of any text that models
write on purpose.  So the pairs that a file could have are those of its parts, and no
part has one.
-/

namespace SequenceChart

def doubleDash : PairRule Unit where
  select first second := if first = '-' ∧ second = '-' then some () else none
  select_left := by
    intro first second free
    simp only [isReserved, Bool.or_eq_false_iff, decide_eq_false_iff_not] at free
    exact if_neg fun both => free.1.1 both.1
  select_right := by
    intro first second free
    simp only [isReserved, Bool.or_eq_false_iff, decide_eq_false_iff_not] at free
    exact if_neg fun both => free.1.1 both.2

def HasLineComment (text : String) : Prop :=
  ['-', '-'] <:+: text.toList

instance (text : String) : Decidable (HasLineComment text) :=
  inferInstanceAs (Decidable (['-', '-'] <:+: text.toList))

theorem doubleDash_among_eq_nil_iff {characters : List Char} :
    doubleDash.among characters = [] ↔ ¬ ['-', '-'] <:+: characters := by
  induction characters with
  | nil =>
      simp [PairRule.among]
  | cons first rest inductionHypothesis =>
      cases rest with
      | nil =>
          simp [PairRule.among, List.infix_cons_iff]
      | cons second others =>
          have cases : ['-', '-'] <:+: first :: second :: others ↔
              ['-', '-'] <+: first :: second :: others ∨ ['-', '-'] <:+: second :: others :=
            List.infix_cons_iff
          rw [doubleDash.among_cons_cons, List.append_eq_nil_iff, inductionHypothesis, cases,
            not_or]
          refine and_congr_left fun _ => ?_
          by_cases both : first = '-' ∧ second = '-'
          · simp [doubleDash, both]
          · have none : doubleDash.select first second = none := if_neg both
            have absent : ¬ ['-', '-'] <+: first :: second :: others := by
              intro begins
              obtain ⟨ofFirst, later⟩ := List.cons_prefix_cons.mp begins
              exact both ⟨ofFirst.symm, (List.cons_prefix_cons.mp later).1.symm⟩
            rw [none]
            exact iff_of_true rfl absent

theorem doubleDash_within_eq_nil_iff {text : String} :
    doubleDash.within text = [] ↔ ¬ HasLineComment text :=
  doubleDash_among_eq_nil_iff

def isDashless (character : Char) : Bool :=
  character ≠ '-'

private theorem doubleDash_tolerates : doubleDash.Tolerates isDashless where
  unreserved := by
    intro character free
    simp only [isReserved, Bool.or_eq_false_iff, decide_eq_false_iff_not] at free
    simpa [isDashless] using free.1.1
  allowed := by
    intro first second firstFree _
    exact if_neg fun both => by simp [isDashless, both.1] at firstFree
  dashed := by
    intro second free
    exact if_neg fun both => by simp [isDashless, both.2] at free
  emptySet := by
    decide

/-- The dashes at the ends of a comment keep apart from its text. -/
theorem doubleDash_within_comment {text : String} (noPair : doubleDash.within text = []) :
    doubleDash.within (comment text) = [] := by
  have opened : doubleDash.within "\x7b- " = [] := by decide
  have closed : doubleDash.within " -\x7d" = [] := by decide
  rw [comment, doubleDash.within_append_of_head _ (by decide),
    doubleDash.within_append_of_last _ (by decide), opened, noPair, closed]
  rfl

private theorem doubleDash_within_type {type : ValueType}
    (ofName : ∀ name, type = .named name → ConsistsOf isDashless name) :
    doubleDash.within type.text = [] := by
  cases type with
  | nat | int | bool =>
      decide
  | named name =>
      exact doubleDash_tolerates.within_eq_nil (ofName name rfl)

private theorem flatMap_doubleDash_comments {comments : List String}
    (noPair : ∀ text ∈ comments, doubleDash.within text = []) :
    comments.flatMap (fun text => doubleDash.within (comment text)) = [] :=
  List.flatMap_eq_nil_iff.mpr fun text member =>
    doubleDash_within_comment (noPair text member)

namespace Specification

variable {specification : Specification} {configuration : Configuration}

private theorem not_hasLineComment_libraryText
    (named : configuration.GivesOnly (ConsistsOf isDashless)) :
    ¬ HasLineComment (libraryText configuration) := by
  obtain ⟨pairs, ofHeading⟩ := doubleDash_tolerates.within_libraryText named
  rw [← doubleDash_within_eq_nil_iff, pairs]
  apply flatMap_doubleDash_comments
  intro text member
  rw [configuration.eq_of_mem_heading member]
  exact ofHeading

private theorem not_hasLineComment_groupFile {id : GroupId} {file : GeneratedFile}
    (gives : specification.GivesOnly (ConsistsOf isDashless))
    (named : configuration.GivesOnly (ConsistsOf isDashless))
    (done : (specification.groupFile configuration id).result = .ok file) :
    ¬ HasLineComment file.contents := by
  obtain ⟨name, content, assertions, kept, _, _, _, keptDone, pairs, ofTexts⟩ :=
    within_groupFile doubleDash_tolerates gives named.libraryFile done
  obtain ⟨ofHeading, ofComments⟩ := List.forall_mem_cons.mp ofTexts
  have headings : (configuration.heading (specification.groupHeading name)).flatMap
      (fun text => doubleDash.within (comment text)) = [] := by
    apply flatMap_doubleDash_comments
    intro text member
    rw [configuration.eq_of_mem_heading member]
    exact ofHeading
  have types : kept.flatMap (fun found => doubleDash.within found.type.text) = [] := by
    refine List.flatMap_eq_nil_iff.mpr fun found isKept => ?_
    apply doubleDash_within_type
    intro typeName isNamed
    exact given_of_keptIn gives keptDone found isKept typeName
      (Variable.type_mem_givenTexts isNamed)
  rw [← doubleDash_within_eq_nil_iff, pairs, headings, types,
    flatMap_doubleDash_comments ofComments]
  rfl

/-- If no given text has a dash, then no line comment begins in a generated file. -/
theorem files_have_no_line_comments {files : List GeneratedFile}
    (gives : specification.GivesOnly (ConsistsOf isDashless))
    (named : configuration.GivesOnly (ConsistsOf isDashless))
    (done : (specification.generate configuration).result = .ok files) :
    ∀ file ∈ files, ¬ HasLineComment file.contents := by
  obtain ⟨groupFiles, rfl, groupFilesDone⟩ := files_of_generate done
  refine List.forall_mem_cons.mpr ⟨not_hasLineComment_libraryText named, ?_⟩
  intro file member
  obtain ⟨id, _, fileDone⟩ := exists_left_of_mem groupFilesDone member
  exact not_hasLineComment_groupFile gives named fileDone

end Specification

/-- A debtor pays only what is not covered.  Minus signs stand in front of each other,
of parentheses and of names, and behind another minus sign. -/
def settlement : Diagram where
  name := "Settlement"
  body := [⟨3⟩, ⟨4⟩]
  lifelines := [⟨0⟩, ⟨1⟩]
  locals := [⟨0⟩]
  fragments := #[.message ⟨⟨0⟩, ⟨1⟩, .event "Bank::pay", [.value ⟨2⟩, .value ⟨7⟩]⟩,
    .operand (some ⟨6⟩) [⟨0⟩], .branch .opt [⟨1⟩], .deadline ⟨0⟩ ⟨8⟩ ⟨2⟩, .create ⟨0⟩ ⟨1⟩]
  expressions := #[.var ⟨0⟩, .unary .neg ⟨0⟩, .unary .neg ⟨1⟩, .const ⟨0⟩, .unary .neg ⟨3⟩,
    .binary .sub ⟨8⟩ ⟨4⟩, .binary .lt ⟨2⟩ ⟨5⟩, .unary .neg ⟨5⟩, .natural 1]
  locations := []

/-- A specification with this interaction, whose memory keeps an integer. -/
def settlements : Specification where
  name := "Settlements"
  actors := #[⟨"Debtor", .component⟩, ⟨"Creditor", .component⟩]
  actorsByName := [("Creditor", ⟨1⟩), ("Debtor", ⟨0⟩)]
  vars := #[⟨"debt", .int, some ⟨0⟩⟩]
  constants := #[⟨"cover", "Bank::cover"⟩]
  groups := #[⟨some "Claims", none, [⟨0⟩], [], []⟩]
  interactions := #[⟨settlement, ⟨0⟩⟩]
  scripts := #[]

private theorem givesOnly_settlements : settlements.GivesOnly (ConsistsOf isDashless) := by
  decide

/-- The dashes of nested minus signs, arrows, comments and integers never meet. -/
theorem settlements_have_no_line_comments :
    settlements.GivesOnly (ConsistsOf isDashless) ∧
      Configuration.standard.GivesOnly (ConsistsOf isDashless) ∧
      (settlements.termOf settlement ⟨6⟩).map Term.text =
        .ok "-(-debt) < (1 - -Bank::cover)" ∧
      ∃ files, (settlements.generate .standard).result = .ok files ∧
        ∀ file ∈ files, ¬ HasLineComment file.contents := by
  have named : Configuration.standard.GivesOnly (ConsistsOf isDashless) :=
    ⟨by decide, by decide⟩
  refine ⟨givesOnly_settlements, named, by rfl, ?_⟩
  have succeeds : (settlements.generate .standard).result.toOption.isSome = true := by
    decide +kernel
  cases done : (settlements.generate .standard).result with
  | error fault =>
      rw [done] at succeeds
      cases succeeds
  | ok files =>
      exact ⟨files, rfl,
        Specification.files_have_no_line_comments givesOnly_settlements named done⟩

end SequenceChart
