import SequenceChart.Proofs.FilePairs

/-!
# Comments in generated files

A brace and a dash open a comment wherever they stand side by side, and a dash and a
brace close it.  If no given text has a brace, the marks in a file are those of the
comments that were written into it, with one exception: the set of integers begins with
a brace and a dash, so each integer variable that the group keeps opens a comment that
nothing closes.

Main statement: in a generated file the marks alternate, from an opening one to a closing
one, if and only if the group keeps no integer variable.
-/

namespace SequenceChart

/-- The two ends of a comment. -/
inductive Mark where
  | opening
  | closing
  deriving DecidableEq, Repr

def commentMarks : PairRule Mark where
  select first second :=
    if first = '\x7b' ∧ second = '-' then
      some .opening
    else if first = '-' ∧ second = '\x7d' then
      some .closing
    else
      none
  select_left := by
    intro first second free
    simp only [isReserved, Bool.or_eq_false_iff, decide_eq_false_iff_not] at free
    rw [if_neg fun both => free.1.2 both.1, if_neg fun both => free.1.1 both.1]
  select_right := by
    intro first second free
    simp only [isReserved, Bool.or_eq_false_iff, decide_eq_false_iff_not] at free
    rw [if_neg fun both => free.1.1 both.2, if_neg fun both => free.2 both.2]

def marksIn (text : String) : List Mark :=
  commentMarks.within text

def marksOf (comments : List String) : List Mark :=
  comments.flatMap fun text => marksIn (comment text)

def isBraceless (character : Char) : Bool :=
  character ≠ '\x7b' && character ≠ '\x7d'

private theorem commentMarks_tolerates : commentMarks.Tolerates isBraceless where
  unreserved := by
    intro character free
    simp only [isReserved, Bool.or_eq_false_iff, decide_eq_false_iff_not] at free
    simp [isBraceless, free]
  allowed := by
    intro first second firstFree secondFree
    simp only [isBraceless, ne_eq, Bool.and_eq_true, decide_eq_true_eq] at firstFree secondFree
    simp [commentMarks, firstFree, secondFree]
  dashed := by
    intro second free
    simp only [isBraceless, ne_eq, Bool.and_eq_true, decide_eq_true_eq] at free
    simp [commentMarks, free]
  emptySet := by
    decide

/-- A comment has one mark at each end, if there are none in its text. -/
theorem marksIn_comment {text : String} (unmarked : commentMarks.within text = []) :
    marksIn (comment text) = [.opening, .closing] := by
  have opened : commentMarks.within "\x7b- " = [.opening] := by decide
  have closed : commentMarks.within " -\x7d" = [.closing] := by decide
  rw [marksIn, comment, commentMarks.within_append_of_head _ (by decide),
    commentMarks.within_append_of_last _ (by decide), opened, unmarked, closed]
  rfl

/-- The type of integers opens a comment, and no other type has a mark. -/
theorem marksIn_type {type : ValueType}
    (ofName : ∀ name, type = .named name → ConsistsOf isBraceless name) :
    marksIn type.text = if type = .int then [.opening] else [] := by
  cases type with
  | nat | bool =>
      exact commentMarks.within_border (by decide)
  | int =>
      decide
  | named name =>
      exact commentMarks_tolerates.within_eq_nil (ofName name rfl)

/-- The marks alternate, the first opens a comment, and the last closes one. -/
structure WellMatched (marks : List Mark) : Prop where
  alternate : marks.IsChain (· ≠ ·)
  first : ∀ mark ∈ marks.head?, mark = .opening
  last : ∀ mark ∈ marks.getLast?, mark = .closing

instance (marks : List Mark) : Decidable (WellMatched marks) :=
  decidable_of_iff
    (marks.IsChain (· ≠ ·) ∧ (∀ mark ∈ marks.head?, mark = .opening) ∧
      ∀ mark ∈ marks.getLast?, mark = .closing)
    ⟨fun ⟨alternate, first, last⟩ => ⟨alternate, first, last⟩,
      fun matched => ⟨matched.alternate, matched.first, matched.last⟩⟩

namespace WellMatched

theorem nil : WellMatched [] :=
  ⟨.nil, by simp, by simp⟩

/-- A comment in front of further marks changes nothing. -/
@[simp]
theorem comment_iff {marks : List Mark} :
    WellMatched (.opening :: .closing :: marks) ↔ WellMatched marks := by
  constructor
  · intro matched
    have chain := (List.isChain_cons_cons.mp matched.alternate).2
    cases marks with
    | nil =>
        exact nil
    | cons mark rest =>
        obtain ⟨differs, inner⟩ := List.isChain_cons_cons.mp chain
        refine ⟨inner, ?_, ?_⟩
        · intro head isHead
          cases isHead
          cases mark with
          | opening =>
              rfl
          | closing =>
              exact absurd rfl differs
        · intro last isLast
          apply matched.last
          rwa [List.getLast?_cons_cons, List.getLast?_cons_cons]
  · intro matched
    refine ⟨?_, ?_, ?_⟩
    · refine List.isChain_cons_cons.mpr ⟨by decide, ?_⟩
      cases marks with
      | nil =>
          exact .singleton _
      | cons mark rest =>
          refine List.isChain_cons_cons.mpr ⟨?_, matched.alternate⟩
          rw [matched.first mark rfl]
          decide
    · intro head isHead
      cases isHead
      rfl
    · intro last isLast
      cases marks with
      | nil =>
          cases isLast
          rfl
      | cons mark rest =>
          apply matched.last
          rwa [List.getLast?_cons_cons, List.getLast?_cons_cons] at isLast

/-- Any number of comments in front of further marks change nothing. -/
theorem comments_iff {comments : List String}
    (paired : ∀ text ∈ comments, marksIn (comment text) = [.opening, .closing])
    {marks : List Mark} : WellMatched (marksOf comments ++ marks) ↔ WellMatched marks := by
  induction comments with
  | nil =>
      rfl
  | cons first rest inductionHypothesis =>
      obtain ⟨ofFirst, ofRest⟩ := List.forall_mem_cons.mp paired
      have split : marksOf (first :: rest) = marksIn (comment first) ++ marksOf rest :=
        List.flatMap_cons
      rw [split, ofFirst, List.append_assoc]
      exact comment_iff.trans (inductionHypothesis ofRest)

/-- An opening mark that no closing one follows is never matched. -/
theorem not_opening {marks : List Mark} (unclosed : ∀ mark ∈ marks.head?, mark = .opening) :
    ¬ WellMatched (.opening :: marks) := by
  intro matched
  cases marks with
  | nil =>
      cases matched.last .opening rfl
  | cons mark rest =>
      have differs := (List.isChain_cons_cons.mp matched.alternate).1
      exact differs (unclosed mark rfl).symm

/-- Opening marks in front of comments are matched only if there are none. -/
theorem openings_iff {count : Nat} {comments : List String}
    (paired : ∀ text ∈ comments, marksIn (comment text) = [.opening, .closing]) :
    WellMatched (List.replicate count .opening ++ marksOf comments) ↔ count = 0 := by
  constructor
  · intro matched
    by_contra positive
    obtain ⟨less, rfl⟩ := Nat.exists_eq_succ_of_ne_zero positive
    rw [List.replicate_succ, List.cons_append] at matched
    refine not_opening ?_ matched
    -- What follows is a further opening mark, the first mark of a comment, or nothing.
    intro mark isHead
    cases less with
    | succ less =>
        cases isHead
        rfl
    | zero =>
        cases comments with
        | nil =>
            cases isHead
        | cons first rest =>
            have ofFirst := paired first List.mem_cons_self
            rw [List.replicate_zero, List.nil_append, marksOf, List.flatMap_cons, ofFirst] at isHead
            cases isHead
            rfl
  · rintro rfl
    have alone := (comments_iff paired).mpr nil
    rwa [List.append_nil] at alone

end WellMatched

def integerCount (kept : List Variable) : Nat :=
  kept.countP fun found => found.type = .int

private theorem flatMap_marksIn_types {kept : List Variable}
    (given : ∀ found ∈ kept, ∀ text ∈ found.givenTexts, ConsistsOf isBraceless text) :
    kept.flatMap (fun found => marksIn found.type.text) =
      List.replicate (integerCount kept) .opening := by
  induction kept with
  | nil =>
      rfl
  | cons found rest inductionHypothesis =>
      obtain ⟨ofFound, ofRest⟩ := List.forall_mem_cons.mp given
      have ofType := marksIn_type fun name named =>
        ofFound name (Variable.type_mem_givenTexts named)
      rw [List.flatMap_cons, inductionHypothesis ofRest, ofType, integerCount, integerCount]
      by_cases isInteger : found.type = .int
      · rw [if_pos isInteger, List.countP_cons_of_pos (by simpa using isInteger),
          List.replicate_succ]
        rfl
      · rw [if_neg isInteger, List.countP_cons_of_neg (by simpa using isInteger)]
        rfl

namespace Specification

variable {specification : Specification} {configuration : Configuration}

theorem given_of_keptIn {good : String → Prop} (gives : specification.GivesOnly good)
    {id : GroupId} {kept : List Variable} (done : specification.keptIn id = .ok kept) :
    ∀ found ∈ kept, ∀ text ∈ found.givenTexts, good text := by
  obtain ⟨group, _, rest⟩ := bind_eq_ok_iff.mp done
  obtain ⟨parts, partsDone, last⟩ := bind_eq_ok_iff.mp rest
  cases last
  intro found member
  obtain ⟨part, isPart, inPart⟩ := List.mem_flatten.mp member
  obtain ⟨interactionId, _, partDone⟩ := exists_left_of_mem (mapM_eq_ok_iff.mp partsDone) isPart
  obtain ⟨interaction, _, localsDone⟩ := bind_eq_ok_iff.mp partDone
  obtain ⟨variableId, _, foundDone⟩ :=
    exists_left_of_mem (mapM_eq_ok_iff.mp localsDone) inPart
  exact gives.vars found (mem_of_entryAt foundDone)

/-- The marks in the library are those of its heading. -/
theorem marksIn_libraryText (named : configuration.GivesOnly (ConsistsOf isBraceless)) :
    marksIn (libraryText configuration) =
        marksOf (configuration.heading configuration.libraryHeading) ∧
      WellMatched (marksIn (libraryText configuration)) := by
  obtain ⟨marks, unmarked⟩ := commentMarks_tolerates.within_libraryText named
  have paired : ∀ text ∈ configuration.heading configuration.libraryHeading,
      marksIn (comment text) = [.opening, .closing] := by
    intro text member
    rw [configuration.eq_of_mem_heading member]
    exact marksIn_comment unmarked
  have matched := (WellMatched.comments_iff paired).mpr WellMatched.nil
  rw [List.append_nil] at matched
  refine ⟨marks, ?_⟩
  rwa [marksIn, marks]

theorem integerCount_eq_zero_iff {kept : List Variable} :
    integerCount kept = 0 ↔ ∀ found ∈ kept, found.type ≠ .int := by
  simp [integerCount, List.countP_eq_zero]

/-- The marks in the file of a group, and when they are in order. -/
theorem marksIn_groupFile {id : GroupId} {file : GeneratedFile}
    (gives : specification.GivesOnly (ConsistsOf isBraceless))
    (named : configuration.GivesOnly (ConsistsOf isBraceless))
    (done : (specification.groupFile configuration id).result = .ok file) :
    ∃ name content assertions kept, specification.groupName id = .ok name ∧
      (specification.groupModule id).result = .ok content ∧
      (specification.assertionsOf id).result = .ok assertions ∧
      specification.keptIn id = .ok kept ∧
      marksIn file.contents =
        marksOf (configuration.heading (specification.groupHeading name)) ++
          (List.replicate (integerCount kept) .opening ++
            marksOf (commentsIn content assertions)) ∧
      (∀ text ∈ configuration.heading (specification.groupHeading name) ++
          commentsIn content assertions, marksIn (comment text) = [.opening, .closing]) ∧
      (WellMatched (marksIn file.contents) ↔ ∀ found ∈ kept, found.type ≠ .int) := by
  obtain ⟨name, content, assertions, kept, nameDone, contentDone, assertionsDone, keptDone,
    marks, unmarked⟩ := within_groupFile commentMarks_tolerates gives named.libraryFile done
  have fileMarks : marksIn file.contents =
      marksOf (configuration.heading (specification.groupHeading name)) ++
        (List.replicate (integerCount kept) .opening ++
          marksOf (commentsIn content assertions)) := by
    have ofTypes := flatMap_marksIn_types (given_of_keptIn gives keptDone)
    rw [marksIn, marks, ← ofTypes, List.append_assoc]
    rfl
  obtain ⟨ofHeading, ofComments⟩ := List.forall_mem_cons.mp unmarked
  have headingPaired : ∀ text ∈ configuration.heading (specification.groupHeading name),
      marksIn (comment text) = [.opening, .closing] := by
    intro text isHeading
    rw [configuration.eq_of_mem_heading isHeading]
    exact marksIn_comment ofHeading
  have commentsPaired : ∀ text ∈ commentsIn content assertions,
      marksIn (comment text) = [.opening, .closing] :=
    fun text isComment => marksIn_comment (ofComments text isComment)
  refine ⟨name, content, assertions, kept, nameDone, contentDone, assertionsDone, keptDone,
    fileMarks, List.forall_mem_append.mpr ⟨headingPaired, commentsPaired⟩, ?_⟩
  rw [fileMarks, WellMatched.comments_iff headingPaired, WellMatched.openings_iff commentsPaired]
  exact integerCount_eq_zero_iff

/-- The library comes first, and a file for each group follows. -/
theorem files_of_generate {files : List GeneratedFile}
    (done : (specification.generate configuration).result = .ok files) :
    ∃ groupFiles, files = ⟨configuration.libraryFile, libraryText configuration⟩ :: groupFiles ∧
      List.Forall₂ (fun id file => (specification.groupFile configuration id).result = .ok file)
        specification.groupIds groupFiles := by
  obtain ⟨groupFiles, groupFilesDone, rest⟩ := Attempt.result_bind_eq_ok_iff.mp done
  obtain ⟨_, _, last⟩ := Attempt.result_bind_eq_ok_iff.mp rest
  cases last
  rw [Attempt.result_mapM, mapM_eq_ok_iff] at groupFilesDone
  exact ⟨groupFiles, rfl, groupFilesDone⟩

/-- If no given text has a brace, then the comments of generated files are in order
wherever no integers are kept.  The library has the marks of its heading.  The file of a
group has the marks of its heading, an opening mark for each integer variable that the
group keeps, and the marks of the comments in its module and its assertions; every one of
these comments opens once and closes once.  The marks are well matched if and only if the
group keeps no integer variable. -/
theorem comments_match_without_integers {files : List GeneratedFile}
    (gives : specification.GivesOnly (ConsistsOf isBraceless))
    (named : configuration.GivesOnly (ConsistsOf isBraceless))
    (done : (specification.generate configuration).result = .ok files) :
    ∃ groupFiles, files = ⟨configuration.libraryFile, libraryText configuration⟩ :: groupFiles ∧
      marksIn (libraryText configuration) =
        marksOf (configuration.heading configuration.libraryHeading) ∧
      WellMatched (marksIn (libraryText configuration)) ∧
      List.Forall₂ (fun id file => ∃ name content assertions kept,
          specification.groupName id = .ok name ∧
          (specification.groupModule id).result = .ok content ∧
          (specification.assertionsOf id).result = .ok assertions ∧
          specification.keptIn id = .ok kept ∧
          marksIn file.contents =
            marksOf (configuration.heading (specification.groupHeading name)) ++
              (List.replicate (integerCount kept) .opening ++
                marksOf (commentsIn content assertions)) ∧
          (∀ text ∈ configuration.heading (specification.groupHeading name) ++
              commentsIn content assertions, marksIn (comment text) = [.opening, .closing]) ∧
          (WellMatched (marksIn file.contents) ↔ ∀ found ∈ kept, found.type ≠ .int))
        specification.groupIds groupFiles := by
  obtain ⟨groupFiles, split, groupFilesDone⟩ := files_of_generate done
  obtain ⟨libraryMarks, libraryMatched⟩ := marksIn_libraryText named
  refine ⟨groupFiles, split, libraryMarks, libraryMatched, groupFilesDone.imp ?_⟩
  intro id file fileDone
  exact marksIn_groupFile gives named fileDone

end Specification

/-- A clerk creates a ledger and makes an entry in time. -/
def entry : Diagram where
  name := "Entry"
  body := [⟨0⟩, ⟨2⟩]
  lifelines := [⟨0⟩, ⟨1⟩]
  locals := [⟨0⟩]
  fragments := #[.create ⟨0⟩ ⟨1⟩, .message ⟨⟨0⟩, ⟨1⟩, .event "enter", [.bind ⟨0⟩]⟩,
    .deadline ⟨0⟩ ⟨0⟩ ⟨1⟩]
  expressions := #[.natural 3]
  locations := []

/-- One group keeps an integer, and the other one a truth value. -/
def bookkeeping : Specification where
  name := "Books"
  actors := #[⟨"Clerk", .component⟩, ⟨"Ledger", .component⟩]
  actorsByName := [("Ledger", ⟨1⟩), ("Clerk", ⟨0⟩)]
  vars := #[⟨"sum", .int, some ⟨0⟩⟩, ⟨"settled", .bool, some ⟨1⟩⟩]
  constants := #[]
  groups := #[⟨some "Sums", none, [⟨0⟩], [], []⟩, ⟨some "Flags", none, [⟨1⟩], [], []⟩]
  interactions := #[⟨entry, ⟨0⟩⟩, ⟨{ entry with locals := [⟨1⟩] }, ⟨1⟩⟩]
  scripts := #[]

private theorem givesOnly_bookkeeping : bookkeeping.GivesOnly (ConsistsOf isBraceless) := by
  decide

private theorem givesOnly_standard : Configuration.standard.GivesOnly (ConsistsOf isBraceless) := by
  decide

/-- The file of the group with the integer is not in order, the other ones are. -/
theorem comments_match_bookkeeping :
    bookkeeping.GivesOnly (ConsistsOf isBraceless) ∧
      Configuration.standard.GivesOnly (ConsistsOf isBraceless) ∧
      ∃ library sums flags,
        (bookkeeping.generate .standard).result = .ok [library, sums, flags] ∧
        WellMatched (marksIn library.contents) ∧ ¬ WellMatched (marksIn sums.contents) ∧
        WellMatched (marksIn flags.contents) := by
  refine ⟨givesOnly_bookkeeping, givesOnly_standard, ?_⟩
  have succeeds : (bookkeeping.generate .standard).result.toOption.isSome = true := by
    decide +kernel
  cases done : (bookkeeping.generate .standard).result with
  | error fault =>
      rw [done] at succeeds
      cases succeeds
  | ok files =>
      obtain ⟨groupFiles, split, _, libraryMatched, ofGroups⟩ :=
        Specification.comments_match_without_integers givesOnly_bookkeeping givesOnly_standard done
      have groups : bookkeeping.groupIds = [⟨0⟩, ⟨1⟩] := rfl
      rw [groups] at ofGroups
      obtain _ | ⟨ofSums, _ | ⟨ofFlags, _ | _⟩⟩ := ofGroups
      obtain ⟨_, _, _, sums, _, _, _, sumsKept, _, _, sumsMatched⟩ := ofSums
      obtain ⟨_, _, _, flags, _, _, _, flagsKept, _, _, flagsMatched⟩ := ofFlags
      have keptSums : bookkeeping.keptIn ⟨0⟩ = .ok [⟨"sum", .int, some ⟨0⟩⟩] := rfl
      have keptFlags : bookkeeping.keptIn ⟨1⟩ = .ok [⟨"settled", .bool, some ⟨1⟩⟩] := rfl
      rw [keptSums] at sumsKept
      rw [keptFlags] at flagsKept
      cases sumsKept
      cases flagsKept
      refine ⟨_, _, _, congrArg Except.ok split, libraryMatched, ?_, ?_⟩
      · rw [sumsMatched]
        decide
      · rw [flagsMatched]
        decide

/-- An interaction in which nothing happens keeps an integer. -/
def accounts : Specification where
  name := "Accounts"
  actors := #[]
  actorsByName := []
  vars := #[⟨"balance", .int, some ⟨0⟩⟩]
  constants := #[]
  groups := #[⟨some "Books", none, [⟨0⟩], [], []⟩]
  interactions := #[⟨⟨"Entry", [], [], [⟨0⟩], #[], #[], []⟩, ⟨0⟩⟩]
  scripts := #[]

private theorem givesOnly_accounts : accounts.GivesOnly (isFree · = true) := by
  decide

/-- A comment can stay open although no given text has a dash or a brace. -/
theorem not_wellMatched_accounts :
    accounts.GivesOnly (isFree · = true) ∧ Configuration.standard.GivesOnly (isFree · = true) ∧
      ∃ files, (accounts.generate .standard).result = .ok files ∧
        ∃ file ∈ files, ¬ WellMatched (marksIn file.contents) := by
  refine ⟨givesOnly_accounts, ⟨by decide, by decide⟩, ?_⟩
  have braceless : accounts.GivesOnly (ConsistsOf isBraceless) :=
    givesOnly_accounts.imp fun _ free => commentMarks_tolerates.consistsOf_of_free free
  have succeeds : (accounts.generate .standard).result.toOption.isSome = true := by
    decide +kernel
  cases done : (accounts.generate .standard).result with
  | error fault =>
      rw [done] at succeeds
      cases succeeds
  | ok files =>
      obtain ⟨groupFiles, rfl, groupFilesDone⟩ := Specification.files_of_generate done
      have groups : accounts.groupIds = [⟨0⟩] := rfl
      rw [groups] at groupFilesDone
      obtain _ | ⟨booksDone, _ | _⟩ := groupFilesDone
      obtain ⟨_, _, _, kept, _, _, _, keptDone, _, _, matched⟩ :=
        Specification.marksIn_groupFile braceless givesOnly_standard booksDone
      have keptBalance : accounts.keptIn ⟨0⟩ = .ok [⟨"balance", .int, some ⟨0⟩⟩] := rfl
      rw [keptBalance] at keptDone
      cases keptDone
      refine ⟨_, rfl, _, List.mem_cons_of_mem _ List.mem_cons_self, ?_⟩
      rw [matched]
      decide

end SequenceChart
