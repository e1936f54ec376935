import SequenceChart.Proofs.MessageFields

/-!
A process that is printed without parentheses around it reaches up to the next process
in sequence that stands in no further parenthesis.  `segments` cuts a text there, so its
segments are the processes that the text puts in sequence.

Nothing is cut in a flat text, and texts with `; ` between them are cut where they were put
together.  So a text that is made of flat texts in this way has exactly these as segments,
and all its parentheses are balanced.
-/

namespace SequenceChart

/-- Every parenthesis of the text is closed, and none is closed before it is opened. -/
structure IsBalanced (text : String) : Prop where
  opened : ∀ size, (text.toList.take size).count ')' ≤ (text.toList.take size).count '('
  closed : text.toList.count '(' = text.toList.count ')'

theorem IsBalanced.append {first second : String} (ofFirst : IsBalanced first)
    (ofSecond : IsBalanced second) : IsBalanced (first ++ second) where
  opened size := by
    rw [String.toList_append, List.take_append, List.count_append, List.count_append]
    exact Nat.add_le_add (ofFirst.opened size) (ofSecond.opened _)
  closed := by
    rw [String.toList_append, List.count_append, List.count_append, ofFirst.closed,
      ofSecond.closed]

namespace Nesting

/-- A step opens a parenthesis, closes one, or stays where it is. -/
theorem depth_cases {nesting next : Nesting} {character : Char}
    (steps : nesting.step character = some next) :
    (character = '(' ∧ next.depth = nesting.depth + 1) ∨
      (character = ')' ∧ next.depth + 1 = nesting.depth) ∨
      (character ≠ '(' ∧ character ≠ ')' ∧ next.depth = nesting.depth) := by
  have inside := depthAfter_of_step steps
  unfold depthAfter at inside
  by_cases opens : character = '('
  · rw [if_pos opens] at inside
    exact Or.inl ⟨opens, by omega⟩
  · rw [if_neg opens] at inside
    by_cases closes : character = ')'
    · rw [if_pos closes] at inside
      exact Or.inr (Or.inl ⟨closes, by omega⟩)
    · rw [if_neg closes] at inside
      exact Or.inr (Or.inr ⟨opens, closes, by omega⟩)

private theorem depth_of_step {nesting next : Nesting} {character : Char}
    (steps : nesting.step character = some next) :
    depthAfter nesting.depth character = next.depth := by
  rcases depth_cases steps with ⟨rfl, deeper⟩ | ⟨rfl, higher⟩ | ⟨noOpening, noClosing, same⟩
  · exact deeper.symm
  · simp [depthAfter, ← higher]
  · simp [depthAfter, noOpening, noClosing, same]

/-- The depth goes up with every opening parenthesis and down with every closing one. -/
theorem depth_add_count {characters : List Char} {nesting reached : Nesting}
    (reaches : characters.foldlM step nesting = some reached) :
    nesting.depth + characters.count '(' = reached.depth + characters.count ')' := by
  induction characters generalizing nesting with
  | nil =>
      cases reaches
      rfl
  | cons character rest inductionHypothesis =>
      rw [List.foldlM_cons] at reaches
      obtain ⟨next, steps, goesOn⟩ := Option.bind_eq_some_iff.mp reaches
      have ofRest := inductionHypothesis goesOn
      rcases depth_cases steps with ⟨rfl, deeper⟩ | ⟨rfl, higher⟩ | ⟨noOpening, noClosing, same⟩
      · rw [List.count_cons_self, List.count_cons_of_ne (by decide)]
        omega
      · rw [List.count_cons_self, List.count_cons_of_ne (by decide)]
        omega
      · rw [List.count_cons_of_ne noOpening, List.count_cons_of_ne noClosing]
        omega

end Nesting

theorem IsFlat.isBalanced {text : String} (flat : IsFlat text) : IsBalanced text where
  opened size := by
    have reaches := flat 0
    rw [Nesting.after, ← List.take_append_drop size text.toList, List.foldlM_append] at reaches
    obtain ⟨within, toHere, _⟩ := Option.bind_eq_some_iff.mp reaches
    have counted := Nesting.depth_add_count toHere
    rw [Nat.zero_add] at counted
    omega
  closed := by
    have counted := Nesting.depth_add_count (flat 0)
    omega

/-- Cut a text where it puts processes in sequence outside of all parentheses. -/
def cutAtSequences : Nat → List Char → List (List Char)
  | _, [] => [[]]
  | 0, ';' :: ' ' :: rest => [] :: cutAtSequences 0 rest
  | depth, character :: rest =>
      (cutAtSequences (depthAfter depth character) rest).modifyHead (character :: ·)

def segments (text : String) : List String :=
  (cutAtSequences 0 text.toList).map String.ofList

/-- Only a semicolon with a blank behind it cuts, and only outside of parentheses. -/
theorem cutAtSequences_cons {depth : Nat} {character : Char} {rest : List Char}
    (together : depth = 0 → character = ';' → rest.head? ≠ some ' ') :
    cutAtSequences depth (character :: rest) =
      (cutAtSequences (depthAfter depth character) rest).modifyHead (character :: ·) := by
  rw [cutAtSequences]
  rintro others rfl rfl rfl
  exact together rfl rfl rfl

/-- A blank cannot follow a semicolon behind an arrow, unless in parentheses. -/
theorem Nesting.head?_ne_blank {characters rest : List Char} {reached : Nesting}
    (reaches : characters.foldlM step ⟨0, true⟩ = some reached)
    (settled : reached.semicolon = false) : (characters ++ rest).head? ≠ some ' ' := by
  cases characters with
  | nil =>
      cases reaches
      cases settled
  | cons character others =>
      rw [List.cons_append, List.head?_cons]
      rintro ⟨⟩
      cases reaches

@[simp]
theorem Nesting.step_semicolon (depth : Nat) (semicolon : Bool) :
    step ⟨depth, semicolon⟩ ';' = some ⟨depth, true⟩ := by
  cases depth <;> cases semicolon <;> rfl

/-- Nothing is cut while a reader stays in the scope of an arrow in front. -/
theorem cutAtSequences_of_after {characters : List Char} {nesting reached : Nesting}
    (reaches : characters.foldlM Nesting.step nesting = some reached)
    (settled : reached.semicolon = false) (rest : List Char) :
    cutAtSequences nesting.depth (characters ++ rest) =
      (cutAtSequences reached.depth rest).modifyHead (characters ++ ·) := by
  induction characters generalizing nesting with
  | nil =>
      cases reaches
      exact (congrFun List.modifyHead_id _).symm
  | cons character others inductionHypothesis =>
      rw [List.foldlM_cons] at reaches
      obtain ⟨next, steps, goesOn⟩ := Option.bind_eq_some_iff.mp reaches
      have together : nesting.depth = 0 → character = ';' →
          (others ++ rest).head? ≠ some ' ' := by
        rintro outside rfl
        obtain ⟨depth, semicolon⟩ := nesting
        cases outside
        cases (Nesting.step_semicolon 0 semicolon).symm.trans steps
        exact Nesting.head?_ne_blank goesOn settled
      rw [List.cons_append, cutAtSequences_cons together, Nesting.depth_of_step steps,
        inductionHypothesis goesOn, List.modifyHead_modifyHead]
      rfl

/-- The text is made of flat parts with processes in sequence between them. -/
structure IsCutInto (parts : List String) (text : String) : Prop where
  nonempty : parts ≠ []
  flat : ∀ part ∈ parts, IsFlat part
  joined : text = joinWith "; " parts

theorem IsFlat.isCutInto {text : String} (flat : IsFlat text) : IsCutInto [text] text :=
  ⟨List.cons_ne_nil text [], List.forall_mem_singleton.mpr flat, rfl⟩

theorem joinWith_append (separator : String) {first second : List String}
    (nonempty : first ≠ []) (alsoNonempty : second ≠ []) :
    joinWith separator (first ++ second) =
      joinWith separator first ++ separator ++ joinWith separator second := by
  obtain ⟨next, later, rfl⟩ := List.exists_cons_of_ne_nil alsoNonempty
  induction first with
  | nil =>
      exact absurd rfl nonempty
  | cons part rest inductionHypothesis =>
      cases rest with
      | nil =>
          exact joinWith_cons_cons separator part next later
      | cons other others =>
          rw [List.cons_append, List.cons_append, joinWith_cons_cons, joinWith_cons_cons,
            ← List.cons_append, inductionHypothesis (List.cons_ne_nil other others)]
          simp only [String.append_assoc]

/-- Flat parts with processes in sequence between them are cut into these parts. -/
theorem cutAtSequences_joinWith {parts : List String} (nonempty : parts ≠ [])
    (flat : ∀ part ∈ parts, IsFlat part) :
    cutAtSequences 0 (joinWith "; " parts).toList = parts.map String.toList := by
  induction parts with
  | nil =>
      exact absurd rfl nonempty
  | cons part rest inductionHypothesis =>
      rw [List.forall_mem_cons] at flat
      cases rest with
      | nil =>
          have alone := cutAtSequences_of_after (flat.1 0) rfl []
          simpa [joinWith, appendAll, cutAtSequences] using alone
      | cons next others =>
          have ofRest := inductionHypothesis (List.cons_ne_nil next others) flat.2
          have upToHere := cutAtSequences_of_after (flat.1 0) rfl
            (';' :: ' ' :: (joinWith "; " (next :: others)).toList)
          rw [cutAtSequences, ofRest] at upToHere
          simpa using upToHere

namespace IsCutInto

variable {parts more : List String} {text other : String}

theorem segments_eq (cut : IsCutInto parts text) : segments text = parts := by
  rw [segments, cut.joined, cutAtSequences_joinWith cut.nonempty cut.flat, List.map_map]
  exact List.map_id'' (fun _ => String.ofList_toList) parts

/-- What is true of flat texts and of the separator, and of two texts together if it is
true of both, is true of the whole. -/
theorem preserves {holds : String → Prop} (ofFlat : ∀ part, IsFlat part → holds part)
    (ofSeparator : holds "; ")
    (append : ∀ {first second : String}, holds first → holds second → holds (first ++ second))
    (cut : IsCutInto parts text) : holds text := by
  rw [cut.joined]
  exact holds_joinWith (ofFlat "" isFlat_empty) append ofSeparator fun part member =>
    ofFlat part (cut.flat part member)

theorem isNested (cut : IsCutInto parts text) : IsNested text :=
  cut.preserves (fun _ => IsFlat.isNested) isNested_sequence IsNested.append

theorem isBalanced (cut : IsCutInto parts text) : IsBalanced text := by
  have separator : IsBalanced "; " := by
    constructor
    · intro size
      match size with
      | 0 | 1 | size + 2 =>
          simp
    · decide
  exact cut.preserves (fun _ => IsFlat.isBalanced) separator IsBalanced.append

theorem andThen (ofFirst : IsCutInto parts text) (ofSecond : IsCutInto more other) :
    IsCutInto (parts ++ more) (text ++ "; " ++ other) where
  nonempty := List.append_ne_nil_of_left_ne_nil ofFirst.nonempty more
  flat := List.forall_mem_append.mpr ⟨ofFirst.flat, ofSecond.flat⟩
  joined := by
    rw [joinWith_append "; " ofFirst.nonempty ofSecond.nonempty, ← ofFirst.joined,
      ← ofSecond.joined]

/-- What is flat and stands in front belongs to the first part. -/
theorem behind {front : String} (flat : IsFlat front) (cut : IsCutInto parts text) :
    IsCutInto (parts.modifyHead (front ++ ·)) (front ++ text) := by
  obtain ⟨nonempty, each, rfl⟩ := cut
  obtain ⟨part, rest, rfl⟩ := List.exists_cons_of_ne_nil nonempty
  rw [List.forall_mem_cons] at each
  refine ⟨List.cons_ne_nil _ rest, ?_, ?_⟩
  · exact List.forall_mem_cons.mpr ⟨flat.append each.1, each.2⟩
  · cases rest with
    | nil =>
        rfl
    | cons next others =>
        rw [List.modifyHead_cons, joinWith_cons_cons, joinWith_cons_cons]
        simp only [String.append_assoc]

end IsCutInto

end SequenceChart
