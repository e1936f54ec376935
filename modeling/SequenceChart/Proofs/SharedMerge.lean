import Mathlib.Data.List.Basic

/-!
# Words of processes that share events

Two processes in parallel perform the events of a label together and all
others alone.  A word of the pair is then a merge of a word of each side.  The
lemmas count the events of a merge, cut a merge back to the alphabet of one
side, and build a merge from two selections of one list.
-/

namespace SequenceChart

/-- `Merge shared left right whole` means that `whole` performs `left` and
`right` in order, the events in `shared` at the same time on both sides and
every other event on one side alone. -/
inductive Merge (shared : List String) :
    List String → List String → List String → Prop
  | nil : Merge shared [] [] []
  | left {event : String} {left right whole : List String} :
      event ∉ shared →
      Merge shared left right whole →
      Merge shared (event :: left) right (event :: whole)
  | right {event : String} {left right whole : List String} :
      event ∉ shared →
      Merge shared left right whole →
      Merge shared left (event :: right) (event :: whole)
  | together {event : String} {left right whole : List String} :
      event ∈ shared →
      Merge shared left right whole →
      Merge shared (event :: left) (event :: right) (event :: whole)

namespace Merge

variable {shared left right whole : List String}

/-- The sides of a merge may be exchanged. -/
theorem swap (merge : Merge shared left right whole) :
    Merge shared right left whole := by
  induction merge with
  | nil =>
      exact .nil
  | left absent _ inductionHypothesis =>
      exact .right absent inductionHypothesis
  | right absent _ inductionHypothesis =>
      exact .left absent inductionHypothesis
  | together member _ inductionHypothesis =>
      exact .together member inductionHypothesis

/-- A shared event happens as often in the whole as on the left side. -/
theorem count_left_of_shared {event : String}
    (member : event ∈ shared)
    (merge : Merge shared left right whole) :
    left.count event = whole.count event := by
  induction merge with
  | nil =>
      rfl
  | left _ _ inductionHypothesis =>
      simp only [List.count_cons, inductionHypothesis]
  | @right first _ _ _ absent _ inductionHypothesis =>
      have different : first ≠ event := by
        intro equal
        exact absent (equal ▸ member)
      simp [different, inductionHypothesis]
  | together _ _ inductionHypothesis =>
      simp only [List.count_cons, inductionHypothesis]

/-- An event that is not shared happens on one side at a time. -/
theorem count_of_not_shared {event : String}
    (absent : event ∉ shared)
    (merge : Merge shared left right whole) :
    whole.count event = left.count event + right.count event := by
  induction merge with
  | nil =>
      rfl
  | left _ _ inductionHypothesis =>
      simp only [List.count_cons, inductionHypothesis]
      omega
  | right _ _ inductionHypothesis =>
      simp only [List.count_cons, inductionHypothesis]
      omega
  | @together first _ _ _ member _ inductionHypothesis =>
      have different : first ≠ event := by
        intro equal
        exact absent (equal ▸ member)
      simp [different, inductionHypothesis]

/-- Every event of the whole belongs to one of the sides. -/
theorem mem_or_mem {event : String}
    (merge : Merge shared left right whole)
    (member : event ∈ whole) :
    event ∈ left ∨ event ∈ right := by
  induction merge with
  | nil =>
      simp at member
  | left _ _ inductionHypothesis =>
      rcases List.mem_cons.mp member with equal | later
      · exact Or.inl (equal ▸ List.mem_cons_self)
      · exact (inductionHypothesis later).imp_left (List.mem_cons_of_mem _)
  | right _ _ inductionHypothesis =>
      rcases List.mem_cons.mp member with equal | later
      · exact Or.inr (equal ▸ List.mem_cons_self)
      · exact (inductionHypothesis later).imp_right (List.mem_cons_of_mem _)
  | together _ _ inductionHypothesis =>
      rcases List.mem_cons.mp member with equal | later
      · exact Or.inl (equal ▸ List.mem_cons_self)
      · exact (inductionHypothesis later).imp
          (List.mem_cons_of_mem _) (List.mem_cons_of_mem _)

theorem mem_of_mem_left {event : String} (merge : Merge shared left right whole)
    (member : event ∈ left) : event ∈ whole := by
  induction merge with
  | nil =>
      exact member
  | right _ _ inductionHypothesis =>
      exact List.mem_cons_of_mem _ (inductionHypothesis member)
  | left _ _ inductionHypothesis | together _ _ inductionHypothesis =>
      rcases List.mem_cons.mp member with rfl | later
      · exact List.mem_cons_self
      · exact List.mem_cons_of_mem _ (inductionHypothesis later)

/-- Events may be left out of a merge on all sides. -/
theorem filter (kept : String → Bool) (merge : Merge shared left right whole) :
    Merge shared (left.filter kept) (right.filter kept) (whole.filter kept) := by
  induction merge with
  | nil =>
      exact .nil
  | @left event _ _ _ absent _ inductionHypothesis =>
      by_cases isKept : kept event = true
      · simpa [isKept] using Merge.left absent inductionHypothesis
      · simpa [isKept] using inductionHypothesis
  | @right event _ _ _ absent _ inductionHypothesis =>
      by_cases isKept : kept event = true
      · simpa [isKept] using Merge.right absent inductionHypothesis
      · simpa [isKept] using inductionHypothesis
  | @together event _ _ _ member _ inductionHypothesis =>
      by_cases isKept : kept event = true
      · simpa [isKept] using Merge.together member inductionHypothesis
      · simpa [isKept] using inductionHypothesis

/-- If the sides share every event that both alphabets have, the whole cut
back to the left alphabet is the left word. -/
theorem filter_left (inLeft inRight : String → Bool)
    (merge : Merge shared left right whole)
    (leftWithin : ∀ event ∈ left, inLeft event = true)
    (rightWithin : ∀ event ∈ right, inRight event = true)
    (overlap : ∀ event,
      inLeft event = true → inRight event = true → event ∈ shared) :
    whole.filter inLeft = left := by
  induction merge with
  | nil =>
      rfl
  | left _ _ inductionHypothesis =>
      have headWithin := leftWithin _ List.mem_cons_self
      rw [List.filter_cons_of_pos headWithin,
        inductionHypothesis (fun event member =>
          leftWithin event (List.mem_cons_of_mem _ member)) rightWithin]
  | @right first _ _ _ absent _ inductionHypothesis =>
      have headOutside : ¬ inLeft first = true := by
        intro headWithin
        exact absent
          (overlap first headWithin (rightWithin first List.mem_cons_self))
      rw [List.filter_cons_of_neg headOutside,
        inductionHypothesis leftWithin (fun event member =>
          rightWithin event (List.mem_cons_of_mem _ member))]
  | together _ _ inductionHypothesis =>
      have headWithin := leftWithin _ List.mem_cons_self
      rw [List.filter_cons_of_pos headWithin,
        inductionHypothesis
          (fun event member => leftWithin event (List.mem_cons_of_mem _ member))
          (fun event member => rightWithin event (List.mem_cons_of_mem _ member))]

/-- Two selections of one list merge into the selection of either, if the
shared events are those of the items that both sides select. -/
theorem of_selections {α : Type} (event : α → String)
    (inLeft inRight : α → Bool) (items : List α)
    (sharing : ∀ item ∈ items, inLeft item = true ∨ inRight item = true →
      (event item ∈ shared ↔ inLeft item = true ∧ inRight item = true)) :
    Merge shared ((items.filter inLeft).map event)
      ((items.filter inRight).map event)
      ((items.filter fun item => inLeft item || inRight item).map event) := by
  induction items with
  | nil =>
      exact .nil
  | cons item rest inductionHypothesis =>
      have later := inductionHypothesis fun other member =>
        sharing other (List.mem_cons_of_mem item member)
      have here := sharing item List.mem_cons_self
      by_cases seenLeft : inLeft item = true
      · by_cases seenRight : inRight item = true
        · have both := (here (Or.inl seenLeft)).mpr ⟨seenLeft, seenRight⟩
          simpa [seenLeft, seenRight] using Merge.together both later
        · have alone : event item ∉ shared := by
            intro member
            exact seenRight ((here (Or.inl seenLeft)).mp member).2
          simpa [seenLeft, seenRight] using Merge.left alone later
      · by_cases seenRight : inRight item = true
        · have alone : event item ∉ shared := by
            intro member
            exact seenLeft ((here (Or.inr seenRight)).mp member).1
          simpa [seenLeft, seenRight] using Merge.right alone later
        · simpa [seenLeft, seenRight] using later

/-- If every event of the right side is shared, the left side takes part in all of them. -/
theorem iff_of_within (within : ∀ event ∈ right, event ∈ shared) :
    Merge shared left right whole ↔
      whole = left ∧ (left.filter fun event => event ∈ shared) = right := by
  constructor
  · intro merge
    have same : whole = left := by
      simpa using merge.filter_left (fun _ => true) (fun event => event ∈ shared)
        (by simp) (by simpa using within) (by simp)
    have taken := merge.swap.filter_left (fun event => event ∈ shared) (fun _ => true)
      (by simpa using within) (by simp) (by simp)
    exact ⟨same, same ▸ taken⟩
  · rintro ⟨rfl, rfl⟩
    simpa using of_selections id (fun _ => true) (fun event => event ∈ shared) whole (by simp)

end Merge

end SequenceChart
