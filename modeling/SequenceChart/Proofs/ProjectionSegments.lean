import SequenceChart.Proofs.IrrelevantFragments
import SequenceChart.Proofs.Segments
import SequenceChart.Proofs.VariableScopes

/-!
# Segments of projections

What a viewpoint sees of several fragments is printed in sequence, without parentheses
around it.  This is safe as long as the text is cut just where one fragment ends and the
next one begins, and as long as what stands under a prefix, a guard or a choice stays
there.

`Fragment.segmentCount` says how many segments are seen of a fragment, without a look at
the process that is printed.  Most fragments that are seen at all are a single segment.
Those that add nothing around their parts have the segments of these.
-/

namespace SequenceChart

namespace Behaviour

variable {behaviour : Behaviour}

/-- No sequence leads out of what stands under a prefix or a guard, since that is one
segment.  None leads out of a choice or an interleaving, since these stand in parentheses.
The flag tells whether the process itself stands right in parentheses. -/
def IsSheltered : Behaviour → Bool → Prop
  | .perform _ next, _ => segments next.text = [next.text] ∧ next.IsSheltered false
  | .guarded _ body, _ => segments body.text = [body.text] ∧ body.IsSheltered false
  | .andThen first second, _ => first.IsSheltered false ∧ second.IsSheltered false
  | .join _ left right, enclosed =>
      enclosed = true ∧ left.IsSheltered false ∧ right.IsSheltered true
  | .grouped body, _ => body.IsSheltered true
  | .wrapped _ _ body, _ => body.IsSheltered true
  | .remarked _ body, _ => body.IsSheltered false
  | .annotated body _, _ => body.IsSheltered false
  | .skip, _ | .stop, _ | .named _, _ | .verbatim _, _ | .applied _ _, _ => True
  -- projections are not built with any of these
  | .synchronised _ _ _, _ | .hiding _ _, _ | .interrupted _ _, _ => False
  | .conditional _ _ _, _ => False

theorem IsSheltered.inside (sheltered : behaviour.IsSheltered false) :
    behaviour.IsSheltered true := by
  cases behaviour with
  | join operator left right =>
      cases sheltered.1
  | _ =>
      exact sheltered

/-- The text of the process is made of segments, and the process is sheltered. -/
structure IsSegmented (behaviour : Behaviour) : Prop where
  cut : IsCutInto (segments behaviour.text) behaviour.text
  sheltered : behaviour.IsSheltered false

/-- The text of the process is one segment, and the process is sheltered. -/
structure IsSingle (behaviour : Behaviour) : Prop where
  flat : IsFlat behaviour.text
  sheltered : behaviour.IsSheltered false

theorem IsSingle.segments_eq (single : behaviour.IsSingle) :
    segments behaviour.text = [behaviour.text] :=
  single.flat.isCutInto.segments_eq

theorem IsSingle.isSegmented (single : behaviour.IsSingle) : behaviour.IsSegmented where
  cut := by
    rw [single.segments_eq]
    exact single.flat.isCutInto
  sheltered := single.sheltered

theorem isSingle_skip : skip.IsSingle :=
  ⟨isFlat_of_plain (by decide), trivial⟩

private theorem isSingle_stop : stop.IsSingle :=
  ⟨isFlat_of_plain (by decide), trivial⟩

theorem IsSingle.perform {event : Event} (flat : IsFlat event.text)
    (single : behaviour.IsSingle) : (perform event behaviour).IsSingle where
  flat := by
    have arrow : IsFlat " -> " := isFlat_of_plain (by decide)
    exact (flat.append arrow).append single.flat
  sheltered := ⟨single.segments_eq, single.sheltered⟩

theorem IsSingle.performAll {events : List Event} (flat : ∀ event ∈ events, IsFlat event.text)
    (single : behaviour.IsSingle) : (performAll events behaviour).IsSingle := by
  induction events with
  | nil =>
      exact single
  | cons event rest inductionHypothesis =>
      rw [List.forall_mem_cons] at flat
      exact (inductionHypothesis flat.2).perform flat.1

theorem IsSingle.guarded {condition : Term} (flat : IsFlat condition.text)
    (single : behaviour.IsSingle) : (guarded condition behaviour).IsSingle where
  flat := by
    have sign : IsFlat " & " := isFlat_of_plain (by decide)
    exact (flat.append sign).append single.flat
  sheltered := ⟨single.segments_eq, single.sheltered⟩

theorem IsSegmented.wrapped {function : String} {arguments : List Operand}
    (flat : IsFlat (application function (arguments.map Operand.text)))
    (segmented : behaviour.IsSegmented) : (wrapped function arguments behaviour).IsSingle where
  flat := flat.enclosing segmented.cut.isNested
  sheltered := segmented.sheltered.inside

theorem IsSegmented.idle (segmented : behaviour.IsSegmented) : behaviour.idle.IsSingle := by
  have plain : IsFlat (application "Idle" ([].map Operand.text)) :=
    isFlat_of_plain (by decide)
  exact segmented.wrapped plain

theorem IsSegmented.grouped (segmented : behaviour.IsSegmented) : behaviour.grouped.IsSingle where
  flat := segmented.cut.isNested.enclosed
  sheltered := segmented.sheltered.inside

@[simp]
theorem hasSequence_append (before after : List Char) :
    hasSequence (before ++ ';' :: ' ' :: after) = true := by
  induction before with
  | nil =>
      rfl
  | cons character rest inductionHypothesis =>
      rw [List.cons_append]
      unfold hasSequence
      split
      · contradiction
      · rfl
      · next same =>
          cases same
          exact inductionHypothesis

/-- What is enclosed is a single segment, with parentheses where it takes them. -/
theorem IsSegmented.enclose (segmented : behaviour.IsSegmented) : behaviour.enclose.IsSingle := by
  rw [Behaviour.enclose, holdsSequence_eq, written_eq_text]
  by_cases inSequence : hasSequence behaviour.text.toList = true
  · rw [if_pos inSequence]
    exact segmented.grouped
  · rw [if_neg inSequence]
    refine ⟨?_, segmented.sheltered⟩
    obtain ⟨nonempty, flat, joined⟩ := segmented.cut
    generalize segments behaviour.text = parts at nonempty flat joined
    obtain ⟨first, rest, rfl⟩ := List.exists_cons_of_ne_nil nonempty
    cases rest with
    | nil =>
        rw [joined]
        exact flat first List.mem_cons_self
    | cons next others =>
        rw [joined, joinWith_cons_cons] at inSequence
        simp at inSequence

private theorem segments_remarked {remark : String} (plain : ConsistsOf isPlain remark)
    (segmented : behaviour.IsSegmented) :
    segments (remarked remark behaviour).text =
      (segments behaviour.text).modifyHead (comment remark ++ " " ++ ·) := by
  have blank : IsFlat " " := isFlat_of_plain (by decide)
  exact (segmented.cut.behind ((isFlat_comment plain).append blank)).segments_eq

theorem IsSegmented.remarked {remark : String} (plain : ConsistsOf isPlain remark)
    (segmented : behaviour.IsSegmented) : (remarked remark behaviour).IsSegmented where
  cut := by
    have blank : IsFlat " " := isFlat_of_plain (by decide)
    rw [segments_remarked plain segmented]
    exact segmented.cut.behind ((isFlat_comment plain).append blank)
  sheltered := segmented.sheltered

private theorem isSingle_unsupported {remark : String} (isFixed : remark ∈ fixedRemarks) :
    (annotated .stop remark).IsSingle where
  flat := by
    have plain : ∀ fixed ∈ fixedRemarks, ConsistsOf isPlain fixed := by decide
    have front : IsFlat "STOP " := isFlat_of_plain (by decide)
    exact front.append (isFlat_comment (plain remark isFixed))
  sheltered := trivial

/-- Processes in sequence have the segments of each, in order. -/
theorem isCutInto_sequence {parts : List Behaviour} (nonempty : parts ≠ [])
    (each : ∀ part ∈ parts, part.IsSegmented) :
    IsCutInto (parts.flatMap fun part => segments part.text) (sequence parts).text := by
  induction parts with
  | nil =>
      exact absurd rfl nonempty
  | cons part rest inductionHypothesis =>
      rw [List.forall_mem_cons] at each
      cases rest with
      | nil =>
          simpa [sequence] using each.1.cut
      | cons next others =>
          exact each.1.cut.andThen (inductionHypothesis (List.cons_ne_nil next others) each.2)

private theorem isSheltered_sequence {parts : List Behaviour}
    (each : ∀ part ∈ parts, part.IsSheltered false) : (sequence parts).IsSheltered false := by
  induction parts with
  | nil =>
      exact trivial
  | cons part rest inductionHypothesis =>
      rw [List.forall_mem_cons] at each
      cases rest with
      | nil =>
          exact each.1
      | cons next others =>
          exact ⟨each.1, inductionHypothesis each.2⟩

private theorem isSegmented_sequence {parts : List Behaviour} (nonempty : parts ≠ [])
    (each : ∀ part ∈ parts, part.IsSegmented) : (sequence parts).IsSegmented where
  cut := by
    have cut := isCutInto_sequence nonempty each
    rwa [cut.segments_eq]
  sheltered := isSheltered_sequence fun part member => (each part member).sheltered

/-- Processes that are joined fit into parentheses. -/
theorem joinAll_inside (operator : JoinOperator) {first : Behaviour} {rest : List Behaviour}
    (ofFirst : first.IsSegmented) (ofRest : ∀ part ∈ rest, part.IsSegmented) :
    IsNested (joinAll operator first rest).text ∧
      (joinAll operator first rest).IsSheltered true := by
  induction rest generalizing first with
  | nil =>
      exact ⟨ofFirst.cut.isNested, ofFirst.sheltered.inside⟩
  | cons next others inductionHypothesis =>
      rw [List.forall_mem_cons] at ofRest
      obtain ⟨nested, sheltered⟩ := inductionHypothesis ofRest.1 ofRest.2
      have blank : IsFlat " " := isFlat_of_plain (by decide)
      have symbol : IsFlat operator.symbol := by
        apply isFlat_of_plain
        cases operator <;> decide
      refine ⟨?_, rfl, ofFirst.sheltered, sheltered⟩
      exact (((ofFirst.cut.isNested.append blank.isNested).append symbol.isNested).append
        blank.isNested).append nested

private theorem isSingle_combine (operator : JoinOperator) {parts : List Behaviour}
    (several : 2 ≤ parts.length) (each : ∀ part ∈ parts, part.IsSegmented) :
    (combine operator parts).IsSingle := by
  match parts with
  | [] | [_] =>
      simp at several
  | first :: next :: rest =>
      rw [List.forall_mem_cons] at each
      obtain ⟨nested, sheltered⟩ := joinAll_inside operator each.1 each.2
      exact ⟨nested.enclosed, sheltered⟩

private theorem isSegmented_combine (operator : JoinOperator) {parts : List Behaviour}
    (each : ∀ part ∈ parts, part.IsSegmented) : (combine operator parts).IsSegmented := by
  match parts with
  | [] =>
      cases operator with
      | externalChoice | internalChoice =>
          exact isSingle_stop.isSegmented
      | interleaving =>
          exact isSingle_skip.isSegmented
  | [only] =>
      exact each only List.mem_cons_self
  | first :: next :: rest =>
      exact (isSingle_combine operator (by simp) each).isSegmented

end Behaviour

/-! ## What is seen of fragments -/

def segmentsOf : Option Behaviour → List String
  | none => []
  | some behaviour => segments behaviour.text

namespace Fragment

mutual

/-- How many segments a viewpoint sees of a fragment. -/
def segmentCount (setting : Setting) (view : Viewpoint) : Fragment → Nat
  | .message content =>
      if view.isFor content.sender || view.isFor content.receiver then 1 else 0
  | .wait actor _ => if view.isFor actor then 1 else 0
  | .deadlock actor => if view.isFor actor then 1 else 0
  | .create _ actor created => if view.isFor actor || view.isFor created then 1 else 0
  | .loop _ body => min 1 (body.segmentCount setting view)
  | .branch kind operands =>
      let inner := armsSegmentCount setting view operands
      -- a single arm that is not guarded adds nothing around its segments
      if kind ≠ .opt ∧ operands.map guard = [none] then inner else min 1 inner
  | .par _ operands =>
      let inner := listSegmentCount setting view operands
      if setting.meetsAt view .par then
        2
      else if operands.length = 1 then
        inner
      else
        min 1 inner
  | .duration owner bound body =>
      let inner := body.segmentCount setting view
      if view.isFor owner then
        if bound.sides = [] then max 1 inner else 1
      else
        inner
  | .deadline owner _ body =>
      let inner := body.segmentCount setting view
      if view.isFor owner then
        1
      else if setting.lifelines.length ≤ 1 then
        min 1 inner
      else
        inner
  | .until _ _ _ => 1
  | .critical _ body => min 1 (body.segmentCount setting view)
  | .operand guard fragments =>
      let inner := listSegmentCount setting view fragments
      if guard.isSome then min 1 inner else inner
  | .deferred content => (content ()).segmentCount setting view
  | .unresolved _ => 0

def listSegmentCount (setting : Setting) (view : Viewpoint) : List Fragment → Nat
  | [] => 0
  | fragment :: rest => fragment.segmentCount setting view + listSegmentCount setting view rest

/-- How many segments a viewpoint sees behind the guards of the operands of a branch. -/
def armsSegmentCount (setting : Setting) (view : Viewpoint) : List Fragment → Nat
  | [] => 0
  | .operand _ fragments :: rest =>
      listSegmentCount setting view fragments + armsSegmentCount setting view rest
  | fragment :: rest => fragment.segmentCount setting view + armsSegmentCount setting view rest

end

@[simp]
theorem listSegmentCount_eq_sum (setting : Setting) (view : Viewpoint)
    (fragments : List Fragment) :
    listSegmentCount setting view fragments =
      (fragments.map (segmentCount setting view)).sum := by
  induction fragments with
  | nil =>
      rfl
  | cons fragment rest inductionHypothesis =>
      rw [listSegmentCount, inductionHypothesis, List.map_cons, List.sum_cons]

@[simp]
theorem armsSegmentCount_eq_sum (setting : Setting) (view : Viewpoint)
    (operands : List Fragment) :
    armsSegmentCount setting view operands =
      (operands.map fun operand => operand.unguarded.segmentCount setting view).sum := by
  rw [List.sum, List.foldr_map]
  refine eq_foldr_arms ?_ ?_ operands
  · intro guard fragments rest
    rw [armsSegmentCount, unguarded, segmentCount]
    rfl
  · intro fragment rest isOther _ same
    rw [armsSegmentCount.eq_3 _ _ _ _ isOther, same]

/-- What is seen has the given number of segments. -/
structure SeenInSegments (count : Nat) (seen : Option Behaviour) : Prop where
  segmented : ∀ behaviour ∈ seen, behaviour.IsSegmented
  length : (segmentsOf seen).length = count

namespace SeenInSegments

variable {count : Nat} {seen : Option Behaviour} {behaviour : Behaviour}

theorem none : SeenInSegments 0 none :=
  ⟨by simp, rfl⟩

theorem some (segmented : behaviour.IsSegmented)
    (length : (segments behaviour.text).length = count) :
    SeenInSegments count (some behaviour) :=
  ⟨by simpa using segmented, length⟩

theorem single (single : behaviour.IsSingle) : SeenInSegments 1 (.some behaviour) :=
  .some single.isSegmented (by rw [single.segments_eq]; rfl)

theorem pair {first second : Behaviour} (ofFirst : first.IsSingle) (ofSecond : second.IsSingle) :
    SeenInSegments 2 (.some (.sequence [first, second])) := by
  have both : ∀ part ∈ [first, second], part.IsSegmented := List.forall_mem_cons.mpr
    ⟨ofFirst.isSegmented, List.forall_mem_singleton.mpr ofSecond.isSegmented⟩
  refine .some (Behaviour.isSegmented_sequence (List.cons_ne_nil _ _) both) ?_
  rw [(Behaviour.isCutInto_sequence (List.cons_ne_nil _ _) both).segments_eq, List.flatMap_cons,
    List.flatMap_singleton, ofFirst.segments_eq, ofSecond.segments_eq]
  rfl

theorem eq_zero (inSegments : SeenInSegments count .none) : count = 0 :=
  inSegments.length.symm

private theorem ofSome (inSegments : SeenInSegments count (.some behaviour)) :
    behaviour.IsSegmented ∧ (segments behaviour.text).length = count :=
  ⟨inSegments.segmented behaviour rfl, inSegments.length⟩

theorem getD (inSegments : SeenInSegments count seen) : (seen.getD .skip).IsSegmented := by
  cases seen with
  | none =>
      exact Behaviour.isSingle_skip.isSegmented
  | some shown =>
      exact inSegments.ofSome.1

private theorem length_getD (inSegments : SeenInSegments count seen) :
    (segments (seen.getD .skip).text).length = max 1 count := by
  cases seen with
  | none =>
      rw [inSegments.eq_zero]
      decide
  | some shown =>
      obtain ⟨segmented, length⟩ := inSegments.ofSome
      have nonempty := List.length_pos_of_ne_nil segmented.cut.nonempty
      rw [Option.getD_some]
      omega

/-- A fragment is seen if there is a segment of it. -/
theorem one_le (inSegments : SeenInSegments count seen) (relevant : seen.isSome = true) :
    1 ≤ count := by
  obtain ⟨shown, rfl⟩ := Option.isSome_iff_exists.mp relevant
  obtain ⟨segmented, length⟩ := inSegments.ofSome
  have nonempty := List.length_pos_of_ne_nil segmented.cut.nonempty
  omega

end SeenInSegments

/-- What is seen of several fragments has the segments of each, in order. -/
theorem segmentsOf_sequenceOf {seen : List (Option Behaviour)}
    (each : ∀ part ∈ seen, ∀ behaviour ∈ part, behaviour.IsSegmented) :
    (∀ behaviour ∈ sequenceOf seen, behaviour.IsSegmented) ∧
      segmentsOf (sequenceOf seen) = seen.flatMap segmentsOf := by
  have parts : ∀ part ∈ seen.filterMap id, part.IsSegmented := by
    intro part member
    obtain ⟨whole, isWhole, same⟩ := List.mem_filterMap.mp member
    exact each whole isWhole part same
  have flattened : seen.flatMap segmentsOf =
      (seen.filterMap id).flatMap fun part => segments part.text := by
    clear each parts
    induction seen with
    | nil =>
        rfl
    | cons part rest inductionHypothesis =>
        cases part <;> simp [segmentsOf, inductionHypothesis]
  rw [sequenceOf, flattened]
  generalize seen.filterMap id = shown at parts
  by_cases empty : shown = []
  · subst empty
    refine ⟨?_, rfl⟩
    rintro behaviour ⟨⟩
  · rw [if_neg (by simpa using empty)]
    refine ⟨?_, (Behaviour.isCutInto_sequence empty parts).segments_eq⟩
    rintro behaviour ⟨⟩
    exact Behaviour.isSegmented_sequence empty parts

private theorem seenInSegments_sequenceOf {counts : Fragment → Nat}
    {parts : List (Fragment × Option Behaviour)}
    (each : ∀ part ∈ parts, SeenInSegments (counts part.1) part.2) :
    SeenInSegments ((parts.map Prod.fst).map counts).sum
      (sequenceOf (parts.map Prod.snd)) := by
  have segmented : ∀ part ∈ parts.map Prod.snd, ∀ behaviour ∈ part, behaviour.IsSegmented :=
    List.forall_mem_map.mpr fun part member => (each part member).segmented
  obtain ⟨ofWhole, inOrder⟩ := segmentsOf_sequenceOf segmented
  refine ⟨ofWhole, ?_⟩
  rw [inOrder, List.length_flatMap, List.map_map, List.map_map]
  congr 1
  apply List.map_congr_left
  intro part member
  exact (each part member).length

private theorem one_le_sum {α : Type} {parts : List (Fragment × α)} {counts : Fragment → Nat}
    (seen : α → Option Behaviour)
    (each : ∀ part ∈ parts, SeenInSegments (counts part.1) (seen part.2))
    (relevant : ∃ part ∈ parts, (seen part.2).isSome = true) :
    1 ≤ ((parts.map Prod.fst).map counts).sum := by
  obtain ⟨part, isPart, isSeen⟩ := relevant
  exact List.sum_pos_iff_exists_pos_nat.mpr ⟨counts part.1,
    List.mem_map_of_mem (List.mem_map_of_mem isPart), (each part isPart).one_le isSeen⟩

theorem sum_eq_zero {fragments : List Fragment} {counts : Fragment → Nat}
    (each : ∀ fragment ∈ fragments, SeenInSegments (counts fragment) none) :
    (fragments.map counts).sum = 0 := by
  rw [List.sum_eq_zero_iff_forall_eq_nat]
  intro number member
  obtain ⟨fragment, isMember, rfl⟩ := List.mem_map.mp member
  exact (each fragment isMember).eq_zero

end Fragment

/-- Without sides there is nothing to call. -/
theorem Setting.eq_remark_of_noSides {setting : Setting} {bound : Bound} {header : Header}
    (noSides : bound.sides = [])
    (done : setting.specification.durationHeader setting.interaction.toDiagram bound =
      .ok header) : header = .remark "no bounds" := by
  match bound with
  | ⟨none, none⟩ =>
      cases done
      rfl
  | ⟨some lower, _⟩ | ⟨none, some upper⟩ =>
      cases noSides

namespace Fragment

variable {setting : Setting} {view : Viewpoint}

/-- The two halves of a handshake put parentheses around what is between them. -/
theorem seenInSegments_metArms {id : FragmentId} {enter leave : Event}
    {arms : List (Option Behaviour)} (entered : setting.pars.event .enter id = .ok enter)
    (left : setting.pars.event .leave id = .ok leave)
    (each : ∀ arm ∈ arms, (arm.getD .skip).IsSegmented) :
    SeenInSegments 2 (some (metArms enter leave arms)) := by
  have behaviours : ∀ part ∈ arms.map fun arm => arm.getD .skip, part.IsSegmented :=
    List.forall_mem_map.mpr each
  have body : (if (arms.map fun arm => arm.getD .skip).length ≤ 1
      then (Behaviour.combine .interleaving (arms.map fun arm => arm.getD .skip)).grouped
      else Behaviour.combine .interleaving (arms.map fun arm => arm.getD .skip)).IsSingle := by
    by_cases few : (arms.map fun arm => arm.getD .skip).length ≤ 1
    · rw [if_pos few]
      exact (Behaviour.isSegmented_combine .interleaving behaviours).grouped
    · rw [if_neg few]
      exact Behaviour.isSingle_combine .interleaving (by omega) behaviours
  have first := (body.perform (setting.pars.isFlat_event entered)).isSegmented.idle
  have second := (Behaviour.isSingle_skip.perform
    (setting.pars.isFlat_event left)).isSegmented.idle
  exact .pair first second

section Names

variable (names : setting.specification.HasPlainNames setting.interaction.toDiagram)
include names

private theorem isSingle_loaded {given : List ExpressionId} {loads : List Event}
    (done : (setting.loadsOf given).result = .ok loads) {behaviour : Behaviour}
    (single : behaviour.IsSingle) : (Behaviour.performAll loads behaviour).IsSingle := by
  refine single.performAll fun event member => ?_
  obtain ⟨_, _, _, _, isAccess⟩ := Setting.exists_mentioned done member
  exact names.isFlat_access textLaw_flat.load isAccess

private theorem isSingle_call {function : String} (known : function ∈ enclosingFunctions)
    {shown : List ExpressionId} {terms : List Term}
    (each : List.Forall₂ (fun id term => setting.termOf id = .ok term) shown terms)
    {inner : Behaviour} (segmented : inner.IsSegmented) :
    (Behaviour.wrapped function (terms.map .value) inner).IsSingle := by
  have plain : ∀ function ∈ enclosingFunctions, ConsistsOf isPlain function := by decide
  exact segmented.wrapped (Behaviour.isFlat_valueCall names (plain function known) each)

private theorem isSingle_guardedArm {guard : ExpressionId} {body : Option Behaviour}
    {arm : Setting.Arm} (isArm : IsArm setting (some guard) body arm)
    (ofBody : (body.getD .skip).IsSegmented) : arm.behaviour.IsSingle := by
  obtain ⟨term, termDone, rfl⟩ := isArm
  exact ofBody.enclose.guarded (names.isFlat_term termDone)

private theorem isSegmented_arm {guard : Option ExpressionId} {body : Option Behaviour}
    {arm : Setting.Arm} (isArm : IsArm setting guard body arm)
    (ofBody : (body.getD .skip).IsSegmented) : arm.behaviour.IsSegmented := by
  cases guard with
  | none =>
      rw [show arm = _ from isArm]
      exact ofBody
  | some condition =>
      exact (isSingle_guardedArm names isArm ofBody).isSegmented

/-- A choice is one segment, unless it has a single arm that is not guarded. -/
theorem isSingle_chooseAmong {kind : BranchKind}
    {parts : List (Fragment × Option Behaviour × Setting.Arm)}
    (bodies : ∀ part ∈ parts, (part.2.1.getD .skip).IsSegmented)
    (areArms : ∀ part ∈ parts, IsArm setting part.1.guard part.2.1 part.2.2)
    (nonempty : parts ≠ [])
    (chooses : ¬ (kind ≠ .opt ∧ (parts.map Prod.fst).map guard = [none])) :
    (Setting.chooseAmong kind (parts.map fun part => part.2.2.behaviour)).IsSingle := by
  have arms : ∀ arm ∈ parts.map fun part => part.2.2.behaviour, arm.IsSegmented :=
    List.forall_mem_map.mpr fun part member =>
      isSegmented_arm names (areArms part member) (bodies part member)
  by_cases isOpt : kind = .opt
  · subst isOpt
    have several :
        2 ≤ (parts.map (fun part => part.2.2.behaviour) ++ [Behaviour.skip]).length := by
      have positive := List.length_pos_of_ne_nil nonempty
      simp only [List.length_append, List.length_map, List.length_singleton]
      omega
    have withSkip := List.forall_mem_append.mpr
      ⟨arms, List.forall_mem_singleton.mpr Behaviour.isSingle_skip.isSegmented⟩
    exact Behaviour.isSingle_combine .externalChoice several withSkip
  · have combined : ∀ operator, (Behaviour.combine operator
        (parts.map fun part => part.2.2.behaviour)).IsSingle := by
      intro operator
      by_cases several : 2 ≤ parts.length
      · exact Behaviour.isSingle_combine operator (by simpa using several) arms
      · have positive := List.length_pos_of_ne_nil nonempty
        obtain ⟨part, rfl⟩ := List.length_eq_one_iff.mp (by omega : parts.length = 1)
        have isArm := areArms part List.mem_cons_self
        cases guarded : part.1.guard with
        | none =>
            exact absurd ⟨isOpt, by simp [guarded]⟩ chooses
        | some condition =>
            rw [guarded] at isArm
            exact isSingle_guardedArm names isArm (bodies part List.mem_cons_self)
    cases kind with
    | alt | xalt =>
        exact combined _
    | opt =>
        exact absurd rfl isOpt

private theorem seenInSegments_branch (kind : BranchKind)
    {parts : List (Fragment × Option Behaviour × Setting.Arm)} {loads : List Event}
    (each : ∀ part ∈ parts,
      SeenInSegments (part.1.unguarded.segmentCount setting view) part.2.1)
    (areArms : ∀ part ∈ parts, IsArm setting part.1.guard part.2.1 part.2.2)
    (relevant : ∃ part ∈ parts, part.2.1.isSome = true)
    (loadsDone : (setting.loadsOf (parts.filterMap fun part => part.1.guard)).result =
      .ok loads) :
    SeenInSegments ((Fragment.branch kind (parts.map Prod.fst)).segmentCount setting view)
      (some (.performAll loads
        (Setting.chooseAmong kind (parts.map fun part => part.2.2.behaviour)))) := by
  rw [segmentCount, armsSegmentCount_eq_sum]
  by_cases alone : kind ≠ .opt ∧ (parts.map Prod.fst).map guard = [none]
  · rw [if_pos alone]
    obtain ⟨notOpt, guards⟩ := alone
    obtain ⟨part, rfl⟩ := List.length_eq_one_iff.mp
      (show parts.length = 1 by simpa using congrArg List.length guards)
    have unguarded : part.1.guard = none := by simpa using guards
    have isArm := areArms part List.mem_cons_self
    rw [unguarded] at isArm
    have noLoads : loads = [] := loadsOf_nil (by simpa [unguarded] using loadsDone)
    have same : Setting.chooseAmong kind [part.2.2.behaviour] = part.2.1.getD .skip := by
      rw [show part.2.2 = _ from isArm]
      cases kind with
      | alt | xalt =>
          rfl
      | opt =>
          exact absurd rfl notOpt
    have ofPart := each part List.mem_cons_self
    obtain ⟨shown, isShown⟩ := Option.isSome_iff_exists.mp
      (show part.2.1.isSome = true by simpa using relevant)
    rw [isShown] at ofPart same
    simpa [noLoads, same, Behaviour.performAll] using ofPart
  · rw [if_neg alone, Nat.min_eq_left (one_le_sum Prod.fst each relevant)]
    obtain ⟨part, isPart, _⟩ := relevant
    have single := isSingle_chooseAmong names (fun part member => (each part member).getD)
      areArms (List.ne_nil_of_mem isPart) alone
    exact .single (isSingle_loaded names loadsDone single)

/-! ## All fragments -/

private theorem seenInSegments_message {content : Message} {event : Event} {ids : List VariableId}
    {stores loads : List Event}
    (plain : ConsistsOf isPlain content.topic.name)
    (involved : (view.isFor content.sender || view.isFor content.receiver) = true)
    (eventDone : setting.messageEvent content = .ok event)
    (storesDone : (setting.specification.stores ids).result = .ok stores)
    (loadsDone : (setting.loadsOf content.values).result = .ok loads) :
    SeenInSegments ((Fragment.message content).segmentCount setting view)
      (some (.performAll loads (.idle (.perform event (.performAll stores .skip))))) := by
  have stored := Behaviour.isSingle_skip.performAll (isFlat_stores names storesDone)
  have exchanged := stored.perform (isFlat_messageEvent names plain eventDone)
  rw [segmentCount, if_pos involved]
  exact .single (isSingle_loaded names loadsDone exchanged.isSegmented.idle)

private theorem seenInSegments_wait {actor : ActorId} {units : ExpressionId} {loads : List Event}
    {term : Term} (own : view.isFor actor = true)
    (loadsDone : (setting.loadsOf [units]).result = .ok loads)
    (termDone : setting.termOf units = .ok term) :
    SeenInSegments ((Fragment.wait actor units).segmentCount setting view)
      (some (.performAll loads (.applied "WAIT" [.value term]))) := by
  have flat := Behaviour.isFlat_valueCall names (by decide : ConsistsOf isPlain "WAIT")
    (.cons termDone .nil)
  rw [segmentCount, if_pos own]
  exact .single (isSingle_loaded names loadsDone ⟨flat, trivial⟩)

private theorem seenInSegments_loop {bound : Option Bound} {body : Fragment} {inner : Behaviour}
    {loads : List Event} {header : Header}
    (ofBody : SeenInSegments (body.segmentCount setting view) (some inner))
    (loadsDone : (setting.loadsOf (bound.toList.flatMap Bound.sides)).result = .ok loads)
    (headerDone : setting.specification.loopHeader setting.interaction.toDiagram bound =
      .ok header) :
    SeenInSegments ((Fragment.loop bound body).segmentCount setting view)
      (some (.performAll loads (header.around inner))) := by
  obtain ⟨function, terms, rfl, known, termsDone⟩ := Setting.exists_call_of_loopHeader headerDone
  rw [segmentCount, Nat.min_eq_left (ofBody.one_le rfl)]
  exact .single (isSingle_loaded names loadsDone
    (isSingle_call names known termsDone ofBody.ofSome.1))

omit names in
private theorem seenInSegments_par {id : FragmentId} {parts : List (Fragment × Option Behaviour)}
    (each : ∀ part ∈ parts, SeenInSegments (part.1.segmentCount setting view) part.2)
    (apart : setting.meetsAt view .par = false)
    (relevant : ∃ part ∈ parts, part.2.isSome = true) :
    SeenInSegments ((Fragment.par id (parts.map Prod.fst)).segmentCount setting view)
      (some (.combine .interleaving (parts.map fun part => part.2.getD .skip))) := by
  have atLeastOne := one_le_sum (fun seen => seen) each relevant
  rw [segmentCount, if_neg (by simp [apart]), listSegmentCount_eq_sum, List.length_map]
  by_cases alone : parts.length = 1
  · obtain ⟨part, rfl⟩ := List.length_eq_one_iff.mp alone
    have ofPart := each part List.mem_cons_self
    obtain ⟨shown, isShown⟩ := Option.isSome_iff_exists.mp
      (show part.2.isSome = true by simpa using relevant)
    rw [isShown] at ofPart
    simpa [isShown, Behaviour.combine] using ofPart
  · rw [if_neg alone, Nat.min_eq_left atLeastOne]
    refine .single (Behaviour.isSingle_combine .interleaving ?_ ?_)
    · obtain ⟨part, isPart, _⟩ := relevant
      have positive := List.length_pos_of_mem isPart
      rw [List.length_map]
      omega
    · exact List.forall_mem_map.mpr fun part isPart => (each part isPart).getD

/-- Without sides a duration is a remark on its body, and a call around it otherwise. -/
private theorem seenInSegments_duration {owner : ActorId} {bound : Bound} {body : Fragment}
    {inner : Option Behaviour} {loads : List Event} {header : Header}
    (ofBody : SeenInSegments (body.segmentCount setting view) inner)
    (own : view.isFor owner = true)
    (loadsDone : (setting.loadsOf bound.sides).result = .ok loads)
    (headerDone : setting.specification.durationHeader setting.interaction.toDiagram bound =
      .ok header) :
    SeenInSegments ((Fragment.duration owner bound body).segmentCount setting view)
      (some (.performAll loads (header.around (inner.getD .skip)))) := by
  rw [segmentCount, if_pos own]
  by_cases noSides : bound.sides = []
  · obtain rfl := Setting.eq_remark_of_noSides noSides headerDone
    have plain : ConsistsOf isPlain "no bounds" := by decide
    rw [noSides] at loadsDone
    rw [if_pos noSides, loadsOf_nil loadsDone, ← ofBody.length_getD]
    refine .some (ofBody.getD.remarked plain) ?_
    change (segments (Behaviour.remarked "no bounds" (inner.getD .skip)).text).length = _
    rw [Behaviour.segments_remarked plain ofBody.getD, List.length_modifyHead]
  · rw [if_neg noSides]
    rcases Setting.exists_call_of_durationHeader headerDone with
      ⟨none, _⟩ | ⟨function, terms, rfl, known, termsDone⟩
    · exact absurd none noSides
    · exact .single (isSingle_loaded names loadsDone
        (isSingle_call names known termsDone ofBody.getD))

private theorem seenInSegments_deadline {owner : ActorId} {units : ExpressionId} {body : Fragment}
    {inner : Option Behaviour} {loads : List Event} {term : Term}
    (ofBody : SeenInSegments (body.segmentCount setting view) inner)
    (relevant : (inner.isSome || view.isFor owner) = true)
    (enforced : (view.isFor owner || decide (setting.lifelines.length ≤ 1)) = true)
    (loadsDone : (setting.loadsOf [units]).result = .ok loads)
    (termDone : setting.termOf units = .ok term) :
    SeenInSegments ((Fragment.deadline owner units body).segmentCount setting view)
      (some (.performAll loads (.wrapped "Deadline" [.value term] (inner.getD .skip)))) := by
  have known : "Deadline" ∈ enclosingFunctions := by decide
  have single := isSingle_loaded names loadsDone
    (isSingle_call names known (.cons termDone .nil) ofBody.getD)
  rw [segmentCount]
  by_cases own : view.isFor owner = true
  · rw [if_pos own]
    exact .single single
  · rw [Bool.eq_false_of_not_eq_true own] at relevant enforced
    have alone : setting.lifelines.length ≤ 1 := by simpa using enforced
    rw [if_neg own, if_pos alone, Nat.min_eq_left (ofBody.one_le (by simpa using relevant))]
    exact .single single

private theorem seenInSegments_remarkedDeadline {owner : ActorId} {units : ExpressionId}
    {body : Fragment} {inner : Behaviour} {found : Actor}
    (ofBody : SeenInSegments (body.segmentCount setting view) (some inner))
    (noted : (view.isFor owner || decide (setting.lifelines.length ≤ 1)) = false)
    (actorDone : setting.specification.actor owner = .ok found) :
    SeenInSegments ((Fragment.deadline owner units body).segmentCount setting view)
      (some (.remarked ("deadline on " ++ found.name) inner)) := by
  obtain ⟨segmented, length⟩ := ofBody.ofSome
  have front : ConsistsOf isPlain "deadline on " := by decide
  have plain := front.append (names.actors found (mem_of_entryAt actorDone))
  rw [Bool.or_eq_false_iff] at noted
  rw [segmentCount, if_neg (by simp [noted.1]), if_neg (of_decide_eq_false noted.2)]
  refine .some (segmented.remarked plain) ?_
  rw [Behaviour.segments_remarked plain segmented, List.length_modifyHead, length]

omit names in
private theorem seenInSegments_metUntil {id : FragmentId} {intra : MessageSet} {body : Fragment}
    {enter leave : Event} (enterDone : setting.untils.event .enter id = .ok enter)
    (leaveDone : setting.untils.event .leave id = .ok leave) :
    SeenInSegments ((Fragment.until id intra body).segmentCount setting view)
      (some (.idle (.performAll [enter, leave] .skip))) := by
  have left := Behaviour.isSingle_skip.perform (setting.untils.isFlat_event leaveDone)
  have entered := left.perform (setting.untils.isFlat_event enterDone)
  rw [segmentCount]
  exact .single entered.isSegmented.idle

private theorem seenInSegments_guardedOperand {condition : ExpressionId}
    {parts : List (Fragment × Option Behaviour)} {body : Behaviour} {loads : List Event}
    {term : Term}
    (each : ∀ part ∈ parts, SeenInSegments (part.1.segmentCount setting view) part.2)
    (bodyDone : sequenceOf (parts.map Prod.snd) = some body)
    (loadsDone : (setting.loadsOf [condition]).result = .ok loads)
    (termDone : setting.termOf condition = .ok term) :
    SeenInSegments
      ((Fragment.operand (some condition) (parts.map Prod.fst)).segmentCount setting view)
      (some (.performAll loads (.guarded term body.enclose))) := by
  have whole := seenInSegments_sequenceOf each
  rw [bodyDone] at whole
  have guarded := whole.ofSome.1.enclose.guarded (names.isFlat_term termDone)
  rw [segmentCount, listSegmentCount_eq_sum, if_pos Option.isSome_some,
    Nat.min_eq_left (whole.one_le rfl)]
  exact .single (isSingle_loaded names loadsDone guarded)

/-- Whatever is seen of a fragment has as many segments as the fragment counts, and
is sheltered. -/
theorem Sees.seenInSegments {fragment : Fragment} {seen : Option Behaviour}
    (sees : fragment.Sees setting view seen)
    (meets : fragment.MeetsOnly (· ∈ setting.interaction.fragments)) :
    SeenInSegments (fragment.segmentCount setting view) seen := by
  induction sees with
  | message involved eventDone _ storesDone loadsDone =>
      have plain := names.topics _ (meets _ List.mem_cons_self) _ List.mem_cons_self
      exact seenInSegments_message names plain involved eventDone storesDone loadsDone
  | otherMessage uninvolved | otherCreate _ uninvolved =>
      simpa [segmentCount, uninvolved] using SeenInSegments.none
  | otherWait _ other | otherDeadlock other =>
      simpa [segmentCount, other] using SeenInSegments.none
  | wait own loadsDone termDone =>
      exact seenInSegments_wait names own loadsDone termDone
  | deadlock own =>
      rw [segmentCount, if_pos own]
      exact .single Behaviour.isSingle_stop
  | create _ involved =>
      rw [segmentCount, if_pos involved]
      exact .single (Behaviour.isSingle_unsupported (by decide))
  | loop _ loadsDone headerDone inductionHypothesis =>
      exact seenInSegments_loop names (inductionHypothesis (meets.body rfl)) loadsDone headerDone
  | otherLoop _ _ inductionHypothesis | otherCritical _ _ inductionHypothesis =>
      rw [segmentCount, (inductionHypothesis (meets.body rfl)).eq_zero]
      exact .none
  | branch kind _ areArms relevant loadsDone inductionHypothesis =>
      refine seenInSegments_branch names kind (fun part isPart => ?_) areArms relevant loadsDone
      exact inductionHypothesis part isPart
        (meets.inside rfl (List.mem_map_of_mem isPart)).unguarded
  | otherBranch kind _ inductionHypothesis =>
      have unseen := sum_eq_zero fun operand member =>
        inductionHypothesis operand member (meets.inside rfl member).unguarded
      rw [segmentCount, armsSegmentCount_eq_sum, unseen, Nat.min_zero, ite_self]
      exact .none
  | metPar _ meetsHere enterDone leaveDone inductionHypothesis =>
      rw [segmentCount, if_pos meetsHere]
      refine seenInSegments_metArms enterDone leaveDone (List.forall_mem_map.mpr ?_)
      intro part isPart
      exact (inductionHypothesis part isPart
        (meets.inside rfl (List.mem_map_of_mem isPart))).getD
  | par _ _ apart relevant inductionHypothesis =>
      refine seenInSegments_par (fun part isPart => ?_) apart relevant
      exact inductionHypothesis part isPart (meets.inside rfl (List.mem_map_of_mem isPart))
  | otherPar _ _ apart inductionHypothesis =>
      have unseen := sum_eq_zero fun operand member =>
        inductionHypothesis operand member (meets.inside rfl member)
      rw [segmentCount, if_neg (by simp [apart]), listSegmentCount_eq_sum, unseen, Nat.min_zero,
        ite_self]
      exact .none
  | duration _ own loadsDone headerDone inductionHypothesis =>
      exact seenInSegments_duration names (inductionHypothesis (meets.body rfl)) own loadsDone
        headerDone
  | otherDuration _ _ other inductionHypothesis =>
      rw [segmentCount, if_neg (by simp [other])]
      exact inductionHypothesis (meets.body rfl)
  | deadline _ relevant enforced loadsDone termDone inductionHypothesis =>
      exact seenInSegments_deadline names (inductionHypothesis (meets.body rfl)) relevant enforced
        loadsDone termDone
  | remarkedDeadline _ _ noted actorDone inductionHypothesis =>
      exact seenInSegments_remarkedDeadline names (inductionHypothesis (meets.body rfl)) noted
        actorDone
  | otherDeadline _ _ other inductionHypothesis =>
      rw [segmentCount, (inductionHypothesis (meets.body rfl)).eq_zero,
        if_neg (by simp [other]), Nat.min_zero, ite_self]
      exact .none
  | metUntil _ _ _ enterDone leaveDone =>
      exact seenInSegments_metUntil enterDone leaveDone
  | «until» _ _ _ _ internalDone inductionHypothesis =>
      have flat := isFlat_untilCall names (meets _ List.mem_cons_self) internalDone
      rw [segmentCount]
      exact .single ((inductionHypothesis (meets.body rfl)).getD.wrapped flat)
  | critical _ _ inductionHypothesis =>
      rw [segmentCount, Nat.min_eq_left ((inductionHypothesis (meets.body rfl)).one_le rfl)]
      exact .single (Behaviour.isSingle_unsupported (by decide))
  | operand _ inductionHypothesis =>
      have whole := seenInSegments_sequenceOf fun part isPart =>
        inductionHypothesis part isPart (meets.inside rfl (List.mem_map_of_mem isPart))
      simpa [segmentCount] using whole
  | guardedOperand _ bodyDone loadsDone termDone inductionHypothesis =>
      refine seenInSegments_guardedOperand names (fun part isPart => ?_) bodyDone loadsDone termDone
      exact inductionHypothesis part isPart (meets.inside rfl (List.mem_map_of_mem isPart))
  | otherOperand _ _ inductionHypothesis =>
      have unseen := sum_eq_zero fun fragment member =>
        inductionHypothesis fragment member (meets.inside rfl member)
      rw [segmentCount, listSegmentCount_eq_sum, unseen, Nat.min_zero, ite_self]
      exact .none
  | deferred _ inductionHypothesis =>
      rw [segmentCount]
      exact inductionHypothesis meets

end Names

end Fragment

/-! ## Fragments in sequence -/

namespace Setting

variable {setting : Setting} {view : Viewpoint}

/-- What is seen of the fragments at some places has the segments of each, in order, and
as many of each as the fragment counts.  Its parentheses are balanced, and no sequence
leads out from under a prefix, a guard or a choice. -/
structure CutsAtFragments (setting : Setting) (view : Viewpoint) (places : List FragmentId)
    (seen : Option Behaviour) : Prop where
  inOrder : ∃ parts : List (Option Behaviour),
    List.Forall₂ (fun place part =>
      ((setting.interaction.fragment place).project setting view).result = .ok part ∧
        (segmentsOf part).length = (setting.interaction.fragment place).segmentCount setting view)
      places parts ∧ segmentsOf seen = parts.flatMap segmentsOf
  balanced : ∀ behaviour ∈ seen, IsBalanced behaviour.text
  sheltered : ∀ behaviour ∈ seen, behaviour.IsSheltered false

private theorem cutsAtFragments
    (names : setting.specification.HasPlainNames setting.interaction.toDiagram)
    {places : List FragmentId} {seen : Option Behaviour}
    (done : (setting.projectSequence view
      (places.map setting.interaction.fragment)).result = .ok seen) :
    setting.CutsAtFragments view places seen := by
  obtain ⟨parts, partsDone, rfl⟩ := Fragment.result_inSequence_eq_ok_iff.mp done
  rw [Fragment.inTurn_projections, Attempt.result_mapM, mapM_eq_ok_iff,
    List.forall₂_map_left_iff] at partsDone
  have inSegments : ∀ place part,
      ((setting.interaction.fragment place).project setting view).result = .ok part →
      Fragment.SeenInSegments ((setting.interaction.fragment place).segmentCount setting view)
        part := by
    intro place part partDone
    exact (Fragment.sees_of_result partDone).seenInSegments names
      (Fragment.meetsOnly_unfoldFragment fun _ _ _ present => Array.mem_of_getElem? present)
  have segmented : ∀ part ∈ parts, ∀ behaviour ∈ part, behaviour.IsSegmented := by
    intro part member
    obtain ⟨place, _, partDone⟩ := exists_left_of_mem partsDone member
    exact (inSegments place part partDone).segmented
  obtain ⟨ofWhole, together⟩ := Fragment.segmentsOf_sequenceOf segmented
  constructor
  · refine ⟨parts, partsDone.imp fun place part partDone => ?_, together⟩
    exact ⟨partDone, (inSegments place part partDone).length⟩
  · exact fun behaviour isSeen => (ofWhole behaviour isSeen).cut.isBalanced
  · exact fun behaviour isSeen => (ofWhole behaviour isSeen).sheltered

theorem Sound.exists_projectSequence_of_visited (sound : setting.Sound)
    {places : List FragmentId}
    (known : ∀ place ∈ places, place.index < setting.interaction.fragments.size)
    (visited : view.synchronises = true →
      ∀ place ∈ places, setting.interaction.toDiagram.Visited false place) :
    ∃ seen, (setting.projectSequence view
      (places.map setting.interaction.fragment)).result = .ok seen := by
  have each : ∀ fragment ∈ places.map setting.interaction.fragment,
      (fragment.project setting view).Succeeds fun _ => True := by
    refine List.forall_mem_map.mpr fun place member => ?_
    have placeSound := sound.wellFormed.sound_fragment sound.wellFormed.fragmentsAcyclic
      (known place member)
    have numbered := sound.numbered_of_visited
      (fun synchronises => visited synchronises place member) placeSound
    exact sound.succeeds_project setting.admits_all placeSound numbered
  obtain ⟨seen, done, _⟩ := (Fragment.succeeds_inSequence each).exists_result
  exact ⟨seen, done⟩

end Setting

/-- The text of fragments in sequence is cut just between the fragments: it has the
segments of each, in order.  All its parentheses are balanced, and no sequence leads out
from under a prefix, a guard or a choice.  A viewpoint has such a text of any fragments,
which have to be on the walk through the body if the viewpoint meets others. -/
theorem Specification.sequences_stay_between_fragments {specification : Specification}
    {id : InteractionId} {interaction : Interaction}
    (placed : specification.interaction id = .ok interaction)
    (wellFormed : interaction.toDiagram.WellFormed specification)
    (ownersKnown : specification.OwnersKnown)
    (names : specification.HasPlainNames interaction.toDiagram) :
    ∃ setting, specification.setting id = .ok setting ∧
      (∀ view places seen,
        (setting.projectSequence view (places.map interaction.fragment)).result = .ok seen →
        setting.CutsAtFragments view places seen) ∧
      ∀ (view : Viewpoint) (places : List FragmentId),
        (∀ place ∈ places, place.index < interaction.fragments.size) →
        (view.synchronises = true →
          ∀ place ∈ places, interaction.toDiagram.Visited false place) →
        ∃ seen, (setting.projectSequence view
          (places.map interaction.fragment)).result = .ok seen := by
  obtain ⟨setting, found, sound, rfl, rfl⟩ :=
    exists_sound_setting placed wellFormed ownersKnown
  refine ⟨setting, found, ?_, ?_⟩
  · exact fun view places seen => Setting.cutsAtFragments names
  · exact fun view places => sound.exists_projectSequence_of_visited

/-- A buyer orders, meets the shop to order and receive at the same time, does both once
more, again if there is more to buy, and a last time under the eyes of the shop. -/
def delivery : Interaction where
  name := "Delivery"
  body := [⟨0⟩, ⟨4⟩, ⟨6⟩, ⟨8⟩, ⟨9⟩]
  lifelines := [⟨0⟩, ⟨1⟩]
  locals := [⟨0⟩]
  fragments := #[.message ⟨⟨0⟩, ⟨1⟩, .event "order", []⟩,
    .message ⟨⟨1⟩, ⟨0⟩, .event "parcel", []⟩, .operand none [⟨0⟩], .operand none [⟨1⟩],
    .par [⟨2⟩, ⟨3⟩], .operand none [⟨0⟩, ⟨1⟩], .branch .alt [⟨5⟩],
    .operand (some ⟨0⟩) [⟨0⟩, ⟨1⟩], .branch .opt [⟨7⟩], .deadline ⟨1⟩ ⟨1⟩ ⟨5⟩]
  expressions := #[.var ⟨0⟩, .natural 3]
  locations := []
  group := ⟨0⟩

def deliverySpecification : Specification :=
  { Specification.empty "Deliveries" with
    actors := #[⟨"Buyer", .component⟩, ⟨"Shop", .component⟩]
    actorsByName := [("Shop", ⟨1⟩), ("Buyer", ⟨0⟩)]
    vars := #[⟨"more", .bool, some ⟨0⟩⟩]
    interactions := #[delivery] }

private theorem wellFormed_delivery : delivery.toDiagram.WellFormed deliverySpecification :=
  Diagram.Closed.wellFormed (by decide) (by decide)

private theorem hasPlainNames_delivery :
    deliverySpecification.HasPlainNames delivery.toDiagram := by
  decide

def deliverySegments : List String :=
  ["Idle(order.out -> SKIP)",
    "Idle(par.0.enter -> (Idle(order.out -> SKIP) ||| Idle(parcel.out -> SKIP)))",
    "Idle(par.0.leave -> SKIP)", "Idle(order.out -> SKIP)", "Idle(parcel.out -> SKIP)",
    "Memory_Delivery::get_more?more -> " ++
      "(more & (Idle(order.out -> SKIP); Idle(parcel.out -> SKIP)) [] SKIP)",
    "\x7b- deadline on Shop -\x7d Idle(order.out -> SKIP)", "Idle(parcel.out -> SKIP)"]

theorem sequences_stay_between_fragments_delivery :
    deliverySpecification.interaction ⟨0⟩ = .ok delivery ∧
      delivery.toDiagram.WellFormed deliverySpecification ∧
      deliverySpecification.OwnersKnown ∧
      deliverySpecification.HasPlainNames delivery.toDiagram ∧
      ∃ setting behaviour, deliverySpecification.setting ⟨0⟩ = .ok setting ∧
        (setting.projectSequence (.lifeline ⟨0⟩)
          (delivery.body.map delivery.fragment)).result = .ok (some behaviour) ∧
        setting.CutsAtFragments (.lifeline ⟨0⟩) delivery.body (some behaviour) ∧
        delivery.body.map (fun place =>
          (delivery.fragment place).segmentCount setting (.lifeline ⟨0⟩)) = [1, 2, 2, 1, 2] ∧
        segments behaviour.text = deliverySegments := by
  have ownersKnown : deliverySpecification.OwnersKnown := by
    decide
  obtain ⟨setting, found, cuts, exist⟩ := Specification.sequences_stay_between_fragments
    (show deliverySpecification.interaction ⟨0⟩ = .ok delivery from rfl) wellFormed_delivery
    ownersKnown hasPlainNames_delivery
  cases found
  obtain ⟨seen, done⟩ := exist (.lifeline ⟨0⟩) delivery.body (by decide)
    fun _ place isStart => ⟨place, isStart, .refl⟩
  have cut := cuts _ _ _ done
  cases done
  refine ⟨rfl, wellFormed_delivery, ownersKnown, hasPlainNames_delivery, _, _, rfl, rfl, cut, ?_,
    ?_⟩
  · decide +kernel
  · refine (congrArg segments (?_ : _ = joinWith "; " deliverySegments)).trans ?_
    · simp only [Behaviour.enclose, Behaviour.holdsSequence_eq]
      decide +kernel
    · -- taking the parts apart one by one is faster than to read the whole text
      simp only [segments, deliverySegments, joinWith, appendAll, List.map_cons, List.map_nil,
        List.foldl_cons, List.foldl_nil, String.toList_append]
      decide +kernel

end SequenceChart
