import SequenceChart.Proofs.AssertionModules
import SequenceChart.Proofs.DeskIndependence

/-!
# Assertions of equality

Sides are exchanged in three places: an assertion writes the refined process first, an
equality is checked once more with its sides exchanged, and an interaction that holds is
refined by the target while one that is observed refines it.  All three agree.  The equality
of a target and an interaction is checked by what is checked for an interaction that holds
and then for one that is observed, and the desk is left in the same state.  Exchanging the
sides of an equality only exchanges its two assertions.
-/

namespace SequenceChart

open Attempt

namespace Desk

variable {α β : Type} {desk middle final : Desk}

/-- A chain is followed step by step. -/
theorem follow_bind {first : Attempt α} {next : α → Attempt β} {before after : List Notice}
    {value : α} {last : β} (followed : desk.follow first = ⟨before, .ok (middle, value)⟩)
    (continued : middle.follow (next value) = ⟨after, .ok (final, last)⟩) :
    desk.follow (first >>= next) = ⟨before ++ after, .ok (final, last)⟩ := by
  obtain ⟨rfl, done, received⟩ := follow_eq_ok_iff.mp followed
  obtain ⟨rfl, lastDone, lastReceived⟩ := follow_eq_ok_iff.mp continued
  refine follow_eq_ok_iff.mpr ⟨?_, result_bind_eq_ok_iff.mpr ⟨value, done, lastDone⟩, ?_⟩
  · rw [notices_bind, done]
  · rw [reports_bind_of_ok done, List.foldlM_append]
    exact bind_eq_ok_iff.mpr ⟨middle, received, lastReceived⟩

/-- A report about no fragment can be borne by every desk. -/
theorem bears_of_key?_eq_none (desk : Desk) {content : Report} (general : content.key? = none) :
    desk.Bears content := by
  cases content with
  | general title message severity =>
      exact trivial
  | fragment interaction fragment name location message severity =>
      cases general

/-- No desk breaks off an attempt that makes no report about a fragment. -/
theorem exists_follow {attempt : Attempt α} {value : α} (done : attempt.result = .ok value)
    (general : attempt.ReportsOnly fun content => content.key? = none) (desk : Desk) :
    ∃ final, desk.follow attempt = ⟨attempt.notices, .ok (final, value)⟩ := by
  obtain ⟨final, received⟩ := exists_foldlM_of_bears fun content member =>
    bears_of_key?_eq_none desk (general content member)
  exact ⟨final, follow_eq_ok_iff.mpr ⟨rfl, done, received⟩⟩

end Desk

namespace Specification

variable {specification : Specification} {model : SemanticModel} {negated : Bool}

/-- Assertions make no report about a fragment. -/
theorem general_assertions (property : Property) :
    (specification.assertions property).ReportsOnly fun content => content.key? = none :=
  reportsOnly_assertions (fun _ _ => rfl) property

/-- The desk has no say in the assertions of a property. -/
theorem yields_assertions_iff {desk : Desk} {property : Property} {checks : List Assertion} :
    desk.Yields (specification.assertions property) checks ↔
      (specification.assertions property).result = .ok checks := by
  constructor
  · rintro ⟨notices, final, followed⟩
    exact (Desk.follow_eq_ok_iff.mp followed).2.1
  · intro done
    obtain ⟨final, followed⟩ := Desk.exists_follow done (general_assertions property) desk
    exact ⟨_, final, followed⟩

/-- A subject whose events would come from a group that exists can be lifted. -/
theorem exists_contextIn {subject : Subject} {provider : GroupId}
    (provided : specification.eventGroup subject = .ok (some provider))
    (known : provider.index < specification.groups.size) (model : SemanticModel) :
    ∃ context, (specification.contextIn model subject).result = .ok context := by
  cases model with
  | trace =>
      exact ⟨none, rfl⟩
  | timed =>
      obtain ⟨group, placed⟩ := exists_group known
      obtain ⟨name, named⟩ := exists_groupName known
      have found : specification.contextGroup subject =
          .ok (if group.target.isSome then some provider else none) :=
        bind_eq_ok_iff.mpr ⟨some provider, provided, bind_eq_ok_iff.mpr ⟨group, placed, rfl⟩⟩
      by_cases given : group.target.isSome = true
      · rw [if_pos given] at found
        exact ⟨some name, result_bind_eq_ok_iff.mpr ⟨name,
          result_bind_eq_ok_iff.mpr ⟨some provider, found, named⟩, rfl⟩⟩
      · rw [if_neg given] at found
        exact ⟨some emptyContext, result_bind_eq_ok_iff.mpr ⟨emptyContext,
          result_bind_eq_ok_iff.mpr ⟨none, found, rfl⟩, rfl⟩⟩

private theorem exists_sideOf (linked : specification.Linked) (model : SemanticModel)
    (subject : Subject) (known : subject.Known specification) {provider : GroupId}
    (provided : specification.eventGroup subject = .ok (some provider))
    (providerKnown : provider.index < specification.groups.size) :
    ∃ side, (specification.sideOf model subject).result = .ok side := by
  obtain ⟨_, _, reference, _, _, referenceDone, _⟩ := exists_reference linked known
  obtain ⟨context, contextDone⟩ := exists_contextIn provided providerKnown model
  exact ⟨⟨context, reference⟩, result_bind_eq_ok_iff.mpr ⟨reference, referenceDone,
    result_bind_eq_ok_iff.mpr ⟨context, contextDone, rfl⟩⟩⟩

/-- An interaction and the target of its group can both stand in an assertion. -/
theorem exists_sides_of_interaction (linked : specification.Linked) {id : InteractionId}
    {interaction : Interaction} (placed : specification.interaction id = .ok interaction)
    (model : SemanticModel) :
    ∃ own target, (specification.sideOf model (.interaction id)).result = .ok own ∧
      (specification.sideOf model (.target interaction.group)).result = .ok target := by
  have found := entryAt_eq_ok_iff.mp placed
  have grouped := linked.interactionsGrouped interaction (Array.mem_of_getElem? found)
  have provided : specification.eventGroup (.interaction id) = .ok (some interaction.group) :=
    bind_eq_ok_iff.mpr ⟨interaction, placed, rfl⟩
  obtain ⟨own, ownDone⟩ := exists_sideOf linked model (.interaction id)
    (Array.getElem?_eq_some_iff.mp found).1 provided grouped
  obtain ⟨target, targetDone⟩ := exists_sideOf linked model (.target interaction.group)
    grouped rfl grouped
  exact ⟨own, target, ownDone, targetDone⟩

/-- A refinement is checked by one assertion, with the refined side first. -/
theorem result_refines_iff {left right : Subject} {checks : List Assertion} :
    (specification.assertions (.refinement ⟨model, .refines, negated, left, right⟩)).result =
        .ok checks ↔
      ∃ concrete abstract, (specification.sideOf model left).result = .ok concrete ∧
        (specification.sideOf model right).result = .ok abstract ∧
        checks = [.refinement negated model abstract concrete] := by
  constructor
  · intro done
    obtain ⟨only, onlyDone, last⟩ := result_bind_eq_ok_iff.mp done
    obtain ⟨concrete, concreteDone, rest⟩ := result_bind_eq_ok_iff.mp onlyDone
    obtain ⟨abstract, abstractDone, written⟩ := result_bind_eq_ok_iff.mp rest
    cases written
    cases last
    exact ⟨concrete, abstract, concreteDone, abstractDone, rfl⟩
  · rintro ⟨concrete, abstract, concreteDone, abstractDone, rfl⟩
    exact result_bind_eq_ok_iff.mpr ⟨_, result_bind_eq_ok_iff.mpr ⟨concrete, concreteDone,
      result_bind_eq_ok_iff.mpr ⟨abstract, abstractDone, rfl⟩⟩, rfl⟩

/-- An equality is a refinement and then the converse one. -/
theorem assertions_equals (left right : Subject) :
    specification.assertions (.refinement ⟨model, .equals, negated, left, right⟩) = do
      let first ← specification.assertions (.refinement ⟨model, .refines, negated, left, right⟩)
      let second ← specification.assertions (.refinement ⟨model, .refines, negated, right, left⟩)
      return first ++ second := by
  simp only [assertions, refinementAssertions, bind_assoc, pure_bind]
  rfl

/-- An interaction that holds is refined by the target, and one that is observed refines
it. -/
theorem assertions_sequence {id : InteractionId} {interaction : Interaction}
    (placed : specification.interaction id = .ok interaction) (model : SemanticModel)
    (negated : Bool) :
    specification.assertions (.sequence ⟨.holds, model, negated, id⟩) =
        specification.assertions (.refinement
          ⟨model, .refines, negated, .target interaction.group, .interaction id⟩) ∧
      specification.assertions (.sequence ⟨.observed, model, negated, id⟩) =
        specification.assertions (.refinement
          ⟨model, .refines, negated, .interaction id, .target interaction.group⟩) := by
  simp only [assertions, sequenceRefinement, placed]
  exact ⟨rfl, rfl⟩

theorem result_equals_iff {left right : Subject} {checks : List Assertion} :
    (specification.assertions (.refinement ⟨model, .equals, negated, left, right⟩)).result =
        .ok checks ↔
      ∃ one other, (specification.sideOf model left).result = .ok one ∧
        (specification.sideOf model right).result = .ok other ∧
        checks = [.refinement negated model other one, .refinement negated model one other] := by
  rw [assertions_equals]
  constructor
  · intro done
    obtain ⟨first, firstDone, rest⟩ := result_bind_eq_ok_iff.mp done
    obtain ⟨second, secondDone, last⟩ := result_bind_eq_ok_iff.mp rest
    obtain ⟨one, other, oneDone, otherDone, rfl⟩ := result_refines_iff.mp firstDone
    obtain ⟨_, _, otherSame, oneSame, rfl⟩ := result_refines_iff.mp secondDone
    cases oneDone.symm.trans oneSame
    cases otherDone.symm.trans otherSame
    cases last
    exact ⟨one, other, oneDone, otherDone, rfl⟩
  · rintro ⟨one, other, oneDone, otherDone, rfl⟩
    exact result_bind_eq_ok_iff.mpr
      ⟨_, result_refines_iff.mpr ⟨one, other, oneDone, otherDone, rfl⟩,
        result_bind_eq_ok_iff.mpr
          ⟨_, result_refines_iff.mpr ⟨other, one, otherDone, oneDone, rfl⟩, rfl⟩⟩

/-- The equality of a target and an interaction is checked by the assertions of the
interaction holding and then of it being observed.  Whatever desk takes in the notices, it
comes to the same state.  Of any two subjects, the equality is checked by the same two
assertions whichever comes first, in the opposite order. -/
theorem equality_is_checked_both_ways (built : specification.Built) {id : InteractionId}
    {interaction : Interaction} (placed : specification.interaction id = .ok interaction)
    (model : SemanticModel) (negated : Bool) (desk : Desk) :
    (∃ own target middle final before after,
      (specification.sideOf model (.interaction id)).result = .ok own ∧
      (specification.sideOf model (.target interaction.group)).result = .ok target ∧
      desk.follow (specification.assertions (.sequence ⟨.holds, model, negated, id⟩)) =
        ⟨before, .ok (middle, [.refinement negated model own target])⟩ ∧
      middle.follow (specification.assertions (.sequence ⟨.observed, model, negated, id⟩)) =
        ⟨after, .ok (final, [.refinement negated model target own])⟩ ∧
      desk.follow (specification.assertions (.refinement
          ⟨model, .equals, negated, .target interaction.group, .interaction id⟩)) =
        ⟨before ++ after, .ok (final,
          [.refinement negated model own target] ++ [.refinement negated model target own])⟩) ∧
    (∀ (one other : Subject) (elsewhere : Desk) (checks : List Assertion),
      desk.Yields (specification.assertions
          (.refinement ⟨model, .equals, negated, one, other⟩)) checks ↔
        elsewhere.Yields (specification.assertions
          (.refinement ⟨model, .equals, negated, other, one⟩)) checks.reverse) ∧
    (specification.EventsKnown → ∀ one other : Subject, one.Known specification →
      other.Known specification → ∃ checks, desk.Yields (specification.assertions
        (.refinement ⟨model, .equals, negated, one, other⟩)) checks) := by
  refine ⟨?_, ?_, ?_⟩
  · obtain ⟨own, target, ownDone, targetDone⟩ :=
      exists_sides_of_interaction built.linked placed model
    obtain ⟨holds, observed⟩ := assertions_sequence placed model negated
    rw [holds, observed, assertions_equals]
    obtain ⟨middle, first⟩ := Desk.exists_follow
      (result_refines_iff.mpr ⟨target, own, targetDone, ownDone, rfl⟩) (general_assertions _) desk
    obtain ⟨final, second⟩ := Desk.exists_follow
      (result_refines_iff.mpr ⟨own, target, ownDone, targetDone, rfl⟩) (general_assertions _)
      middle
    refine ⟨own, target, middle, final, _, _, ownDone, targetDone, first, second, ?_⟩
    refine Desk.follow_bind first ?_
    rw [← List.append_nil (Attempt.notices _)]
    exact Desk.follow_bind second rfl
  · intro one other elsewhere checks
    rw [yields_assertions_iff, yields_assertions_iff, result_equals_iff, result_equals_iff]
    constructor
    · rintro ⟨oneSide, otherSide, oneDone, otherDone, rfl⟩
      exact ⟨otherSide, oneSide, otherDone, oneDone, rfl⟩
    · rintro ⟨otherSide, oneSide, otherDone, oneDone, reversed⟩
      exact ⟨oneSide, otherSide, oneDone, otherDone, List.reverse_eq_iff.mp reversed⟩
  · intro eventsKnown one other oneKnown otherKnown
    obtain ⟨oneSide, oneDone, _⟩ := exists_side built.linked eventsKnown model oneKnown
    obtain ⟨otherSide, otherDone, _⟩ := exists_side built.linked eventsKnown model otherKnown
    exact ⟨_, yields_assertions_iff.mpr
      (result_equals_iff.mpr ⟨oneSide, otherSide, oneDone, otherDone, rfl⟩)⟩

end Specification

/-- The group of the handover has no target, so each of the two assertions comes with a
warning. -/
theorem equality_is_checked_both_ways_handover :
    handoverSpecification.Built ∧
      handoverSpecification.interaction ⟨0⟩ = .ok ⟨handover, ⟨0⟩⟩ ∧
      ∃ held observed middle final before after,
        handoverDesk.follow (handoverSpecification.assertions
          (.sequence ⟨.holds, .timed, true, ⟨0⟩⟩)) = ⟨before, .ok (middle, [held])⟩ ∧
        middle.follow (handoverSpecification.assertions
          (.sequence ⟨.observed, .timed, true, ⟨0⟩⟩)) = ⟨after, .ok (final, [observed])⟩ ∧
        handoverDesk.follow (handoverSpecification.assertions (.refinement
          ⟨.timed, .equals, true, .target ⟨0⟩, .interaction ⟨0⟩⟩)) =
            ⟨before ++ after, .ok (final, [held, observed])⟩ ∧
        handoverDesk.Yields (handoverSpecification.assertions (.refinement
          ⟨.timed, .equals, true, .interaction ⟨0⟩, .target ⟨0⟩⟩)) [observed, held] ∧
        held.text = "assert not EmptyContext::TT(Given::Handover::Main) [T= " ++
          "EmptyContext::TT(STOP \x7b- Given has no target -\x7d)" ∧
        observed.text = "assert not EmptyContext::TT(STOP \x7b- Given has no target -\x7d) [T= " ++
          "EmptyContext::TT(Given::Handover::Main)" ∧
        final.warnings = 2 := by
  have placed : handoverSpecification.interaction ⟨0⟩ = .ok ⟨handover, ⟨0⟩⟩ := rfl
  obtain ⟨⟨own, target, middle, final, before, after, ownDone, targetDone, holds, observed,
    equals⟩, exchanged, _⟩ := Specification.equality_is_checked_both_ways built_handover placed
      .timed true handoverDesk
  have swapped := (exchanged _ _ handoverDesk _).mp ⟨_, _, equals⟩
  have warned : (handoverDesk.follow (handoverSpecification.assertions (.refinement
      ⟨.timed, .equals, true, .target ⟨0⟩, .interaction ⟨0⟩⟩))).result.map
        (fun pair => pair.1.warnings) = .ok 2 := rfl
  rw [equals] at warned
  cases ownDone
  cases targetDone
  exact ⟨built_handover, placed, _, _, middle, final, before, after, holds, observed, equals,
    swapped, by decide +kernel, by decide +kernel, Except.ok.inj warned⟩

end SequenceChart
