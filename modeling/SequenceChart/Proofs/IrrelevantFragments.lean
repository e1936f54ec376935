import SequenceChart.Proofs.Landmarks
import SequenceChart.Proofs.Relevance
import SequenceChart.Proofs.Walks

/-!
A viewpoint that a fragment does not concern sees nothing of it, and nothing is
noted down about it: no log record, no report.  This holds wherever the fragment
stands, on the walk through the body or not.  It is shown for each kind of
fragment from the parts that it is made of, and then for all places of the table,
as deep as references are followed.

A fragment that does concern the viewpoint comes to something wherever its
meetings are recorded, which is the case on the walk.
-/

namespace SequenceChart

theorem Attempt.exists_mapM_eq_pure {α β : Type} {work : α → Attempt β} {holds : β → Prop}
    {items : List α} (each : ∀ item ∈ items, ∃ value, holds value ∧ work item = pure value) :
    ∃ values, (∀ value ∈ values, holds value) ∧ items.mapM work = pure values := by
  induction items with
  | nil =>
      exact ⟨[], by simp, rfl⟩
  | cons item rest inductionHypothesis =>
      obtain ⟨value, valueHolds, done⟩ := each item List.mem_cons_self
      obtain ⟨values, valuesHold, restDone⟩ := inductionHypothesis fun other member =>
        each other (List.mem_cons_of_mem item member)
      refine ⟨value :: values, List.forall_mem_cons.mpr ⟨valueHolds, valuesHold⟩, ?_⟩
      rw [List.mapM_cons, done, restDone]
      rfl

namespace Fragment

/-- The viewpoint sees nothing of the fragment, and no notice is made. -/
def Unseen (setting : Setting) (view : Viewpoint) (fragment : Fragment) : Prop :=
  fragment.project setting view = pure none

variable {setting : Setting} {view : Viewpoint}

theorem Unseen.deferred {content : Unit → Fragment} (unseen : (content ()).Unseen setting view) :
    (Fragment.deferred content).Unseen setting view := by
  rw [Unseen, project]
  exact unseen

theorem Unseen.loop {body : Fragment} (unseen : body.Unseen setting view)
    (bound : Option Bound) : (Fragment.loop bound body).Unseen setting view := by
  rw [Unseen, project, unseen]
  rfl

theorem Unseen.critical {body : Fragment} (unseen : body.Unseen setting view)
    (id : FragmentId) : (Fragment.critical id body).Unseen setting view := by
  rw [Unseen, project, unseen]
  rfl

private theorem timedBody_of_other {owner : ActorId} (other : view.isFor owner = false) :
    setting.timedBody view owner none = pure none := by
  rw [Setting.timedBody, other]
  rfl

theorem Unseen.duration {body : Fragment} {owner : ActorId}
    (unseen : body.Unseen setting view) (other : view.isFor owner = false) (bound : Bound) :
    (Fragment.duration owner bound body).Unseen setting view := by
  rw [Unseen, project, unseen, pure_bind, timedBody_of_other other]
  rfl

theorem Unseen.deadline {body : Fragment} {owner : ActorId}
    (unseen : body.Unseen setting view) (other : view.isFor owner = false)
    (units : ExpressionId) : (Fragment.deadline owner units body).Unseen setting view := by
  rw [Unseen, project, unseen, pure_bind, timedBody_of_other other]
  rfl

/-- Of fragments that are all unseen, one after the other, nothing is seen. -/
private theorem inTurn_of_unseen {fragments : List Fragment}
    (each : ∀ fragment ∈ fragments, fragment.Unseen setting view) :
    ∃ parts, (∀ part ∈ parts, part = none) ∧
      inTurn (projections setting view fragments) = pure parts := by
  rw [inTurn_projections]
  exact Attempt.exists_mapM_eq_pure fun fragment member => ⟨none, rfl, each fragment member⟩

private theorem unseen_operand {fragments : List Fragment}
    (each : ∀ fragment ∈ fragments, fragment.Unseen setting view)
    (guard : Option ExpressionId) : (Fragment.operand guard fragments).Unseen setting view := by
  obtain ⟨parts, noParts, done⟩ := inTurn_of_unseen each
  have nothing : inSequence (projections setting view fragments) = pure none := by
    rw [inSequence, done]
    change Attempt.finished (.ok (sequenceOf parts)) = .finished (.ok none)
    rw [sequenceOf_eq_none_iff.mpr noParts]
  rw [Unseen, project, nothing]
  rfl

private theorem unseen_par {operands : List Fragment}
    (each : ∀ operand ∈ operands, operand.Unseen setting view)
    (apart : setting.meetsAt view .par = false) (id : FragmentId) :
    (Fragment.par id operands).Unseen setting view := by
  obtain ⟨parts, noParts, done⟩ := inTurn_of_unseen each
  have nothing : parts.all Option.isNone = true := by
    rw [List.all_eq_true]
    intro part member
    rw [noParts part member]
    rfl
  rw [Unseen, project, done, pure_bind, Setting.projectPar, apart, nothing]
  rfl

/-- The arm of an operand of which nothing is seen.  Its guard is worked out all the same. -/
private theorem exists_irrelevant_arm {guard : Option ExpressionId}
    (known : ∀ condition, guard = some condition → ∃ term, setting.termOf condition = .ok term) :
    ∃ arm, arm.relevant = false ∧
      setting.projectArm guard (fun _ => pure none) = pure arm := by
  cases guard with
  | none =>
      exact ⟨_, rfl, rfl⟩
  | some condition =>
      obtain ⟨term, found⟩ := known condition rfl
      refine ⟨⟨some condition, false, .guarded term Behaviour.skip.enclose⟩, rfl, ?_⟩
      rw [Setting.projectArm, pure_bind]
      simp only [found]
      rfl

private theorem unseen_branch {operands : List Fragment}
    (each : ∀ operand ∈ operands, operand.unguarded.Unseen setting view)
    (guards : ∀ operand ∈ operands, ∀ condition, operand.guard = some condition →
      ∃ term, setting.termOf condition = .ok term)
    (kind : BranchKind) : (Fragment.branch kind operands).Unseen setting view := by
  have arms : ∃ arms : List Setting.Arm, (∀ arm ∈ arms, arm.relevant = false) ∧
      ((operandProjections setting view operands).mapM fun operand =>
        setting.projectArm operand.1 operand.2) = pure arms := by
    rw [operandProjections_eq_map]
    apply Attempt.exists_mapM_eq_pure
    intro listed member
    obtain ⟨operand, isOperand, rfl⟩ := List.mem_map.mp member
    rw [each operand isOperand]
    exact exists_irrelevant_arm (guards operand isOperand)
  obtain ⟨arms, irrelevant, done⟩ := arms
  have nothing : arms.any Setting.Arm.relevant = false := by
    rw [List.any_eq_false]
    intro arm member
    rw [irrelevant arm member]
    exact Bool.false_ne_true
  rw [Unseen, project, done, pure_bind, Setting.projectBranch, nothing]
  rfl

end Fragment

namespace Setting

variable {setting : Setting} {view : Viewpoint}

/-- A place that does not concern the viewpoint, and its parts. -/
theorem irrelevant_iff {place : FragmentId} {entry : FragmentEntry}
    (present : setting.interaction.fragments[place.index]? = some entry) :
    ¬ setting.Concerns view place ↔ entry.concernsItself setting view = false ∧
      ∀ child ∈ entry.entered, ¬ setting.Concerns view child := by
  rw [concerns_iff present, not_or, Bool.not_eq_true]
  simp only [not_exists, not_and]

namespace Sound

/-- Of an irrelevant operand of a branch nothing is seen behind its guard. -/
private theorem unseen_branchOperand (sound : setting.Sound) {limit : Nat}
    {place : FragmentId}
    (below : ∀ child, (setting.interaction.unfoldFragment limit child).Sound
        setting.specification setting.interaction.toDiagram →
      ¬ setting.Concerns view child →
      (setting.interaction.unfoldFragment limit child).Unseen setting view)
    (operandSound : (setting.interaction.branchOperand (fun child =>
      .deferred fun _ => setting.interaction.unfoldFragment limit child) place).Sound
        setting.specification setting.interaction.toDiagram)
    (irrelevant : ¬ setting.Concerns view place) :
    (setting.interaction.branchOperand (fun child =>
      .deferred fun _ => setting.interaction.unfoldFragment limit child)
        place).unguarded.Unseen setting view ∧
    ∀ condition, (setting.interaction.branchOperand (fun child =>
      .deferred fun _ => setting.interaction.unfoldFragment limit child)
        place).guard = some condition → ∃ term, setting.termOf condition = .ok term := by
  unfold Diagram.branchOperand at operandSound ⊢
  split at operandSound
  · rename_i guard fragments found
    obtain ⟨_, children⟩ := (irrelevant_iff (entryAt_eq_ok_iff.mp found)).mp irrelevant
    cases operandSound with
    | operand guardKnown fragmentsSound =>
        refine ⟨Fragment.unseen_operand ?_ none, ?_⟩
        · intro fragment isMapped
          have fragmentSound := fragmentsSound fragment isMapped
          obtain ⟨child, isChild, rfl⟩ := List.mem_map.mp isMapped
          cases fragmentSound with
          | deferred childSound =>
              exact (below child childSound (children child isChild)).deferred
        · intro condition isGuard
          exact sound.exists_termOf (guardKnown condition (Option.mem_toList.mpr isGuard))
  · cases operandSound with
    | deferred childSound =>
        refine ⟨(below place childSound irrelevant).deferred, ?_⟩
        intro condition isGuard
        cases isGuard

/-- Nothing is seen of what stands at a place that does not concern the viewpoint. -/
theorem unseen_of_not_concerns (sound : setting.Sound) {limit : Nat} {place : FragmentId}
    (placeSound : (setting.interaction.unfoldFragment limit place).Sound
      setting.specification setting.interaction.toDiagram)
    (irrelevant : ¬ setting.Concerns view place) :
    (setting.interaction.unfoldFragment limit place).Unseen setting view := by
  induction limit generalizing place with
  | zero =>
      cases placeSound
  | succ limit inductionHypothesis =>
      cases looked : entryAt setting.interaction.fragments place.index with
      | error fault =>
          rw [Diagram.unfoldFragment, looked] at placeSound
          cases placeSound
      | ok entry =>
          obtain ⟨apart, children⟩ := (irrelevant_iff (entryAt_eq_ok_iff.mp looked)).mp irrelevant
          have later : ∀ child ∈ entry.entered,
              (Fragment.deferred fun _ => setting.interaction.unfoldFragment limit child).Sound
                setting.specification setting.interaction.toDiagram →
              (Fragment.deferred fun _ =>
                setting.interaction.unfoldFragment limit child).Unseen setting view := by
            intro child isChild childSound
            cases childSound with
            | deferred contentSound =>
                exact (inductionHypothesis contentSound (children child isChild)).deferred
          rw [Diagram.unfoldFragment, looked] at placeSound ⊢
          cases entry with
          | message | wait | create =>
              rw [Fragment.Unseen, Fragment.project]
              exact if_neg (ne_true_of_eq_false apart)
          | deadlock actor =>
              have other : view.isFor actor = false := apart
              rw [Fragment.Unseen, Fragment.project, other]
              rfl
          | loop bound body =>
              cases placeSound with
              | loop _ _ bodySound =>
                  exact (later body List.mem_cons_self bodySound).loop bound
          | branch kind operands =>
              cases placeSound with
              | branch _ operandsSound =>
                  have ofOperand := fun child (isChild : child ∈ operands) =>
                    sound.unseen_branchOperand (fun _ => inductionHypothesis)
                      (operandsSound _ (List.mem_map_of_mem isChild)) (children child isChild)
                  apply Fragment.unseen_branch
                  · intro operand isMapped
                    obtain ⟨child, isChild, rfl⟩ := List.mem_map.mp isMapped
                    exact (ofOperand child isChild).1
                  · intro operand isMapped
                    obtain ⟨child, isChild, rfl⟩ := List.mem_map.mp isMapped
                    exact (ofOperand child isChild).2
          | par operands =>
              cases placeSound with
              | par _ operandsSound =>
                  refine Fragment.unseen_par ?_ apart place
                  intro operand isMapped
                  have operandSound := operandsSound operand isMapped
                  obtain ⟨child, isChild, rfl⟩ := List.mem_map.mp isMapped
                  exact later child isChild operandSound
          | duration owner bound body =>
              cases placeSound with
              | duration _ _ bodySound =>
                  exact (later body List.mem_cons_self bodySound).duration apart bound
          | deadline owner units body =>
              cases placeSound with
              | deadline _ _ bodySound =>
                  exact (later body List.mem_cons_self bodySound).deadline apart units
          | «until» intra body =>
              cases apart
          | critical body =>
              cases placeSound with
              | critical _ bodySound =>
                  exact (later body List.mem_cons_self bodySound).critical place
          | operand guard fragments =>
              cases placeSound with
              | operand _ fragmentsSound =>
                  refine Fragment.unseen_operand ?_ guard
                  intro fragment isMapped
                  have fragmentSound := fragmentsSound fragment isMapped
                  obtain ⟨child, isChild, rfl⟩ := List.mem_map.mp isMapped
                  exact later child isChild fragmentSound

/-- On the walk, the meetings inside of a fragment are recorded. -/
theorem numbered_of_visited (sound : setting.Sound) {place : FragmentId}
    (visited : view.synchronises = true →
      setting.interaction.toDiagram.Visited false place)
    (placeSound : (setting.interaction.fragment place).Sound
      setting.specification setting.interaction.toDiagram) :
    (setting.interaction.fragment place).Numbered setting view := by
  intro synchronises
  obtain ⟨found, searched, _⟩ := placeSound.exists_meetings
  obtain ⟨inside, insideWalk, stand⟩ := Diagram.madeOnWalk_of_meetings searched
  obtain ⟨places, walk, recorded, _⟩ := exists_walk sound.searched
  refine ⟨found, searched, ?_⟩
  intro meeting member
  rw [← Fragment.filterMap_meeting_visits searched] at member
  change meeting ∈ ((setting.interaction.unfoldFragment _ place).visits false).filterMap _ at member
  rw [Diagram.filterMap_of_standsAt Diagram.StandsAt.meeting?_eq stand] at member
  obtain ⟨reached, isInside, isMeeting⟩ := List.mem_filterMap.mp member
  obtain ⟨_, isPlace, path⟩ := insideWalk.mem_iff.mp isInside
  cases List.mem_singleton.mp isPlace
  obtain ⟨start, inBody, before⟩ := visited synchronises
  have onWalk : reached ∈ places := walk.mem_iff.mpr ⟨start, inBody, before.trans path⟩
  rw [recorded]
  exact List.mem_filterMap.mpr ⟨reached, onWalk, isMeeting⟩

end Sound

end Setting

namespace Specification

/-- A projection comes to nothing if and only if the fragment does not concern the
viewpoint.  It then leaves the desk as it is.  What does concern the viewpoint comes to
something where the meetings of the fragment are recorded. -/
theorem unseen_iff_not_concerned {specification : Specification} {id : InteractionId}
    {interaction : Interaction} (placed : specification.interaction id = .ok interaction)
    (wellFormed : interaction.toDiagram.WellFormed specification)
    (ownersKnown : specification.OwnersKnown) :
    ∃ setting, specification.setting id = .ok setting ∧
      ∀ view place, place.index < interaction.fragments.size →
        (∀ (desk : Desk) notices final,
          desk.follow ((interaction.fragment place).project setting view) =
              ⟨notices, .ok (final, none)⟩ ↔
            ¬ setting.Concerns view place ∧ notices = [] ∧ final = desk) ∧
        (setting.Concerns view place →
          (view.synchronises = true → interaction.toDiagram.Visited false place) →
          ∃ behaviour, ((interaction.fragment place).project setting view).result =
            .ok (some behaviour)) := by
  obtain ⟨setting, found, sound, rfl, rfl⟩ :=
    exists_sound_setting placed wellFormed ownersKnown
  refine ⟨setting, found, fun view place known => ?_⟩
  have placeSound := wellFormed.sound_fragment wellFormed.fragmentsAcyclic known
  have follows : setting.Follows view place (setting.interaction.fragment place) :=
    Setting.follows_unfoldFragment _ view place
  constructor
  · intro desk notices final
    constructor
    · intro carried
      obtain ⟨_, done, _⟩ := Desk.follow_eq_ok_iff.mp carried
      have irrelevant : ¬ setting.Concerns view place := by
        rw [← follows.relevant done]
        exact Bool.false_ne_true
      have unseen := sound.unseen_of_not_concerns placeSound irrelevant
      rw [Diagram.fragment, unseen] at carried
      cases carried
      exact ⟨irrelevant, rfl, rfl⟩
    · rintro ⟨irrelevant, rfl, rfl⟩
      rw [Diagram.fragment, sound.unseen_of_not_concerns placeSound irrelevant]
      rfl
  · intro concerns visited
    obtain ⟨seen, done, _⟩ := (sound.succeeds_project setting.admits_all placeSound
      (sound.numbered_of_visited visited placeSound)).exists_result
    obtain ⟨behaviour, rfl⟩ := Option.isSome_iff_exists.mp ((follows.relevant done).mpr concerns)
    exact ⟨behaviour, done⟩

end Specification

/-- The loop of the errand has no part for the one to whom it is reported, while the
watcher sees it. -/
theorem unseen_iff_not_concerned_errand :
    errandSpecification.interaction ⟨0⟩ = .ok errand ∧
      errand.toDiagram.WellFormed errandSpecification ∧ errandSpecification.OwnersKnown ∧
      ∃ setting behaviour, errandSpecification.setting ⟨0⟩ = .ok setting ∧
        (Desk.empty true).follow ((errand.fragment ⟨6⟩).project setting (.lifeline ⟨3⟩)) =
          ⟨[], .ok (.empty true, none)⟩ ∧
        ¬ setting.Concerns (.lifeline ⟨3⟩) ⟨6⟩ ∧
        setting.Concerns (.lifeline ⟨2⟩) ⟨6⟩ ∧
        ((errand.fragment ⟨6⟩).project setting (.lifeline ⟨2⟩)).result =
          .ok (some behaviour) := by
  have placed : errandSpecification.interaction ⟨0⟩ = .ok errand := rfl
  obtain ⟨setting, found, interaction, unseen⟩ :
      ∃ setting, errandSpecification.setting ⟨0⟩ = .ok setting ∧ setting.interaction = errand ∧
        (Desk.empty true).follow ((errand.fragment ⟨6⟩).project setting (.lifeline ⟨3⟩)) =
          ⟨[], .ok (.empty true, none)⟩ :=
    ⟨_, rfl, rfl, rfl⟩
  obtain ⟨same, foundSame, each⟩ :=
    Specification.unseen_iff_not_concerned placed wellFormed_errand ownersKnown_errand
  cases found.symm.trans foundSame
  have irrelevant := (((each _ ⟨6⟩ (by decide)).1 _ _ _).mp unseen).1
  -- the watcher receives what is passed on in the branch of the loop
  have loops : setting.interaction.toDiagram.LeadsTo ⟨6⟩ ⟨4⟩ := by
    rw [interaction]
    exact ⟨_, rfl, List.mem_cons_self⟩
  have branches : setting.interaction.toDiagram.LeadsTo ⟨4⟩ ⟨1⟩ := by
    rw [interaction]
    exact ⟨_, rfl, List.mem_cons_of_mem _ List.mem_cons_self⟩
  have passed : setting.interaction.fragments[1]? =
      some (.message ⟨⟨1⟩, ⟨2⟩, .event "pass", [.bind ⟨0⟩, .bind ⟨0⟩]⟩) := by
    rw [interaction]
    rfl
  have concerned : setting.Concerns (.lifeline ⟨2⟩) ⟨6⟩ :=
    .inside loops (.inside branches (.itself passed rfl))
  obtain ⟨behaviour, done⟩ := (each (.lifeline ⟨2⟩) ⟨6⟩ (by decide)).2 concerned fun _ =>
    ⟨⟨6⟩, by decide, .refl⟩
  exact ⟨placed, wellFormed_errand, ownersKnown_errand, setting, behaviour, found, unseen,
    irrelevant, concerned, done⟩

end SequenceChart
