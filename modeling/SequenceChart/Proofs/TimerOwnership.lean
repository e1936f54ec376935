import SequenceChart.Proofs.Landmarks

/-!
# Owners of timers

A deadline or a duration is enforced by one lifeline, its owner, whatever stands
around it and whether or not the owner takes part in what is timed.  All other
lifelines run what they see of the body as if there were no timer, or with a note
of the deadline in front of it.

The calls of timers in the process of a lifeline are therefore its own timers, in
the order in which the diagram has them.  Each calls the function of its kind around
what the owner sees of the timed body.
-/

namespace SequenceChart

def Timer.fragment (timer : Timer) : Fragment :=
  match timer.limit with
  | .deadline units => .deadline timer.owner units timer.body
  | .duration bound => .duration timer.owner bound timer.body

theorem Fragment.timer?_eq_some_iff {fragment : Fragment} {timer : Timer} :
    fragment.timer? = some timer ↔ fragment = timer.fragment := by
  constructor
  · intro found
    cases fragment with
    | duration owner bound body =>
        cases found
        rfl
    | deadline owner units body =>
        cases found
        rfl
    | _ =>
        cases found
  · rintro rfl
    obtain ⟨owner, limit, body⟩ := timer
    cases limit <;> rfl

/-- Whether there is anything to enforce.  A duration may have no bounds. -/
def TimeLimit.isEnforced : TimeLimit → Bool
  | .deadline _ => true
  | .duration bound => !bound.sides.isEmpty

/-- The timers of an interaction, one for each visit outside of until bodies. -/
def Setting.timers (setting : Setting) : List Timer :=
  ((Fragment.listVisits false setting.body).filterMap Fragment.timer?).filter fun timer =>
    timer.limit.isEnforced

/-- The call of a timer with the process that it times. -/
structure TimerCall where
  function : String
  arguments : List Operand
  body : Behaviour
  deriving DecidableEq, Repr

def Piece.timerCall? : Reading TimerCall
  | .call function arguments body =>
      if function ∈ timerFunctions then some ⟨function, arguments, body⟩ else none
  | _ => none

/-- The calls of timers in a printed process, from left to right. -/
def Behaviour.timerCalls (behaviour : Behaviour) : List TimerCall :=
  behaviour.pieces.filterMap Piece.timerCall?

theorem Piece.selective_timerCall? : Reading.Selective timerCall? where
  layout _ := rfl
  remark _ := rfl
  load _ _ := rfl
  handshake _ _ _ := rfl
  call _ _ _ other := if_neg other

/-- The call enforces the timer around what the owner sees of its body. -/
def Timer.EnforcedBy (setting : Setting) (timer : Timer) (call : TimerCall) : Prop :=
  ∃ seen, (timer.body.project setting (.lifeline timer.owner)).result = .ok seen ∧
    timer.limit.header setting = .ok (.call call.function call.arguments) ∧
    call.body = seen.getD .skip

/-- A limit that is enforced has the call of a timer as its header. -/
theorem TimeLimit.exists_call_of_isEnforced {setting : Setting} {limit : TimeLimit}
    {header : Header} (done : limit.header setting = .ok header)
    (enforced : limit.isEnforced = true) :
    ∃ function arguments, header = .call function arguments ∧ function ∈ timerFunctions := by
  match limit with
  | .deadline units =>
      obtain ⟨term, _, last⟩ := bind_eq_ok_iff.mp done
      cases last
      exact ⟨_, _, rfl, by decide⟩
  | .duration ⟨none, none⟩ =>
      cases enforced
  | .duration ⟨some lower, none⟩ =>
      obtain ⟨term, _, last⟩ := bind_eq_ok_iff.mp done
      cases last
      exact ⟨_, _, rfl, by decide⟩
  | .duration ⟨none, some upper⟩ =>
      obtain ⟨term, _, last⟩ := bind_eq_ok_iff.mp done
      cases last
      exact ⟨_, _, rfl, by decide⟩
  | .duration ⟨some lower, some upper⟩ =>
      obtain ⟨lowerTerm, _, rest⟩ := bind_eq_ok_iff.mp done
      obtain ⟨upperTerm, _, last⟩ := bind_eq_ok_iff.mp rest
      cases last
      exact ⟨_, _, rfl, by decide⟩

/-- Where nothing is enforced nothing is called. -/
theorem TimeLimit.timerCall_of_not_isEnforced {setting : Setting} {limit : TimeLimit}
    {header : Header} (done : limit.header setting = .ok header)
    (unenforced : limit.isEnforced = false) (body : Behaviour) :
    header.readBy Piece.timerCall? body = none := by
  match limit with
  | .deadline units =>
      cases unenforced
  | .duration ⟨none, none⟩ =>
      cases done
      rfl
  | .duration ⟨some lower, none⟩ =>
      cases unenforced
  | .duration ⟨none, some upper⟩ =>
      cases unenforced
  | .duration ⟨some lower, some upper⟩ =>
      cases unenforced

namespace Setting

variable {setting : Setting}

/-- The calls of timers in the process of a lifeline enforce its own timers. -/
theorem Shows.timerCalls {actor : ActorId} {landmarks : List Landmark}
    {items : List TimerCall}
    (shows : setting.Shows Piece.timerCall? (.lifeline actor) landmarks items)
    (settled : ∀ timer ∈ landmarks.filterMap Landmark.timer?, ∀ inner,
      timer.body.Sees setting (.lifeline actor) inner →
      (timer.body.project setting (.lifeline actor)).result = .ok inner) :
    List.Forall₂ (Timer.EnforcedBy setting)
      (((landmarks.filterMap Landmark.timer?).filter fun timer =>
        timer.limit.isEnforced).filter fun timer => timer.owner = actor) items := by
  obtain ⟨parts, shown, rfl⟩ := shows
  induction shown with
  | nil =>
      exact .nil
  | @cons landmark part landmarks parts first _ inductionHypothesis =>
      cases first with
      | @message content event _ stores _ _ _ _ =>
          have silent : (event :: stores).filterMap
              (fun performed => Piece.timerCall? (.event performed)) = [] :=
            List.filterMap_eq_nil_iff.mpr fun _ _ => rfl
          rw [silent]
          exact inductionHypothesis settled
      | otherMessage _ =>
          exact inductionHypothesis settled
      | @timer timer inner header own bodySeen headed =>
          have others := inductionHypothesis fun other member =>
            settled other (List.mem_cons_of_mem timer member)
          have ownerEq : timer.owner = actor := (of_decide_eq_true own).symm
          change List.Forall₂ _
            (((timer :: landmarks.filterMap Landmark.timer?).filter _).filter _) _
          cases enforced : timer.limit.isEnforced with
          | true =>
              obtain ⟨function, arguments, rfl, isTimer⟩ :=
                TimeLimit.exists_call_of_isEnforced headed enforced
              have bodyDone := settled timer List.mem_cons_self inner bodySeen
              have called : Header.readBy Piece.timerCall? (inner.getD .skip)
                  (.call function arguments) = some ⟨function, arguments, inner.getD .skip⟩ :=
                if_pos isTimer
              rw [List.filter_cons, if_pos enforced, List.filter_cons,
                if_pos (decide_eq_true ownerEq), called]
              exact .cons ⟨inner, ownerEq ▸ bodyDone, headed, rfl⟩ others
          | false =>
              rw [List.filter_cons, if_neg (by simp [enforced]),
                TimeLimit.timerCall_of_not_isEnforced headed enforced]
              exact others
      | @otherTimer timer other =>
          have others := inductionHypothesis fun another member =>
            settled another (List.mem_cons_of_mem timer member)
          have notOwn : ¬ timer.owner = actor := fun same =>
            of_decide_eq_false other same.symm
          change List.Forall₂ _
            (((timer :: landmarks.filterMap Landmark.timer?).filter _).filter _) _
          rw [List.filter_cons]
          split
          · rw [List.filter_cons, if_neg (by simp [notOwn])]
            exact others
          · exact others

namespace Sound

/-- What lifelines visit can be projected for each of them. -/
private theorem exists_result (sound : setting.Sound) {fragment : Fragment} {actor : ActorId}
    (fragmentSound : fragment.Sound setting.specification setting.interaction.toDiagram)
    (numbered : fragment.Numbered setting (.lifeline actor)) :
    ∃ seen, (fragment.project setting (.lifeline actor)).result = .ok seen := by
  obtain ⟨seen, done, _⟩ :=
    (sound.succeeds_project setting.admits_all fragmentSound numbered).exists_result
  exact ⟨seen, done⟩

/-- The owner of a timer exists, and the timer and its body can be projected for every
lifeline. -/
private theorem exists_timer_results (sound : setting.Sound) {timer : Timer}
    (member : timer ∈ (Fragment.listVisits false setting.body).filterMap Fragment.timer?)
    (actor : ActorId) :
    (∃ owner, setting.specification.actor timer.owner = .ok owner) ∧
      (∃ seen, (timer.body.project setting (.lifeline actor)).result = .ok seen) ∧
      ∃ whole, (timer.fragment.project setting (.lifeline actor)).result = .ok whole := by
  obtain ⟨visit, isVisit, isTimer⟩ := List.mem_filterMap.mp member
  obtain ⟨start, inBody, inStart⟩ := Fragment.mem_listVisits.mp isVisit
  have bodyNumbered : ∀ fragment ∈ setting.body, fragment.Numbered setting (.lifeline actor) :=
    Fragment.numbered_of_mem fun _ =>
      ⟨setting.meetings, sound.searched, fun _ recorded => recorded⟩
  obtain ⟨visitSound, visitNumbered⟩ :=
    (sound.sound_body start inBody).of_mem_visits (bodyNumbered start inBody) inStart
  have whole := sound.exists_result visitSound visitNumbered
  cases Fragment.timer?_eq_some_iff.mp isTimer
  obtain ⟨owner, limit, body⟩ := timer
  cases limit with
  | deadline units =>
      cases visitSound with
      | deadline ownerKnown _ bodySound =>
          exact ⟨Specification.exists_actor ownerKnown,
            sound.exists_result bodySound visitNumbered, whole⟩
  | duration bound =>
      cases visitSound with
      | duration ownerKnown _ bodySound =>
          exact ⟨Specification.exists_actor ownerKnown,
            sound.exists_result bodySound visitNumbered, whole⟩

/-- The calls of timers in the process of a lifeline are those of its own timers. -/
theorem enforcedBy_timerCalls (sound : setting.Sound) (several : 2 ≤ setting.lifelines.length)
    (avoids : setting.interaction.toDiagram.AvoidsCritical false) {actor : ActorId}
    {seen : Option Behaviour}
    (done : (setting.projectSequence (.lifeline actor) setting.body).result = .ok seen) :
    List.Forall₂ (Timer.EnforcedBy setting)
      (setting.timers.filter fun timer => timer.owner = actor)
      (seen.getD .skip).timerCalls := by
  have shows := shows_of_projectSequence Piece.selective_timerCall? several sound.searched
    avoids done
  have settled : ∀ timer ∈ (Fragment.listLandmarks false setting.body).filterMap
      Landmark.timer?, ∀ inner, timer.body.Sees setting (.lifeline actor) inner →
      (timer.body.project setting (.lifeline actor)).result = .ok inner := by
    intro timer member inner bodySeen
    rw [Fragment.filterMap_timer_listLandmarks] at member
    obtain ⟨_, ⟨other, bodyDone⟩, _⟩ := sound.exists_timer_results member actor
    rw [bodyDone, bodySeen.unique (Fragment.sees_of_result bodyDone)]
  have enforced := shows.timerCalls settled
  rwa [Fragment.filterMap_timer_listLandmarks] at enforced

end Sound

end Setting

/-- What a lifeline that does not own a timer runs in its place. -/
def TimeLimit.noted (owner : Actor) (seen : Option Behaviour) : TimeLimit → Option Behaviour
  | .deadline _ => seen.map (.remarked ("deadline on " ++ owner.name))
  | .duration _ => seen

/-- A lifeline that does not own a timer sees the body, with a note at most. -/
theorem Fragment.Sees.eq_noted {setting : Setting} (several : 2 ≤ setting.lifelines.length)
    {timer : Timer} {actor : ActorId} (other : actor ≠ timer.owner) {owner : Actor}
    (known : setting.specification.actor timer.owner = .ok owner)
    {seen whole : Option Behaviour}
    (bodySeen : timer.body.Sees setting (.lifeline actor) seen)
    (wholeSeen : timer.fragment.Sees setting (.lifeline actor) whole) :
    whole = timer.limit.noted owner seen := by
  obtain ⟨ownerId, limit, body⟩ := timer
  have notOwn : (Viewpoint.lifeline actor).isFor ownerId = false := decide_eq_false other
  cases limit with
  | deadline units =>
      cases wholeSeen with
      | deadline _ _ enforced _ _ =>
          have notAlone : ¬ setting.lifelines.length ≤ 1 := by omega
          simp [notOwn, notAlone] at enforced
      | remarkedDeadline _ innerSeen _ found =>
          cases bodySeen.unique innerSeen
          cases known.symm.trans found
          rfl
      | otherDeadline _ unseen _ =>
          cases bodySeen.unique unseen
          rfl
  | duration bound =>
      cases wholeSeen with
      | duration _ own _ _ =>
          cases own.symm.trans notOwn
      | otherDuration _ innerSeen _ =>
          exact innerSeen.unique bodySeen

/-- In the place of a timer of somebody else, a lifeline runs what it sees of the body,
with a note at most. -/
theorem Setting.Sound.exists_noted {setting : Setting} (sound : setting.Sound)
    (several : 2 ≤ setting.lifelines.length) {timer : Timer} (member : timer ∈ setting.timers)
    {actor : ActorId} (other : actor ≠ timer.owner) :
    ∃ owner seen, setting.specification.actor timer.owner = .ok owner ∧
      (timer.body.project setting (.lifeline actor)).result = .ok seen ∧
      (timer.fragment.project setting (.lifeline actor)).result =
        .ok (timer.limit.noted owner seen) := by
  have visited := (List.mem_filter.mp member).1
  obtain ⟨⟨owner, known⟩, ⟨seen, bodyDone⟩, ⟨whole, wholeDone⟩⟩ :=
    sound.exists_timer_results visited actor
  have noted := Fragment.Sees.eq_noted several other known
    (Fragment.sees_of_result bodyDone) (Fragment.sees_of_result wholeDone)
  exact ⟨owner, seen, known, bodyDone, noted ▸ wholeDone⟩

/-- Every timer outside of until bodies is enforced by its owner: the calls of timers
in the process of a lifeline are those of its own timers, in the order of the diagram,
each around what it sees of the timed body.  Together the lifelines call as many
timers as have a lifeline as their owner.  In the place of a timer, a lifeline that
does not own it runs what it sees of the body, with a note of a deadline at most. -/
theorem Specification.timers_are_enforced_by_owners {specification : Specification}
    {id : InteractionId} {interaction : Interaction}
    (placed : specification.interaction id = .ok interaction)
    (several : 2 ≤ interaction.lifelines.length)
    (distinct : interaction.lifelines.Nodup)
    (wellFormed : interaction.toDiagram.WellFormed specification)
    (ownersKnown : specification.OwnersKnown)
    (free : interaction.toDiagram.Uncritical) :
    ∃ setting, ∃ process : ActorId → Behaviour, specification.setting id = .ok setting ∧
      (∀ actor, (setting.projectBody (.lifeline actor)).result = .ok (process actor)) ∧
      (∀ actor, List.Forall₂ (Timer.EnforcedBy setting)
        (setting.timers.filter fun timer => timer.owner = actor)
        (process actor).timerCalls) ∧
      (interaction.lifelines.flatMap fun actor => (process actor).timerCalls).length =
        (setting.timers.filter fun timer => timer.owner ∈ interaction.lifelines).length ∧
      ∀ timer ∈ setting.timers, ∀ actor, actor ≠ timer.owner →
        ∃ owner seen, specification.actor timer.owner = .ok owner ∧
          (timer.body.project setting (.lifeline actor)).result = .ok seen ∧
          (timer.fragment.project setting (.lifeline actor)).result =
            .ok (timer.limit.noted owner seen) := by
  obtain ⟨setting, found, sound, rfl, rfl⟩ := exists_sound_setting placed wellFormed ownersKnown
  choose seen done using fun actor => sound.exists_projectSequence (.lifeline actor)
  have enforced := fun actor =>
    sound.enforcedBy_timerCalls several (Diagram.uncritical_iff.mp free) (done actor)
  refine ⟨setting, fun actor => (seen actor).getD .skip, found, ?_, enforced, ?_, ?_⟩
  · intro actor
    exact Attempt.result_bind_eq_ok_iff.mpr ⟨seen actor, done actor, rfl⟩
  · have counted : ∀ actor, ((seen actor).getD .skip).timerCalls.length =
        (setting.timers.filter fun timer => timer.owner = actor).length :=
      fun actor => (enforced actor).length_eq.symm
    have perm := flatMap_filter_owner_perm Timer.owner setting.timers distinct
    rw [← perm.length_eq, List.length_flatMap, List.length_flatMap]
    simp only [counted]
  · intro timer member actor other
    exact sound.exists_noted several member other

/-- The watcher of the errand enforces its deadline on a gift in which it has no part,
and the giver does not. -/
theorem timers_are_enforced_by_owners_errand :
    errandSpecification.interaction ⟨0⟩ = .ok errand ∧
      2 ≤ errand.lifelines.length ∧
      errand.lifelines.Nodup ∧
      errand.toDiagram.WellFormed errandSpecification ∧
      errandSpecification.OwnersKnown ∧
      errand.toDiagram.Uncritical ∧
      ∃ setting giver watcher, errandSpecification.setting ⟨0⟩ = .ok setting ∧
        (setting.projectBody (.lifeline ⟨0⟩)).result = .ok giver ∧
        giver.timerCalls = [] ∧
        (setting.projectBody (.lifeline ⟨2⟩)).result = .ok watcher ∧
        watcher.timerCalls = [⟨"Deadline", [.value (.natural 3)], .skip⟩] := by
  have placed : errandSpecification.interaction ⟨0⟩ = .ok errand := rfl
  have free : errand.toDiagram.Uncritical :=
    Diagram.uncritical_iff.mpr avoidsCritical_errand.outside
  refine ⟨placed, by decide, by decide, wellFormed_errand, ownersKnown_errand, free, ?_⟩
  obtain ⟨setting, process, found, done, enforced, _, _⟩ :=
    Specification.timers_are_enforced_by_owners placed (by decide) (by decide)
      wellFormed_errand ownersKnown_errand free
  obtain ⟨interaction, _, placedThere, _, rfl⟩ := Specification.setting_eq_ok_iff.mp found
  cases placed.symm.trans placedThere
  have ofGiver : (process ⟨0⟩).timerCalls = [] := by
    have length := (enforced ⟨0⟩).length_eq
    exact List.length_eq_zero_iff.mp length.symm
  have ofWatcher : (process ⟨2⟩).timerCalls =
      [⟨"Deadline", [.value (.natural 3)], .skip⟩] := by
    have onlyOne : List.Forall₂ _ [_] (process ⟨2⟩).timerCalls := enforced ⟨2⟩
    obtain ⟨call, rest, enforcedBy, restEmpty, calls⟩ := List.forall₂_cons_left_iff.mp onlyOne
    cases restEmpty
    obtain ⟨seen, seenDone, headed, body⟩ := enforcedBy
    cases seenDone
    obtain ⟨function, arguments, timed⟩ := call
    cases headed
    rw [calls, show timed = _ from body]
    rfl
  exact ⟨_, process ⟨0⟩, process ⟨2⟩, found, done ⟨0⟩, ofGiver, done ⟨2⟩, ofWatcher⟩

end SequenceChart
