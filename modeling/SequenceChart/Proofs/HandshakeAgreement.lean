import SequenceChart.Proofs.ProjectionSuccess
import SequenceChart.Proofs.QuietProjection

/-!
# Agreement on handshakes

All lifelines of an interaction go through its meetings in the same order: a
projection drops what is irrelevant to a lifeline, but never a fragment in
which lifelines meet.  The passages of a fragment say in which order its
meetings are entered and left.  They do not depend on the lifeline, and every
projection names exactly them.

A critical region is not run by anyone, and takes the meetings inside of it out
of all projections alike.  Where there is none, the meetings are entered in the
order in which they were recorded, and each is left once.
-/

namespace SequenceChart

/-- One half of a meeting. -/
structure Passage where
  meeting : Meeting
  phase : Phase
  deriving DecidableEq, Repr

namespace Fragment

mutual

def passages : Fragment → List Passage
  | .message _ => []
  | .wait _ _ => []
  | .deadlock _ => []
  | .create _ _ _ => []
  | .loop _ body => body.passages
  | .branch _ operands => listPassages operands
  | .par id operands =>
      ⟨⟨.par, id⟩, .enter⟩ :: (listPassages operands ++ [⟨⟨.par, id⟩, .leave⟩])
  | .duration _ _ body => body.passages
  | .deadline _ _ body => body.passages
  | .until id _ _ => [⟨⟨.until, id⟩, .enter⟩, ⟨⟨.until, id⟩, .leave⟩]
  | .critical _ _ => []
  | .operand _ fragments => listPassages fragments
  | .deferred content => (content ()).passages
  | .unresolved _ => []

def listPassages : List Fragment → List Passage
  | [] => []
  | fragment :: rest => fragment.passages ++ listPassages rest

end

@[simp]
theorem listPassages_eq_flatMap (fragments : List Fragment) :
    listPassages fragments = fragments.flatMap passages := by
  induction fragments with
  | nil =>
      rfl
  | cons fragment rest inductionHypothesis =>
      rw [listPassages, List.flatMap_cons, inductionHypothesis]

private theorem passages_unguarded (fragment : Fragment) :
    fragment.unguarded.passages = fragment.passages := by
  cases fragment <;> rfl

end Fragment

namespace Setting

def passageEvent (setting : Setting) (passage : Passage) : Except Fault Event :=
  (setting.synchronisation passage.meeting.kind).event passage.phase passage.meeting.id

def Passes (setting : Setting) : List Passage → List Event → Prop :=
  List.Forall₂ fun passage event => setting.passageEvent passage = .ok event

variable {setting : Setting}

theorem Passes.append {first second : List Passage} {firstEvents secondEvents : List Event}
    (firstPasses : setting.Passes first firstEvents)
    (secondPasses : setting.Passes second secondEvents) :
    setting.Passes (first ++ second) (firstEvents ++ secondEvents) :=
  List.rel_append firstPasses secondPasses

theorem Passes.flatMap {α : Type} {items : List α} {passages : α → List Passage}
    {events : α → List Event}
    (each : ∀ item ∈ items, setting.Passes (passages item) (events item)) :
    setting.Passes (items.flatMap passages) (items.flatMap events) := by
  induction items with
  | nil =>
      exact .nil
  | cons item rest inductionHypothesis =>
      rw [List.flatMap_cons, List.flatMap_cons]
      exact (each item List.mem_cons_self).append (inductionHypothesis fun other member =>
        each other (List.mem_cons_of_mem item member))

/-- Passages are made by one list of events only. -/
theorem Passes.unique {passages : List Passage} {events others : List Event}
    (passes : setting.Passes passages events) (othersPass : setting.Passes passages others) :
    events = others := by
  induction passes generalizing others with
  | nil =>
      cases othersPass
      rfl
  | cons headDone _ inductionHypothesis =>
      cases othersPass with
      | cons otherDone othersPass =>
          cases headDone.symm.trans otherDone
          rw [inductionHypothesis othersPass]

/-- Lifelines meet at every kind of fragment of which one is recorded. -/
theorem meetsAt_of_recorded {view : Viewpoint} {meeting : Meeting}
    (synchronises : view.synchronises = true) (several : 2 ≤ setting.lifelines.length)
    (recorded : meeting ∈ setting.meetings) : setting.meetsAt view meeting.kind = true := by
  have listed : meeting.id ∈
      (setting.interaction.synchronisation setting.meetings meeting.kind).fragments :=
    List.mem_map.mpr ⟨meeting, List.mem_filter.mpr ⟨recorded, by simp⟩, rfl⟩
  have nonempty : (setting.interaction.synchronisation setting.meetings
      meeting.kind).fragments.isEmpty = false := by
    rw [List.isEmpty_eq_false_iff]
    exact List.ne_nil_of_mem listed
  have enough : 2 ≤ (setting.interaction.synchronisation setting.meetings
      meeting.kind).lifelineCount := several
  rw [meetsAt, synchronisation_eq, synchronises, Synchronisation.isRequired, nonempty]
  simpa using enough

end Setting

namespace Behaviour

private theorem handshakes_perform_of_not {event : Event} (next : Behaviour)
    (other : event.isHandshake = false) : (perform event next).handshakes = next.handshakes := by
  simp [handshakes, events, other]

private theorem handshakes_perform {event : Event} (next : Behaviour)
    (isHandshake : event.isHandshake = true) :
    (perform event next).handshakes = event :: next.handshakes := by
  simp [handshakes, events, isHandshake]

private theorem handshakes_performAll {given : List Event} (next : Behaviour)
    (others : ∀ event ∈ given, event.isHandshake = false) :
    (performAll given next).handshakes = next.handshakes := by
  induction given with
  | nil =>
      rfl
  | cons event rest inductionHypothesis =>
      rw [← inductionHypothesis fun other member =>
        others other (List.mem_cons_of_mem event member)]
      exact handshakes_perform_of_not _ (others event List.mem_cons_self)

@[simp]
theorem handshakes_andThen (first second : Behaviour) :
    (andThen first second).handshakes = first.handshakes ++ second.handshakes :=
  List.filter_append ..

@[simp]
theorem handshakes_join (operator : JoinOperator) (left right : Behaviour) :
    (join operator left right).handshakes = left.handshakes ++ right.handshakes :=
  List.filter_append ..

private theorem handshakes_enclose (body : Behaviour) :
    body.enclose.handshakes = body.handshakes := by
  rw [enclose]
  split <;> rfl

private theorem handshakes_sequence (parts : List Behaviour) :
    (sequence parts).handshakes = parts.flatMap handshakes := by
  induction parts with
  | nil =>
      rfl
  | cons part rest inductionHypothesis =>
      cases rest with
      | nil =>
          simp [sequence]
      | cons next others =>
          rw [sequence, handshakes_andThen, inductionHypothesis]
          · exact List.flatMap_cons.symm
          · exact List.cons_ne_nil next others

private theorem handshakes_joinAll (operator : JoinOperator) (first : Behaviour)
    (rest : List Behaviour) :
    (joinAll operator first rest).handshakes = (first :: rest).flatMap handshakes := by
  induction rest generalizing first with
  | nil =>
      simp [joinAll]
  | cons next others inductionHypothesis =>
      rw [joinAll, handshakes_join, inductionHypothesis]
      exact List.flatMap_cons.symm

private theorem handshakes_combine (operator : JoinOperator) (parts : List Behaviour) :
    (combine operator parts).handshakes = parts.flatMap handshakes := by
  match parts with
  | [] =>
      cases operator <;> rfl
  | [only] =>
      simp [combine]
  | first :: next :: rest =>
      exact handshakes_joinAll operator first (next :: rest)

end Behaviour

@[simp]
theorem Header.handshakes_around (header : Header) (body : Behaviour) :
    (header.around body).handshakes = body.handshakes := by
  cases header <;> rfl

@[simp]
theorem Setting.handshakes_chooseAmong (kind : BranchKind) (operands : List Behaviour) :
    (chooseAmong kind operands).handshakes = operands.flatMap Behaviour.handshakes := by
  cases kind with
  | alt =>
      exact Behaviour.handshakes_combine _ operands
  | xalt =>
      exact Behaviour.handshakes_combine _ operands
  | opt =>
      rw [chooseAmong, Behaviour.handshakes_combine, List.flatMap_append]
      exact List.append_nil _

/-! ## Passages of projections -/

namespace Setting

variable {setting : Setting}

private theorem isHandshake_loadsOf {ids : List ExpressionId} {loads : List Event}
    (done : (setting.loadsOf ids).result = .ok loads) :
    ∀ event ∈ loads, event.isHandshake = false := by
  obtain ⟨read, _, loadsDone⟩ := Attempt.result_bind_eq_ok_iff.mp done
  intro event member
  obtain ⟨_, _, _, _, _, rfl⟩ := Specification.exists_access_of_mem loadsDone member
  rfl

private theorem isHandshake_stores {ids : List VariableId} {stores : List Event}
    (done : (setting.specification.stores ids).result = .ok stores) :
    ∀ event ∈ stores, event.isHandshake = false := by
  intro event member
  obtain ⟨_, _, _, _, _, rfl⟩ := Specification.exists_access_of_mem done member
  rfl

private theorem isHandshake_messageEvent {content : Message} {event : Event}
    (done : setting.messageEvent content = .ok event) : event.isHandshake = false := by
  obtain ⟨fields, _, rest⟩ := bind_eq_ok_iff.mp done
  obtain ⟨direction, _, last⟩ := bind_eq_ok_iff.mp rest
  cases last
  rfl

end Setting

namespace Fragment

variable {setting : Setting} {view : Viewpoint}

def handshakesSeen (seen : Option Behaviour) : List Event :=
  (seen.getD .skip).handshakes

private theorem handshakesSeen_sequenceOf (seen : List (Option Behaviour)) :
    handshakesSeen (sequenceOf seen) = seen.flatMap handshakesSeen := by
  have relevant : (seen.filterMap id).flatMap Behaviour.handshakes =
      seen.flatMap handshakesSeen := by
    induction seen with
    | nil =>
        rfl
    | cons part rest inductionHypothesis =>
        cases part with
        | none =>
            exact inductionHypothesis
        | some behaviour =>
            have kept : (some behaviour :: rest).filterMap id =
                behaviour :: rest.filterMap id := rfl
            rw [kept, List.flatMap_cons, inductionHypothesis, List.flatMap_cons]
            rfl
  rw [← relevant, sequenceOf]
  split
  · rename_i empty
    rw [List.isEmpty_iff.mp empty]
    rfl
  · exact Behaviour.handshakes_sequence _

private theorem handshakes_metArms {enter leave : Event} (isEnter : enter.isHandshake = true)
    (isLeave : leave.isHandshake = true) (arms : List (Option Behaviour)) :
    (metArms enter leave arms).handshakes =
      enter :: (arms.flatMap handshakesSeen ++ [leave]) := by
  have ofArms : (Behaviour.combine .interleaving
      (arms.map fun arm => arm.getD .skip)).handshakes = arms.flatMap handshakesSeen := by
    rw [Behaviour.handshakes_combine, List.flatMap_map]
    rfl
  rw [metArms, Behaviour.handshakes_sequence]
  simp only [List.flatMap_cons, List.flatMap_nil, List.append_nil]
  change (Behaviour.perform enter _).handshakes ++ (Behaviour.perform leave .skip).handshakes = _
  rw [Behaviour.handshakes_perform _ isEnter, Behaviour.handshakes_perform _ isLeave,
    List.cons_append, ← ofArms]
  split <;> rfl

theorem IsArm.handshakes_eq {guard : Option ExpressionId} {body : Option Behaviour}
    {arm : Setting.Arm} (isArm : IsArm setting guard body arm) :
    arm.behaviour.handshakes = handshakesSeen body := by
  cases guard with
  | none =>
      rw [show arm = _ from isArm]
      rfl
  | some condition =>
      obtain ⟨term, _, rfl⟩ := isArm
      exact Behaviour.handshakes_enclose _

/-- Parts that each make their passages make those of the list. -/
private theorem passes_parts {parts : List (Fragment × Option Behaviour)}
    (each : ∀ part ∈ parts, setting.Passes part.1.passages (handshakesSeen part.2)) :
    setting.Passes (listPassages (parts.map Prod.fst))
      ((parts.map Prod.snd).flatMap handshakesSeen) := by
  rw [listPassages_eq_flatMap, List.flatMap_map, List.flatMap_map]
  exact Setting.Passes.flatMap each

/-- Fragments of which nothing is seen have no passages. -/
private theorem passes_nothing {fragments : List Fragment}
    (each : ∀ fragment ∈ fragments, setting.Passes fragment.passages []) :
    setting.Passes (listPassages fragments) [] := by
  have all := Setting.Passes.flatMap each
  rwa [← listPassages_eq_flatMap, List.flatMap_eq_nil_iff.mpr (by simp)] at all

private theorem handshakesSeen_message {content : Message} {event : Event}
    {given : List ExpressionId} {bound : List VariableId} {stores loads : List Event}
    (eventDone : setting.messageEvent content = .ok event)
    (storesDone : (setting.specification.stores bound).result = .ok stores)
    (loadsDone : (setting.loadsOf given).result = .ok loads) :
    handshakesSeen (some (.performAll loads
      (.idle (.perform event (.performAll stores .skip))))) = [] :=
  calc _ = (Behaviour.idle (.perform event (.performAll stores .skip))).handshakes :=
        Behaviour.handshakes_performAll _ (Setting.isHandshake_loadsOf loadsDone)
    _ = (Behaviour.performAll stores .skip).handshakes :=
        Behaviour.handshakes_perform_of_not _ (Setting.isHandshake_messageEvent eventDone)
    _ = [] := Behaviour.handshakes_performAll _ (Setting.isHandshake_stores storesDone)

private theorem handshakesSeen_metUntil {synchronisation : Synchronisation} {id : FragmentId}
    {enter leave : Event} (enterDone : synchronisation.event .enter id = .ok enter)
    (leaveDone : synchronisation.event .leave id = .ok leave) :
    handshakesSeen (some (.idle (.performAll [enter, leave] .skip))) = [enter, leave] :=
  calc _ = enter :: (Behaviour.perform leave .skip).handshakes :=
        Behaviour.handshakes_perform _ (Synchronisation.isHandshake_event enterDone)
    _ = [enter, leave] := congrArg (List.cons enter)
        (Behaviour.handshakes_perform _ (Synchronisation.isHandshake_event leaveDone))

/-- What a lifeline sees of a fragment makes the passages of the fragment. -/
theorem Sees.passes {fragment : Fragment} {seen : Option Behaviour}
    (sees : fragment.Sees setting view seen) (synchronises : view.synchronises = true)
    (several : 2 ≤ setting.lifelines.length) (numbered : fragment.Numbered setting view) :
    setting.Passes fragment.passages (handshakesSeen seen) := by
  induction sees with
  | message _ eventDone _ storesDone loadsDone =>
      rw [handshakesSeen_message eventDone storesDone loadsDone]
      exact .nil
  | wait _ loadsDone _ =>
      rw [handshakesSeen, Option.getD_some,
        Behaviour.handshakes_performAll _ (Setting.isHandshake_loadsOf loadsDone)]
      exact .nil
  | loop _ loadsDone _ inductionHypothesis =>
      rw [handshakesSeen, Option.getD_some,
        Behaviour.handshakes_performAll _ (Setting.isHandshake_loadsOf loadsDone),
        Header.handshakes_around]
      exact inductionHypothesis synchronises numbered
  | otherLoop bound _ inductionHypothesis =>
      exact inductionHypothesis synchronises numbered
  | @branch _ kind parts loads _ arms _ loadsDone inductionHypothesis =>
      have eachNumbered := numbered_of_mem numbered
      rw [handshakesSeen, Option.getD_some,
        Behaviour.handshakes_performAll _ (Setting.isHandshake_loadsOf loadsDone),
        Setting.handshakes_chooseAmong, passages, listPassages_eq_flatMap, List.flatMap_map,
        List.flatMap_map]
      apply Setting.Passes.flatMap
      intro part isPart
      rw [(arms part isPart).handshakes_eq, ← passages_unguarded]
      exact inductionHypothesis part isPart synchronises
        (eachNumbered part.1 (List.mem_map_of_mem isPart)).unguarded
  | otherBranch kind _ inductionHypothesis =>
      have eachNumbered := numbered_of_mem numbered
      apply passes_nothing
      intro operand member
      rw [← passages_unguarded]
      exact inductionHypothesis operand member synchronises
        (eachNumbered operand member).unguarded
  | metPar _ _ enterDone leaveDone inductionHypothesis =>
      have eachNumbered := numbered.par.2
      rw [handshakesSeen, Option.getD_some,
        handshakes_metArms (Synchronisation.isHandshake_event enterDone)
          (Synchronisation.isHandshake_event leaveDone)]
      refine .cons enterDone (Setting.Passes.append (passes_parts ?_) (.cons leaveDone .nil))
      intro part isPart
      exact inductionHypothesis part isPart synchronises
        (eachNumbered part.1 (List.mem_map_of_mem isPart))
  | par id _ apart _ _ | otherPar id _ apart _ =>
      -- a par fragment that was recorded is met by all lifelines
      have meets := Setting.meetsAt_of_recorded synchronises several
        (numbered.par.1 synchronises)
      cases meets.symm.trans apart
  | duration _ _ loadsDone _ inductionHypothesis =>
      rw [handshakesSeen, Option.getD_some,
        Behaviour.handshakes_performAll _ (Setting.isHandshake_loadsOf loadsDone),
        Header.handshakes_around]
      exact inductionHypothesis synchronises numbered
  | otherDuration bound _ _ inductionHypothesis =>
      exact inductionHypothesis synchronises numbered
  | deadline _ _ _ loadsDone _ inductionHypothesis =>
      rw [handshakesSeen, Option.getD_some,
        Behaviour.handshakes_performAll _ (Setting.isHandshake_loadsOf loadsDone)]
      exact inductionHypothesis synchronises numbered
  | remarkedDeadline units _ _ _ inductionHypothesis =>
      exact inductionHypothesis synchronises numbered
  | otherDeadline units _ _ inductionHypothesis =>
      exact inductionHypothesis synchronises numbered
  | metUntil intra body _ enterDone leaveDone =>
      rw [handshakesSeen_metUntil enterDone leaveDone]
      exact .cons enterDone (.cons leaveDone .nil)
  | «until» id intra apart _ _ _ =>
      -- the body is seen from another viewpoint, and by no lifeline
      have meets := Setting.meetsAt_of_recorded synchronises several
        (numbered.until synchronises)
      cases meets.symm.trans apart
  | operand _ inductionHypothesis =>
      have eachNumbered := numbered_of_mem numbered
      rw [handshakesSeen_sequenceOf]
      apply passes_parts
      intro part isPart
      exact inductionHypothesis part isPart synchronises
        (eachNumbered part.1 (List.mem_map_of_mem isPart))
  | @guardedOperand _ _ parts body _ _ _ bodyDone loadsDone _ inductionHypothesis =>
      have eachNumbered := numbered_of_mem numbered
      have ofBody : body.handshakes = (parts.map Prod.snd).flatMap handshakesSeen := by
        rw [← handshakesSeen_sequenceOf, bodyDone]
        rfl
      rw [handshakesSeen, Option.getD_some,
        Behaviour.handshakes_performAll _ (Setting.isHandshake_loadsOf loadsDone)]
      change setting.Passes _ body.enclose.handshakes
      rw [Behaviour.handshakes_enclose, ofBody]
      apply passes_parts
      intro part isPart
      exact inductionHypothesis part isPart synchronises
        (eachNumbered part.1 (List.mem_map_of_mem isPart))
  | otherOperand condition _ inductionHypothesis =>
      have eachNumbered := numbered_of_mem numbered
      apply passes_nothing
      intro fragment member
      exact inductionHypothesis fragment member synchronises (eachNumbered fragment member)
  | deferred _ inductionHypothesis =>
      exact inductionHypothesis synchronises numbered
  | _ =>
      exact .nil

end Fragment

/-- The fragments that lifelines go through at an entry.  The body of an until
fragment is left to another process. -/
def FragmentEntry.entered : FragmentEntry → List FragmentId
  | .until _ _ => []
  | entry => entry.children

namespace Diagram

variable (diagram : Diagram)

/-- Lifelines that go through one fragment go through another. -/
def LeadsTo (parent child : FragmentId) : Prop :=
  ∃ entry, diagram.fragments[parent.index]? = some entry ∧ child ∈ entry.entered

/-- Lifelines that go through a fragment come to no critical region. -/
def UncriticalFrom (start : FragmentId) : Prop :=
  ∀ id, Relation.ReflTransGen diagram.LeadsTo start id →
    ∀ body, diagram.fragments[id.index]? ≠ some (.critical body)

/-- Lifelines that go through the body come to no critical region. -/
def Uncritical : Prop :=
  ∀ start ∈ diagram.body, diagram.UncriticalFrom start

variable {diagram}

theorem UncriticalFrom.step {parent child : FragmentId}
    (free : diagram.UncriticalFrom parent) (leads : diagram.LeadsTo parent child) :
    diagram.UncriticalFrom child :=
  fun id path => free id (.head leads path)

end Diagram

/-- Fragments without critical regions outside of until bodies. -/
inductive Fragment.Uncritical : Fragment → Prop
  | message (content : Message) : Uncritical (.message content)
  | wait (actor : ActorId) (units : ExpressionId) : Uncritical (.wait actor units)
  | deadlock (actor : ActorId) : Uncritical (.deadlock actor)
  | create (id : FragmentId) (actor created : ActorId) : Uncritical (.create id actor created)
  | loop (bound : Option Bound) {body : Fragment} :
      Uncritical body → Uncritical (.loop bound body)
  | branch (kind : BranchKind) {operands : List Fragment} :
      (∀ operand ∈ operands, Uncritical operand) → Uncritical (.branch kind operands)
  | par (id : FragmentId) {operands : List Fragment} :
      (∀ operand ∈ operands, Uncritical operand) → Uncritical (.par id operands)
  | duration (owner : ActorId) (bound : Bound) {body : Fragment} :
      Uncritical body → Uncritical (.duration owner bound body)
  | deadline (owner : ActorId) (units : ExpressionId) {body : Fragment} :
      Uncritical body → Uncritical (.deadline owner units body)
  | until (id : FragmentId) (intra : MessageSet) (body : Fragment) :
      Uncritical (.until id intra body)
  | operand (guard : Option ExpressionId) {fragments : List Fragment} :
      (∀ fragment ∈ fragments, Uncritical fragment) → Uncritical (.operand guard fragments)
  | deferred {content : Unit → Fragment} :
      Uncritical (content ()) → Uncritical (.deferred content)
  | unresolved (fault : Fault) : Uncritical (.unresolved fault)

namespace Diagram

variable {diagram : Diagram}

private theorem uncritical_branchOperand {follow : FragmentId → Fragment} {id : FragmentId}
    (followed : (follow id).Uncritical)
    (below : ∀ child, diagram.LeadsTo id child → (follow child).Uncritical) :
    (diagram.branchOperand follow id).Uncritical := by
  unfold branchOperand
  split
  · rename_i guard fragments found
    refine .operand guard ?_
    intro fragment isMapped
    obtain ⟨child, isChild, rfl⟩ := List.mem_map.mp isMapped
    exact below child ⟨_, entryAt_eq_ok_iff.mp found, isChild⟩
  · exact followed

private theorem uncritical_unfoldFragment (limit : Nat) {id : FragmentId}
    (free : diagram.UncriticalFrom id) : (diagram.unfoldFragment limit id).Uncritical := by
  induction limit generalizing id with
  | zero =>
      exact .unresolved _
  | succ limit inductionHypothesis =>
      cases found : entryAt diagram.fragments id.index with
      | error fault =>
          rw [unfoldFragment, found]
          exact .unresolved fault
      | ok entry =>
          have present := entryAt_eq_ok_iff.mp found
          have later : ∀ child ∈ entry.entered,
              (Fragment.deferred fun _ => diagram.unfoldFragment limit child).Uncritical :=
            fun child isChild =>
              .deferred (inductionHypothesis (free.step ⟨entry, present, isChild⟩))
          have eachLater : ∀ fragment ∈ entry.entered.map fun child =>
              Fragment.deferred fun _ => diagram.unfoldFragment limit child,
              fragment.Uncritical := by
            intro fragment isMapped
            obtain ⟨child, isChild, rfl⟩ := List.mem_map.mp isMapped
            exact later child isChild
          rw [unfoldFragment, found]
          cases entry with
          | message content =>
              exact .message content
          | wait actor units =>
              exact .wait actor units
          | deadlock actor =>
              exact .deadlock actor
          | create actor created =>
              exact .create id actor created
          | loop bound body =>
              exact .loop bound (later body List.mem_cons_self)
          | branch kind operands =>
              refine .branch kind ?_
              intro operand isMapped
              obtain ⟨child, isChild, rfl⟩ := List.mem_map.mp isMapped
              refine uncritical_branchOperand (later child isChild) ?_
              intro grandchild leads
              have childFree := free.step ⟨_, present, isChild⟩
              exact .deferred (inductionHypothesis (childFree.step leads))
          | par operands =>
              exact .par id eachLater
          | duration owner bound body =>
              exact .duration owner bound (later body List.mem_cons_self)
          | deadline owner units body =>
              exact .deadline owner units (later body List.mem_cons_self)
          | «until» intra body =>
              exact .until id intra _
          | critical body =>
              exact absurd present (free id .refl body)
          | operand guard fragments =>
              exact .operand guard eachLater

theorem Uncritical.bodyFragments (free : diagram.Uncritical) :
    ∀ fragment ∈ diagram.bodyFragments, fragment.Uncritical := by
  intro fragment member
  obtain ⟨id, inBody, rfl⟩ := List.mem_map.mp member
  exact uncritical_unfoldFragment _ (free id inBody)

end Diagram

/-- The meetings that are passed in a phase, in order. -/
def passedIn (phase : Phase) (passages : List Passage) : List Meeting :=
  (passages.filter fun passage => passage.phase = phase).map Passage.meeting

@[simp]
theorem passedIn_append (phase : Phase) (first second : List Passage) :
    passedIn phase (first ++ second) = passedIn phase first ++ passedIn phase second := by
  simp [passedIn]

/-- The meetings are entered in the given order, and each is left once. -/
structure PassesThrough (passages : List Passage) (meetings : List Meeting) : Prop where
  enters : passedIn .enter passages = meetings
  leaves : (passedIn .leave passages).Perm meetings

namespace PassesThrough

theorem nil : PassesThrough [] [] :=
  ⟨rfl, .nil⟩

theorem append {first second : List Passage} {firstMeetings secondMeetings : List Meeting}
    (firstPasses : PassesThrough first firstMeetings)
    (secondPasses : PassesThrough second secondMeetings) :
    PassesThrough (first ++ second) (firstMeetings ++ secondMeetings) where
  enters := by rw [passedIn_append, firstPasses.enters, secondPasses.enters]
  leaves := by
    rw [passedIn_append]
    exact firstPasses.leaves.append secondPasses.leaves

/-- A meeting around others is entered before and left after them. -/
theorem around {inner : List Passage} {meetings : List Meeting} (outer : Meeting)
    (passes : PassesThrough inner meetings) :
    PassesThrough (⟨outer, .enter⟩ :: (inner ++ [⟨outer, .leave⟩])) (outer :: meetings) where
  enters := by
    have shape : passedIn .enter (⟨outer, .enter⟩ :: (inner ++ [⟨outer, .leave⟩])) =
        outer :: passedIn .enter inner := by
      simp [passedIn]
    rw [shape, passes.enters]
  leaves := by
    have shape : passedIn .leave (⟨outer, .enter⟩ :: (inner ++ [⟨outer, .leave⟩])) =
        passedIn .leave inner ++ [outer] := by
      simp [passedIn]
    rw [shape]
    exact (List.perm_append_singleton outer _).trans (passes.leaves.cons outer)

end PassesThrough

namespace Fragment

/-- Fragments that pass through their meetings do so as a list. -/
theorem passesThrough_list {fragments : List Fragment} {found : List Meeting}
    (each : ∀ fragment ∈ fragments, ∀ meetings, fragment.meetings = .ok meetings →
      PassesThrough fragment.passages meetings)
    (done : listMeetings fragments = .ok found) :
    PassesThrough (listPassages fragments) found := by
  induction fragments generalizing found with
  | nil =>
      cases done
      exact .nil
  | cons fragment rest inductionHypothesis =>
      obtain ⟨first, firstDone, remaining⟩ := bind_eq_ok_iff.mp done
      obtain ⟨others, othersDone, last⟩ := bind_eq_ok_iff.mp remaining
      cases last
      exact (each fragment List.mem_cons_self first firstDone).append
        (inductionHypothesis (fun other member => each other (List.mem_cons_of_mem _ member))
          othersDone)

/-- A fragment without critical regions passes through all its meetings. -/
theorem Uncritical.passesThrough {fragment : Fragment} (free : fragment.Uncritical)
    {found : List Meeting} (done : fragment.meetings = .ok found) :
    PassesThrough fragment.passages found := by
  induction free generalizing found with
  | message | wait | deadlock | create =>
      cases done
      exact .nil
  | loop bound _ inductionHypothesis =>
      exact inductionHypothesis done
  | branch kind _ inductionHypothesis =>
      exact passesThrough_list (fun operand member _ => inductionHypothesis operand member) done
  | par id _ inductionHypothesis =>
      obtain ⟨inner, innerDone, last⟩ := bind_eq_ok_iff.mp done
      cases last
      exact (passesThrough_list (fun operand member _ => inductionHypothesis operand member)
        innerDone).around ⟨.par, id⟩
  | duration owner bound _ inductionHypothesis =>
      exact inductionHypothesis done
  | deadline owner units _ inductionHypothesis =>
      exact inductionHypothesis done
  | «until» id intra body =>
      cases done
      exact PassesThrough.nil.around ⟨.until, id⟩
  | operand guard _ inductionHypothesis =>
      exact passesThrough_list (fun part member _ => inductionHypothesis part member) done
  | deferred _ inductionHypothesis =>
      exact inductionHypothesis done
  | unresolved fault =>
      cases done

end Fragment

/-! ## Agreement -/

namespace Setting

/-- The text is a handshake that makes the passage under the number of its meeting. -/
def Prints (setting : Setting) (passage : Passage) (text : String) : Prop :=
  ∃ number,
    (setting.synchronisation passage.meeting.kind).numberOf passage.meeting.id = .ok number ∧
      text = (Event.handshake passage.meeting.kind number passage.phase).text

variable {setting : Setting}

theorem Passes.prints {passages : List Passage} {events : List Event}
    (passes : setting.Passes passages events) :
    List.Forall₂ setting.Prints passages (events.map Event.text) := by
  rw [List.forall₂_map_right_iff]
  refine passes.imp ?_
  intro passage event done
  obtain ⟨number, numbered, last⟩ := bind_eq_ok_iff.mp done
  cases last
  refine ⟨number, numbered, ?_⟩
  rw [synchronisation_eq]
  rfl

/-- The handshakes in the process of a lifeline are the passages of the body. -/
theorem exists_handshakes {actor : ActorId} {process : Behaviour}
    (done : (setting.projectBody (.lifeline actor)).result = .ok process)
    (several : 2 ≤ setting.lifelines.length)
    (searched : Fragment.listMeetings setting.body = .ok setting.meetings)
    (sound : ∀ fragment ∈ setting.body,
      fragment.Sound setting.specification setting.interaction.toDiagram)
    (names : setting.specification.HasQuietNames setting.interaction.toDiagram) :
    ∃ events, handshakesIn process.text = events.map Event.text ∧
      setting.Passes (Fragment.listPassages setting.body) events := by
  obtain ⟨seen, seenDone, last⟩ := Attempt.result_bind_eq_ok_iff.mp done
  cases last
  rw [projectSequence, ← Fragment.project_operand_none] at seenDone
  have sees := Fragment.sees_of_result seenDone
  refine ⟨(seen.getD .skip).handshakes, ?_, ?_⟩
  · exact Behaviour.handshakesIn_text
      (sees.seenQuietly names (.operand (by simp) sound)).getD_skip
  · exact sees.passes rfl several fun _ =>
      ⟨setting.meetings, searched, fun _ recorded => recorded⟩

end Setting

/-- The lifelines of an interaction agree on their handshakes, which are found in
the texts of their processes: any two go through the same ones in the same
order.  If no critical region is in the way, these are an enter for each recorded
meeting, in the order of the record, and a leave for each.  The processes exist
unless the expressions in them have no end. -/
theorem Specification.lifelines_agree_on_handshakes {specification : Specification}
    {id : InteractionId} {interaction : Interaction}
    (placed : specification.interaction id = .ok interaction)
    (several : 2 ≤ interaction.lifelines.length)
    (closed : interaction.toDiagram.Closed specification)
    (ownersKnown : specification.OwnersKnown)
    (acyclic : interaction.toDiagram.FragmentsAcyclic)
    (names : specification.HasQuietNames interaction.toDiagram) :
    ∃ setting, specification.setting id = .ok setting ∧
      (∀ one other oneProcess otherProcess,
        (setting.projectBody (.lifeline one)).result = .ok oneProcess →
        (setting.projectBody (.lifeline other)).result = .ok otherProcess →
        handshakesIn oneProcess.text = handshakesIn otherProcess.text) ∧
      (interaction.toDiagram.Uncritical → ∀ actor process,
        (setting.projectBody (.lifeline actor)).result = .ok process →
        ∃ passages, List.Forall₂ setting.Prints passages (handshakesIn process.text) ∧
          PassesThrough passages setting.meetings) ∧
      (interaction.toDiagram.ExpressionsAcyclic → ∀ actor, ∃ process,
        (setting.projectBody (.lifeline actor)).result = .ok process) := by
  obtain ⟨meetings, searched, _, found⟩ := exists_setting placed closed acyclic
  have bodySound := closed.sound_bodyFragments acyclic
  refine ⟨_, found, ?_, ?_, ?_⟩
  · intro one other oneProcess otherProcess oneDone otherDone
    obtain ⟨oneEvents, oneText, onePasses⟩ :=
      Setting.exists_handshakes oneDone several searched bodySound names
    obtain ⟨otherEvents, otherText, otherPasses⟩ :=
      Setting.exists_handshakes otherDone several searched bodySound names
    rw [oneText, otherText, onePasses.unique otherPasses]
  · intro free actor process done
    obtain ⟨events, text, passes⟩ :=
      Setting.exists_handshakes done several searched bodySound names
    refine ⟨_, text ▸ passes.prints, ?_⟩
    exact Fragment.passesThrough_list
      (fun fragment member _ => (free.bodyFragments fragment member).passesThrough) searched
  · intro expressionsAcyclic actor
    have sound : Setting.Sound { specification, id, interaction, meetings } :=
      ⟨placed, ⟨closed, acyclic, expressionsAcyclic⟩, ownersKnown, searched⟩
    have admits : Setting.Admits { specification, id, interaction, meetings } fun _ => True :=
      ⟨fun _ _ => trivial, fun _ _ => trivial⟩
    obtain ⟨process, done, _⟩ :=
      (sound.succeeds_projectBody admits (.lifeline actor)).exists_result
    exact ⟨process, done⟩

/-- Two components exchange a value beside an until fragment that comes again
behind them. -/
def rendezvous : Interaction where
  name := "Rendezvous"
  body := [⟨5⟩, ⟨1⟩]
  lifelines := [⟨0⟩, ⟨1⟩]
  locals := [⟨0⟩]
  fragments := #[.message ⟨⟨0⟩, ⟨1⟩, .event "give", [.value ⟨0⟩]⟩, .until .every ⟨0⟩,
    .operand none [⟨0⟩], .operand none [⟨1⟩], .par [⟨2⟩, ⟨3⟩], .loop none ⟨4⟩]
  expressions := #[.var ⟨0⟩]
  locations := []
  group := ⟨0⟩

def rendezvousSpecification : Specification :=
  { Specification.empty "Exchange" with
    actors := #[⟨"A", .component⟩, ⟨"B", .component⟩]
    actorsByName := [("B", ⟨1⟩), ("A", ⟨0⟩)]
    vars := #[⟨"x", .nat, some ⟨0⟩⟩]
    interactions := #[rendezvous] }

private theorem wellFormed_rendezvous : rendezvous.toDiagram.WellFormed rendezvousSpecification :=
  Diagram.Closed.wellFormed (by decide) (by decide)

private theorem hasQuietNames_rendezvous :
    rendezvousSpecification.HasQuietNames rendezvous.toDiagram := by
  decide

private theorem uncritical_rendezvous : rendezvous.toDiagram.Uncritical := by
  have noCritical : ∀ entry ∈ rendezvous.fragments, ∀ body ∈ entry.children,
      entry ≠ .critical body := by decide
  intro start _ id _ body found
  exact noCritical _ (Array.mem_of_getElem? found) body List.mem_cons_self rfl

/-- Every lifeline enters the par fragment, passes the until fragment and leaves,
and passes the until fragment once more. -/
theorem lifelines_agree_on_handshakes_rendezvous :
    rendezvousSpecification.interaction ⟨0⟩ = .ok rendezvous ∧
      rendezvous.toDiagram.Closed rendezvousSpecification ∧
      rendezvousSpecification.OwnersKnown ∧
      rendezvous.toDiagram.FragmentsAcyclic ∧
      rendezvousSpecification.HasQuietNames rendezvous.toDiagram ∧
      ∃ setting, rendezvousSpecification.setting ⟨0⟩ = .ok setting ∧
        ∀ actor, ∃ process passages,
          (setting.projectBody (.lifeline actor)).result = .ok process ∧
          List.Forall₂ setting.Prints passages (handshakesIn process.text) ∧
          PassesThrough passages setting.meetings := by
  have placed : rendezvousSpecification.interaction ⟨0⟩ = .ok rendezvous := rfl
  have ownersKnown : rendezvousSpecification.OwnersKnown := by
    decide
  have closed := wellFormed_rendezvous.toClosed
  have acyclic := wellFormed_rendezvous.fragmentsAcyclic
  refine ⟨placed, closed, ownersKnown, acyclic, hasQuietNames_rendezvous, ?_⟩
  obtain ⟨setting, found, _, passes, succeeds⟩ :=
    Specification.lifelines_agree_on_handshakes placed (by decide) closed ownersKnown acyclic
      hasQuietNames_rendezvous
  refine ⟨setting, found, fun actor => ?_⟩
  obtain ⟨process, done⟩ := succeeds wellFormed_rendezvous.expressionsAcyclic actor
  obtain ⟨passages, printed, through⟩ := passes uncritical_rendezvous actor process done
  exact ⟨process, passages, done, printed, through⟩

end SequenceChart
