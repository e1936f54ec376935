import SequenceChart.Proofs.Visits

/-!
# Walks through the table

The body of an interaction refers to places of its table, and each place to
those inside of it.  A walk comes by all of them from left to right, an outer
place before the inner ones, and a place as often as it is referred to.  It
passes the bodies of until fragments by.

Fragments are searched as trees that are unfolded from the table.  The visits of
a tree that could be searched are the places of a walk, one for one, so that
what was found in the tree is what the walk comes by.
-/

namespace SequenceChart

def FragmentEntry.message? : FragmentEntry → Option Message
  | .message content => some content
  | _ => none

def FragmentEntry.meetingKind? : FragmentEntry → Option HandshakeKind
  | .par _ => some .par
  | .until _ _ => some .until
  | _ => none

namespace Diagram

variable (diagram : Diagram)

def messageAt (place : FragmentId) : Option Message :=
  diagram.fragments[place.index]?.bind FragmentEntry.message?

def meetingKindAt (place : FragmentId) : Option HandshakeKind :=
  diagram.fragments[place.index]?.bind FragmentEntry.meetingKind?

def meetingAt (place : FragmentId) : Option Meeting :=
  (diagram.meetingKindAt place).map fun kind => ⟨kind, place⟩

/-- `diagram.Walk starts places` means that the walk from `starts` comes by `places`. -/
inductive Walk : List FragmentId → List FragmentId → Prop
  | done : Walk [] []
  | visit {place : FragmentId} {entry : FragmentEntry} {rest inside behind : List FragmentId} :
      diagram.fragments[place.index]? = some entry →
      Walk entry.entered inside →
      Walk rest behind →
      Walk (place :: rest) (place :: (inside ++ behind))

variable {diagram}

namespace Walk

/-- There is at most one walk from given starts. -/
theorem unique {starts places others : List FragmentId}
    (walk : diagram.Walk starts places) (other : diagram.Walk starts others) :
    places = others := by
  induction walk generalizing others with
  | done =>
      cases other
      rfl
  | visit present _ _ ofInside ofBehind =>
      cases other with
      | visit otherPresent otherInside otherBehind =>
          cases present.symm.trans otherPresent
          rw [ofInside otherInside, ofBehind otherBehind]

theorem append {starts rest places behind : List FragmentId}
    (first : diagram.Walk starts places) (second : diagram.Walk rest behind) :
    diagram.Walk (starts ++ rest) (places ++ behind) := by
  induction first with
  | done =>
      exact second
  | visit present inner _ _ ofBehind =>
      rw [List.cons_append, List.cons_append, List.append_assoc]
      exact .visit present inner ofBehind

/-- A walk comes by the places to which references lead from where it starts. -/
theorem mem_iff {starts places : List FragmentId} (walk : diagram.Walk starts places)
    {place : FragmentId} :
    place ∈ places ↔ ∃ start ∈ starts, Relation.ReflTransGen diagram.LeadsTo start place := by
  induction walk with
  | done =>
      simp
  | @visit start entry rest inside behind present _ _ ofInside ofBehind =>
      -- a way from a place is at its end, or it goes on to a place inside
      have fromHere : Relation.ReflTransGen diagram.LeadsTo start place ↔
          place = start ∨ place ∈ inside := by
        rw [Relation.ReflTransGen.cases_head_iff, ofInside, eq_comm]
        apply or_congr_right
        constructor
        · rintro ⟨child, ⟨found, foundPresent, isChild⟩, path⟩
          cases foundPresent.symm.trans present
          exact ⟨child, isChild, path⟩
        · rintro ⟨child, isChild, path⟩
          exact ⟨child, ⟨entry, present, isChild⟩, path⟩
      simp only [List.mem_cons, List.mem_append, exists_eq_or_imp, fromHere, ← ofBehind, or_assoc]

theorem mem_iff_visited {places : List FragmentId} (walk : diagram.Walk diagram.body places)
    {place : FragmentId} : place ∈ places ↔ diagram.Visited false place :=
  walk.mem_iff

theorem lt_size {starts places : List FragmentId} (walk : diagram.Walk starts places)
    {place : FragmentId} (member : place ∈ places) : place.index < diagram.fragments.size := by
  induction walk with
  | done =>
      cases member
  | visit present _ _ ofInside ofBehind =>
      rcases List.mem_cons.mp member with rfl | later
      · exact (Array.getElem?_eq_some_iff.mp present).1
      · exact (List.mem_append.mp later).elim ofInside ofBehind

end Walk

variable (diagram) in
def StandsAt (place : FragmentId) (visit : Fragment) : Prop :=
  ∃ depth entry, diagram.fragments[place.index]? = some entry ∧
    visit = diagram.unfoldFragment (depth + 1) place

theorem StandsAt.message?_eq {place : FragmentId} {visit : Fragment}
    (stands : diagram.StandsAt place visit) : visit.message? = diagram.messageAt place := by
  obtain ⟨depth, entry, present, rfl⟩ := stands
  rw [unfoldFragment, entryAt_eq_ok_iff.mpr present, messageAt, present]
  cases entry <;> rfl

theorem StandsAt.meeting?_eq {place : FragmentId} {visit : Fragment}
    (stands : diagram.StandsAt place visit) : visit.meeting? = diagram.meetingAt place := by
  obtain ⟨depth, entry, present, rfl⟩ := stands
  rw [unfoldFragment, entryAt_eq_ok_iff.mpr present, meetingAt, meetingKindAt, present]
  cases entry <;> rfl

variable (diagram) in
/-- The visits are made on a walk, one at each place. -/
def MadeOnWalk (starts : List FragmentId) (visits : List Fragment) : Prop :=
  ∃ places, diagram.Walk starts places ∧ List.Forall₂ diagram.StandsAt places visits

theorem MadeOnWalk.append {starts rest : List FragmentId} {visits others : List Fragment}
    (first : diagram.MadeOnWalk starts visits) (second : diagram.MadeOnWalk rest others) :
    diagram.MadeOnWalk (starts ++ rest) (visits ++ others) := by
  obtain ⟨places, walk, stand⟩ := first
  obtain ⟨behind, walkOn, behindStand⟩ := second
  exact ⟨places ++ behind, walk.append walkOn, List.rel_append stand behindStand⟩

/-- A visit and those inside of it. -/
theorem MadeOnWalk.enter {place : FragmentId} {entry : FragmentEntry} {visit : Fragment}
    {inside : List Fragment} {depth : Nat}
    (present : diagram.fragments[place.index]? = some entry)
    (unfolded : diagram.unfoldFragment (depth + 1) place = visit)
    (inner : diagram.MadeOnWalk entry.entered inside) :
    diagram.MadeOnWalk [place] (visit :: inside) := by
  obtain ⟨places, walk, stand⟩ := inner
  refine ⟨place :: (places ++ []), .visit present walk .done, .cons ?_ ?_⟩
  · exact ⟨depth, entry, present, unfolded.symm⟩
  · rw [List.append_nil]
    exact stand

private theorem madeOnWalk_map {follow : FragmentId → Fragment} {starts : List FragmentId}
    (each : ∀ start ∈ starts, diagram.MadeOnWalk [start] ((follow start).visits false)) :
    diagram.MadeOnWalk starts (Fragment.listVisits false (starts.map follow)) := by
  induction starts with
  | nil =>
      exact ⟨[], .done, .nil⟩
  | cons start rest inductionHypothesis =>
      exact (each start List.mem_cons_self).append (inductionHypothesis fun other member =>
        each other (List.mem_cons_of_mem start member))

end Diagram

namespace Fragment

/-- Where a list could be searched, each of its fragments could. -/
theorem exists_meetings_of_mem {fragments : List Fragment} {found : List Meeting}
    (searched : listMeetings fragments = .ok found) {fragment : Fragment}
    (member : fragment ∈ fragments) : ∃ part, fragment.meetings = .ok part := by
  rw [listMeetings_eq] at searched
  obtain ⟨parts, partsDone, _⟩ := bind_eq_ok_iff.mp searched
  obtain ⟨part, _, partDone⟩ := exists_right_of_mem (mapM_eq_ok_iff.mp partsDone) member
  exact ⟨part, partDone⟩

/-- What can be searched for meetings can be searched for messages: both searches go
the same way. -/
theorem exists_messages_of_meetings {fragment : Fragment} {found : List Meeting}
    (searched : fragment.meetings = .ok found) : ∃ listed, fragment.messages = .ok listed := by
  have ofList : ∀ {parts : List Fragment} {inner : List Meeting},
      (∀ part ∈ parts, ∀ one, part.meetings = .ok one → ∃ listed, part.messages = .ok listed) →
      listMeetings parts = .ok inner → ∃ listed, listMessages parts = .ok listed := by
    intro parts inner each partsSearched
    rw [listMessages_eq]
    refine exists_bind_eq_ok (exists_mapM_eq_ok fun part member => ?_) fun _ _ => ⟨_, rfl⟩
    obtain ⟨one, oneDone⟩ := exists_meetings_of_mem partsSearched member
    exact each part member one oneDone
  induction fragment using inductionOn generalizing found with
  | message | wait | deadlock | create | «until» =>
      exact ⟨_, rfl⟩
  | loop _ _ inductionHypothesis | duration _ _ _ inductionHypothesis
  | deadline _ _ _ inductionHypothesis | critical _ _ inductionHypothesis
  | deferred _ inductionHypothesis =>
      exact inductionHypothesis searched
  | branch _ operands inductionHypothesis =>
      refine ofList (fun operand member one oneDone => ?_) searched
      have unguarded : operand.unguarded.meetings = .ok one := by
        cases operand <;> exact oneDone
      obtain ⟨listed, done⟩ := inductionHypothesis operand member unguarded
      refine ⟨listed, ?_⟩
      cases operand <;> exact done
  | par _ _ inductionHypothesis =>
      obtain ⟨inner, innerDone, _⟩ := bind_eq_ok_iff.mp searched
      exact ofList (fun part member _ => inductionHypothesis part member) innerDone
  | operand _ _ inductionHypothesis =>
      exact ofList (fun part member _ => inductionHypothesis part member) searched
  | unresolved fault =>
      cases searched

end Fragment

namespace Diagram

variable {diagram : Diagram}

/-- In a branch, an operand is unfolded together with the branch itself. -/
private theorem madeOnWalk_branchOperand {limit : Nat} {place : FragmentId} {part : List Meeting}
    (below : ∀ {child : FragmentId} {found : List Meeting},
      (diagram.unfoldFragment limit child).meetings = .ok found →
      diagram.MadeOnWalk [child] ((diagram.unfoldFragment limit child).visits false))
    (searched : (diagram.branchOperand
      (fun child => .deferred fun _ => diagram.unfoldFragment limit child) place).meetings =
        .ok part) :
    diagram.MadeOnWalk [place] ((diagram.branchOperand
      (fun child => .deferred fun _ => diagram.unfoldFragment limit child) place).visits
        false) := by
  unfold branchOperand at searched ⊢
  split at searched
  · rename_i guard fragments found
    have unfolded : diagram.unfoldFragment (limit + 1) place = .operand guard
        (fragments.map fun child => .deferred fun _ => diagram.unfoldFragment limit child) := by
      rw [unfoldFragment, found]
    refine .enter (entryAt_eq_ok_iff.mp found) unfolded (madeOnWalk_map fun child isChild => ?_)
    obtain ⟨_, done⟩ :=
      Fragment.exists_meetings_of_mem searched (List.mem_map_of_mem isChild)
    exact below done
  · exact below searched

/-- The visits of a tree that can be searched are made on a walk. -/
theorem madeOnWalk_of_meetings {limit : Nat} {place : FragmentId} {found : List Meeting}
    (searched : (diagram.unfoldFragment limit place).meetings = .ok found) :
    diagram.MadeOnWalk [place] ((diagram.unfoldFragment limit place).visits false) := by
  induction limit generalizing place found with
  | zero =>
      cases searched
  | succ limit inductionHypothesis =>
      cases looked : entryAt diagram.fragments place.index with
      | error fault =>
          rw [unfoldFragment, looked] at searched
          cases searched
      | ok entry =>
          have present := entryAt_eq_ok_iff.mp looked
          have unfolded := unfoldFragment.eq_2 diagram place limit
          rw [looked] at unfolded
          have nowhere : diagram.MadeOnWalk [] [] := ⟨[], .done, .nil⟩
          have ofList : ∀ {children : List FragmentId} {inner : List Meeting},
              Fragment.listMeetings (children.map fun child =>
                .deferred fun _ => diagram.unfoldFragment limit child) = .ok inner →
              diagram.MadeOnWalk children (Fragment.listVisits false (children.map fun child =>
                .deferred fun _ => diagram.unfoldFragment limit child)) := by
            intro children inner innerDone
            refine madeOnWalk_map fun child isChild => ?_
            obtain ⟨_, done⟩ :=
              Fragment.exists_meetings_of_mem innerDone (List.mem_map_of_mem isChild)
            exact inductionHypothesis done
          rw [unfolded] at searched ⊢
          cases entry with
          | message | wait | deadlock | create | «until» =>
              exact .enter present unfolded nowhere
          | loop _ body | duration _ _ body | deadline _ _ body | critical body =>
              exact .enter present unfolded (inductionHypothesis searched)
          | branch kind operands =>
              refine .enter present unfolded (madeOnWalk_map fun child isChild => ?_)
              obtain ⟨_, done⟩ :=
                Fragment.exists_meetings_of_mem searched (List.mem_map_of_mem isChild)
              exact madeOnWalk_branchOperand inductionHypothesis done
          | par operands =>
              obtain ⟨_, innerDone, _⟩ := bind_eq_ok_iff.mp searched
              exact .enter present unfolded (ofList innerDone)
          | operand guard fragments =>
              exact .enter present unfolded (ofList searched)

/-- What is found among visits is what stands at their places. -/
theorem filterMap_of_standsAt {β : Type} {select : Fragment → Option β}
    {standing : FragmentId → Option β} {places : List FragmentId} {visits : List Fragment}
    (same : ∀ {place visit}, diagram.StandsAt place visit → select visit = standing place)
    (stand : List.Forall₂ diagram.StandsAt places visits) :
    visits.filterMap select = places.filterMap standing := by
  induction stand with
  | nil =>
      rfl
  | cons stands _ inductionHypothesis =>
      rw [List.filterMap_cons, List.filterMap_cons, same stands, inductionHypothesis]

end Diagram

namespace Setting

variable {setting : Setting}

/-- The meetings and the messages of a body that was searched are those on the walk
through it. -/
theorem exists_walk (searched : Fragment.listMeetings setting.body = .ok setting.meetings) :
    ∃ places, setting.interaction.toDiagram.Walk setting.interaction.body places ∧
      setting.meetings = places.filterMap setting.interaction.meetingAt ∧
      Fragment.listMessages setting.body =
        .ok (places.filterMap setting.interaction.messageAt) := by
  have made : setting.interaction.toDiagram.MadeOnWalk setting.interaction.body
      (Fragment.listVisits false setting.body) := by
    refine Diagram.madeOnWalk_map fun start inBody => ?_
    obtain ⟨_, done⟩ := Fragment.exists_meetings_of_mem searched (List.mem_map_of_mem inBody)
    exact Diagram.madeOnWalk_of_meetings done
  obtain ⟨places, walk, stand⟩ := made
  have listed : ∃ messages, Fragment.listMessages setting.body = .ok messages := by
    rw [Fragment.listMessages_eq]
    refine exists_bind_eq_ok (exists_mapM_eq_ok fun part member => ?_) fun _ _ => ⟨_, rfl⟩
    obtain ⟨_, done⟩ := Fragment.exists_meetings_of_mem searched member
    exact Fragment.exists_messages_of_meetings done
  obtain ⟨messages, listed⟩ := listed
  refine ⟨places, walk, ?_, ?_⟩
  · rw [← Diagram.filterMap_of_standsAt Diagram.StandsAt.meeting?_eq stand]
    rw [Fragment.listMeetings_eq] at searched
    exact (Fragment.filterMap_listVisits
      (fun _ _ _ => Fragment.filterMap_meeting_visits) searched).symm
  · rw [← Diagram.filterMap_of_standsAt Diagram.StandsAt.message?_eq stand,
      (visited_of_mem_messages listed).1, listed]

/-- The fragments that are numbered for a kind are those on the walk at which there is
a meeting of that kind. -/
theorem fragments_eq_filter {places : List FragmentId}
    (found : setting.meetings = places.filterMap setting.interaction.meetingAt)
    (kind : HandshakeKind) :
    (setting.synchronisation kind).fragments =
      places.filter fun place => setting.interaction.meetingKindAt place = some kind := by
  rw [synchronisation_eq, Interaction.synchronisation, found]
  clear found
  induction places with
  | nil =>
      rfl
  | cons place rest inductionHypothesis =>
      rw [List.filterMap_cons, Diagram.meetingAt, List.filter_cons]
      cases setting.interaction.meetingKindAt place with
      | none =>
          exact inductionHypothesis
      | some other =>
          by_cases same : other = kind
          · simpa [same] using inductionHypothesis
          · simpa [same] using inductionHypothesis

end Setting

/-- The setting of an interaction holds what was found in its body. -/
theorem Specification.searched_of_setting {specification : Specification} {id : InteractionId}
    {setting : Setting} (found : specification.setting id = .ok setting) :
    setting.specification = specification ∧
      Fragment.listMeetings setting.body = .ok setting.meetings := by
  obtain ⟨interaction, meetings, _, searched, rfl⟩ := setting_eq_ok_iff.mp found
  exact ⟨rfl, searched⟩

end SequenceChart
