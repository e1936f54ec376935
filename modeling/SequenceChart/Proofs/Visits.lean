import SequenceChart.Proofs.HandshakeAgreement
import SequenceChart.Proofs.ModuleSuccess

/-!
The visits of a fragment are the fragments that are come by on the way through
it, each before those inside of it and once for every path that leads to it.
Lifelines pass the body of an until fragment by, while the process that runs such
bodies goes through them, so there are two ways to visit a fragment.

What other parts of the theory count is found among the visits: the messages of
the links, the fragments at which lifelines meet, critical regions, and timers.
A visit is always what stands at a place of the table that references lead to.
-/

namespace SequenceChart

namespace Fragment

mutual

/-- The fragments on the way through a fragment.  The bodies of until fragments
are on the way only if they are entered. -/
def visits (entering : Bool) : Fragment → List Fragment
  | .loop bound body => .loop bound body :: body.visits entering
  | .branch kind operands => .branch kind operands :: listVisits entering operands
  | .par id operands => .par id operands :: listVisits entering operands
  | .duration owner bound body => .duration owner bound body :: body.visits entering
  | .deadline owner units body => .deadline owner units body :: body.visits entering
  | .until id intra body =>
      .until id intra body :: (if entering then body.visits entering else [])
  | .critical id body => .critical id body :: body.visits entering
  | .operand guard fragments => .operand guard fragments :: listVisits entering fragments
  | .deferred content => (content ()).visits entering
  | fragment => [fragment]

/-- The fragments on the way through several fragments, in order. -/
def listVisits (entering : Bool) : List Fragment → List Fragment
  | [] => []
  | fragment :: rest => fragment.visits entering ++ listVisits entering rest

end

@[simp]
theorem listVisits_eq_flatMap (entering : Bool) (fragments : List Fragment) :
    listVisits entering fragments = fragments.flatMap (visits entering) := by
  induction fragments with
  | nil =>
      rfl
  | cons fragment rest inductionHypothesis =>
      rw [listVisits, List.flatMap_cons, inductionHypothesis]

theorem mem_listVisits {entering : Bool} {fragments : List Fragment} {visit : Fragment} :
    visit ∈ listVisits entering fragments ↔
      ∃ fragment ∈ fragments, visit ∈ fragment.visits entering := by
  rw [listVisits_eq_flatMap, List.mem_flatMap]

/-- A guard makes no difference to what is found among the visits, if operands
themselves are not looked for. -/
theorem filterMap_visits_unguarded {β : Type} {select : Fragment → Option β}
    (passed : ∀ guard fragments, select (.operand guard fragments) = none)
    (entering : Bool) (fragment : Fragment) :
    (fragment.unguarded.visits entering).filterMap select =
      (fragment.visits entering).filterMap select := by
  cases fragment with
  | operand guard fragments =>
      rw [unguarded, visits, visits, List.filterMap_cons_none (passed none fragments),
        List.filterMap_cons_none (passed guard fragments)]
  | _ =>
      rfl

def message? : Fragment → Option Message
  | .message content => some content
  | _ => none

def meeting? : Fragment → Option Meeting
  | .par id _ => some ⟨.par, id⟩
  | .until id _ _ => some ⟨.until, id⟩
  | _ => none

def isCritical : Fragment → Bool
  | .critical _ _ => true
  | _ => false

/-- What is worked out for the fragments of a list is found among their visits, if
it is so for each of them. -/
theorem filterMap_listVisits {β : Type} {select : Fragment → Option β}
    {work : Fragment → Except Fault (List β)} {fragments : List Fragment} {found : List β}
    (each : ∀ fragment ∈ fragments, ∀ part, work fragment = .ok part →
      (fragment.visits false).filterMap select = part)
    (done : (do let parts ← fragments.mapM work; return parts.flatten) = .ok found) :
    (listVisits false fragments).filterMap select = found := by
  obtain ⟨parts, partsDone, last⟩ := bind_eq_ok_iff.mp done
  cases last
  have related := mapM_eq_ok_iff.mp partsDone
  clear done partsDone
  induction related with
  | nil =>
      rfl
  | @cons fragment part rest others partDone _ inductionHypothesis =>
      have ofRest := inductionHypothesis fun other member =>
        each other (List.mem_cons_of_mem fragment member)
      have ofFirst := each fragment List.mem_cons_self part partDone
      rw [listVisits, List.filterMap_append, ofRest, ofFirst]
      rfl

/-- The messages of the links are those among the visits that pass until bodies by. -/
theorem filterMap_message_visits {fragment : Fragment} {found : List Message}
    (done : fragment.messages = .ok found) :
    (fragment.visits false).filterMap message? = found := by
  induction fragment using inductionOn generalizing found with
  | message | wait | deadlock | create | «until» =>
      cases done
      rfl
  | loop _ _ inductionHypothesis | duration _ _ _ inductionHypothesis
  | deadline _ _ _ inductionHypothesis | critical _ _ inductionHypothesis
  | deferred _ inductionHypothesis =>
      exact inductionHypothesis done
  | branch kind operands inductionHypothesis =>
      rw [messages, listMessages_eq] at done
      refine filterMap_listVisits ?_ done
      intro operand member part partDone
      rw [← filterMap_visits_unguarded (fun _ _ => rfl)]
      refine inductionHypothesis operand member ?_
      cases operand <;> exact partDone
  | par _ _ inductionHypothesis | operand _ _ inductionHypothesis =>
      rw [messages, listMessages_eq] at done
      exact filterMap_listVisits (fun part member _ => inductionHypothesis part member) done
  | unresolved fault =>
      cases done

/-- The meetings that are recorded are those among the visits that pass until
bodies by. -/
theorem filterMap_meeting_visits {fragment : Fragment} {found : List Meeting}
    (done : fragment.meetings = .ok found) :
    (fragment.visits false).filterMap meeting? = found := by
  induction fragment using inductionOn generalizing found with
  | message | wait | deadlock | create | «until» =>
      cases done
      rfl
  | loop _ _ inductionHypothesis | duration _ _ _ inductionHypothesis
  | deadline _ _ _ inductionHypothesis | critical _ _ inductionHypothesis
  | deferred _ inductionHypothesis =>
      exact inductionHypothesis done
  | branch kind operands inductionHypothesis =>
      rw [meetings, listMeetings_eq] at done
      refine filterMap_listVisits ?_ done
      intro operand member part partDone
      rw [← filterMap_visits_unguarded (fun _ _ => rfl)]
      refine inductionHypothesis operand member ?_
      cases operand <;> exact partDone
  | par id operands inductionHypothesis =>
      obtain ⟨inner, innerDone, last⟩ := bind_eq_ok_iff.mp done
      cases last
      rw [listMeetings_eq] at innerDone
      have ofOperands := filterMap_listVisits
        (fun part member _ => inductionHypothesis part member) innerDone
      rw [visits, List.filterMap_cons, ofOperands]
      rfl
  | operand _ _ inductionHypothesis =>
      rw [meetings, listMeetings_eq] at done
      exact filterMap_listVisits (fun part member _ => inductionHypothesis part member) done
  | unresolved fault =>
      cases done

/-- What lifelines visit in a sound fragment is sound, and its meetings are recorded if
those of the fragment are. -/
theorem Sound.of_mem_visits {setting : Setting} {view : Viewpoint}
    {specification : Specification} {diagram : Diagram} {fragment visit : Fragment}
    (sound : fragment.Sound specification diagram) (numbered : fragment.Numbered setting view)
    (member : visit ∈ fragment.visits false) :
    visit.Sound specification diagram ∧ visit.Numbered setting view := by
  have itself := And.intro sound numbered
  induction sound with
  | message | wait | deadlock | create | «until» =>
      cases List.mem_singleton.mp member
      exact itself
  | loop _ _ bodySound inductionHypothesis | duration _ _ bodySound inductionHypothesis
  | deadline _ _ bodySound inductionHypothesis | critical _ bodySound inductionHypothesis =>
      rcases List.mem_cons.mp member with rfl | inside
      · exact itself
      · exact inductionHypothesis numbered inside ⟨bodySound, numbered⟩
  | branch _ partsSound inductionHypothesis | operand _ partsSound inductionHypothesis =>
      rcases List.mem_cons.mp member with rfl | inside
      · exact itself
      · obtain ⟨part, isPart, inPart⟩ := mem_listVisits.mp inside
        have partNumbered := numbered_of_mem numbered part isPart
        exact inductionHypothesis part isPart partNumbered inPart
          ⟨partsSound part isPart, partNumbered⟩
  | par _ partsSound inductionHypothesis =>
      rcases List.mem_cons.mp member with rfl | inside
      · exact itself
      · obtain ⟨part, isPart, inPart⟩ := mem_listVisits.mp inside
        have partNumbered := numbered.par.2 part isPart
        exact inductionHypothesis part isPart partNumbered inPart
          ⟨partsSound part isPart, partNumbered⟩
  | deferred contentSound inductionHypothesis =>
      exact inductionHypothesis numbered member ⟨contentSound, numbered⟩

end Fragment

namespace Diagram

variable (diagram : Diagram)

def Leads : Bool → FragmentId → FragmentId → Prop
  | true => diagram.FragmentRefers
  | false => diagram.LeadsTo

def Visited (entering : Bool) (id : FragmentId) : Prop :=
  ∃ start ∈ diagram.body, Relation.ReflTransGen (diagram.Leads entering) start id

variable {diagram} {entering : Bool}

/-- What passes until bodies by comes to no more than what enters them. -/
theorem LeadsTo.refers {parent child : FragmentId} (leads : diagram.LeadsTo parent child) :
    diagram.FragmentRefers parent child := by
  obtain ⟨entry, present, isNext⟩ := leads
  refine ⟨entry, present, ?_⟩
  cases entry with
  | «until» intra body =>
      cases isNext
  | _ =>
      exact isNext

theorem Visited.fully {id : FragmentId} (visited : diagram.Visited false id) :
    diagram.Visited true id := by
  obtain ⟨start, inBody, path⟩ := visited
  exact ⟨start, inBody, Relation.ReflTransGen.mono (fun _ _ => LeadsTo.refers) _ _ path⟩

/-- Ways through an entry go on to all it refers to, if it is no until fragment. -/
private theorem leads_of_child {parent child : FragmentId} {entry : FragmentEntry}
    (present : diagram.fragments[parent.index]? = some entry)
    (goesOn : entry.entered = entry.children) (isChild : child ∈ entry.children) :
    diagram.Leads entering parent child := by
  cases entering with
  | true =>
      exact ⟨entry, present, isChild⟩
  | false =>
      exact ⟨entry, present, goesOn ▸ isChild⟩

/-- The visit is what stands at a place to which references lead from a start. -/
def StandsBehind (diagram : Diagram) (entering : Bool) (start : FragmentId)
    (visit : Fragment) : Prop :=
  ∃ reached depth, Relation.ReflTransGen (diagram.Leads entering) start reached ∧
    visit = diagram.unfoldFragment depth reached

theorem StandsBehind.step {parent child : FragmentId} {visit : Fragment}
    (leads : diagram.Leads entering parent child)
    (stands : diagram.StandsBehind entering child visit) :
    diagram.StandsBehind entering parent visit := by
  obtain ⟨reached, depth, path, same⟩ := stands
  exact ⟨reached, depth, .head leads path, same⟩

/-- In a branch, an operand is unfolded together with the branch itself. -/
private theorem standsBehind_branchOperand {limit : Nat} {id : FragmentId} {visit : Fragment}
    (below : ∀ child, visit ∈ (diagram.unfoldFragment limit child).visits entering →
      diagram.StandsBehind entering child visit)
    (member : visit ∈ (diagram.branchOperand
      (fun child => .deferred fun _ => diagram.unfoldFragment limit child) id).visits
        entering) :
    diagram.StandsBehind entering id visit := by
  unfold branchOperand at member
  split at member
  · rename_i guard fragments found
    have unfolded : diagram.unfoldFragment (limit + 1) id = .operand guard
        (fragments.map fun child => .deferred fun _ => diagram.unfoldFragment limit child) := by
      rw [unfoldFragment, found]
    rcases List.mem_cons.mp member with same | inside
    · exact ⟨id, limit + 1, .refl, same.trans unfolded.symm⟩
    · obtain ⟨fragment, isMapped, inFragment⟩ := Fragment.mem_listVisits.mp inside
      obtain ⟨child, isChild, rfl⟩ := List.mem_map.mp isMapped
      exact (below child inFragment).step
        (leads_of_child (entryAt_eq_ok_iff.mp found) rfl isChild)
  · exact below id member

/-- Every visit is what stands at a place to which references lead. -/
theorem standsBehind_of_mem_visits {limit : Nat} {id : FragmentId} {visit : Fragment}
    (member : visit ∈ (diagram.unfoldFragment limit id).visits entering) :
    diagram.StandsBehind entering id visit := by
  induction limit generalizing id with
  | zero =>
      exact ⟨id, 0, .refl, List.mem_singleton.mp member⟩
  | succ limit inductionHypothesis =>
      by_cases itself : visit = diagram.unfoldFragment (limit + 1) id
      · exact ⟨id, limit + 1, .refl, itself⟩
      cases found : entryAt diagram.fragments id.index with
      | error fault =>
          rw [unfoldFragment, found] at member itself
          exact absurd (List.mem_singleton.mp member) itself
      | ok entry =>
          have present := entryAt_eq_ok_iff.mp found
          have ofChild : ∀ child, diagram.Leads entering id child →
              visit ∈ (diagram.unfoldFragment limit child).visits entering →
              diagram.StandsBehind entering id visit :=
            fun child leads inChild => (inductionHypothesis inChild).step leads
          have ofChildren : entry.entered = entry.children →
              visit ∈ Fragment.listVisits entering (entry.children.map fun child =>
                .deferred fun _ => diagram.unfoldFragment limit child) →
              diagram.StandsBehind entering id visit := by
            intro goesOn inside
            obtain ⟨fragment, isMapped, inFragment⟩ := Fragment.mem_listVisits.mp inside
            obtain ⟨child, isChild, rfl⟩ := List.mem_map.mp isMapped
            exact ofChild child (leads_of_child present goesOn isChild) inFragment
          rw [unfoldFragment, found] at member itself
          cases entry with
          | message | wait | deadlock | create =>
              exact absurd (List.mem_singleton.mp member) itself
          | loop _ body | duration _ _ body | deadline _ _ body | critical body =>
              have inBody := (List.mem_cons.mp member).resolve_left itself
              exact ofChild body (leads_of_child present rfl List.mem_cons_self) inBody
          | branch kind operands =>
              have inside := (List.mem_cons.mp member).resolve_left itself
              obtain ⟨fragment, isMapped, inFragment⟩ := Fragment.mem_listVisits.mp inside
              obtain ⟨child, isChild, rfl⟩ := List.mem_map.mp isMapped
              exact (standsBehind_branchOperand (fun _ => inductionHypothesis) inFragment).step
                (leads_of_child present rfl isChild)
          | par operands | operand guard fragments =>
              exact ofChildren rfl ((List.mem_cons.mp member).resolve_left itself)
          | «until» intra body =>
              have inside := (List.mem_cons.mp member).resolve_left itself
              cases entering with
              | true =>
                  exact ofChild body ⟨_, present, List.mem_cons_self⟩ inside
              | false =>
                  cases inside

/-- What is visited from a visited place stands at a visited place. -/
theorem Visited.exists_of_mem {start : FragmentId} {limit : Nat} {visit : Fragment}
    (visited : diagram.Visited entering start)
    (member : visit ∈ (diagram.unfoldFragment limit start).visits entering) :
    ∃ id depth, diagram.Visited entering id ∧ visit = diagram.unfoldFragment depth id := by
  obtain ⟨first, inBody, path⟩ := visited
  obtain ⟨id, depth, further, same⟩ := standsBehind_of_mem_visits member
  exact ⟨id, depth, ⟨first, inBody, path.trans further⟩, same⟩

/-- Every visit of the body stands at a visited place. -/
theorem exists_visited_of_mem {visit : Fragment}
    (member : visit ∈ Fragment.listVisits entering diagram.bodyFragments) :
    ∃ id depth, diagram.Visited entering id ∧ visit = diagram.unfoldFragment depth id := by
  obtain ⟨fragment, isMapped, inFragment⟩ := Fragment.mem_listVisits.mp member
  obtain ⟨start, inBody, rfl⟩ := List.mem_map.mp isMapped
  exact Visited.exists_of_mem ⟨start, inBody, .refl⟩ inFragment

/-- A message stands where the table has it. -/
theorem message_of_unfoldFragment {depth : Nat} {id : FragmentId} {content : Message}
    (found : (diagram.unfoldFragment depth id).message? = some content) :
    diagram.fragments[id.index]? = some (.message content) := by
  cases depth with
  | zero =>
      cases found
  | succ depth =>
      rw [← entryAt_eq_ok_iff]
      cases present : entryAt diagram.fragments id.index with
      | error fault =>
          rw [unfoldFragment, present] at found
          cases found
      | ok entry =>
          rw [unfoldFragment, present] at found
          cases entry <;> cases found
          rfl

/-- A meeting at an until fragment takes place where the table has the fragment. -/
theorem until_of_unfoldFragment {depth : Nat} {id other : FragmentId}
    (found : (diagram.unfoldFragment depth id).meeting? = some ⟨.until, other⟩) :
    other = id ∧ ∃ intra body, diagram.fragments[id.index]? = some (.until intra body) := by
  cases depth with
  | zero =>
      cases found
  | succ depth =>
      cases present : entryAt diagram.fragments id.index with
      | error fault =>
          rw [unfoldFragment, present] at found
          cases found
      | ok entry =>
          rw [unfoldFragment, present] at found
          cases entry <;> cases found
          exact ⟨rfl, _, _, entryAt_eq_ok_iff.mp present⟩

/-- A critical region stands where the table has one. -/
theorem critical_of_unfoldFragment {depth : Nat} {id : FragmentId}
    (found : (diagram.unfoldFragment depth id).isCritical = true) :
    ∃ body, diagram.fragments[id.index]? = some (.critical body) := by
  cases depth with
  | zero =>
      cases found
  | succ depth =>
      cases present : entryAt diagram.fragments id.index with
      | error fault =>
          rw [unfoldFragment, present] at found
          cases found
      | ok entry =>
          rw [unfoldFragment, present] at found
          cases entry <;> cases found
          exact ⟨_, entryAt_eq_ok_iff.mp present⟩

variable (diagram entering) in
/-- No way through the body comes to a critical region. -/
def AvoidsCritical : Prop :=
  ∀ id, diagram.Visited entering id → ∀ body,
    diagram.fragments[id.index]? ≠ some (.critical body)

theorem uncritical_iff : diagram.Uncritical ↔ diagram.AvoidsCritical false := by
  constructor
  · rintro free id ⟨start, inBody, path⟩
    exact free start inBody id path
  · intro avoids start inBody id path
    exact avoids id ⟨start, inBody, path⟩

/-- What enters until bodies without coming to a critical region does not come to
one outside of them. -/
theorem AvoidsCritical.outside (avoids : diagram.AvoidsCritical true) :
    diagram.AvoidsCritical false :=
  fun id visited => avoids id visited.fully

/-- A visit at a visited place is no critical region, if none is on the way. -/
theorem AvoidsCritical.isCritical_eq (avoids : diagram.AvoidsCritical entering)
    {visit : Fragment}
    (stands : ∃ id depth, diagram.Visited entering id ∧
      visit = diagram.unfoldFragment depth id) :
    visit.isCritical = false := by
  obtain ⟨id, depth, visited, rfl⟩ := stands
  rw [← Bool.not_eq_true]
  intro critical
  obtain ⟨body, present⟩ := critical_of_unfoldFragment critical
  exact avoids id visited body present

end Diagram

/-- The messages of the links stand outside of until bodies. -/
theorem Setting.visited_of_mem_messages {setting : Setting} {messages : List Message}
    (listed : Fragment.listMessages setting.body = .ok messages) :
    (Fragment.listVisits false setting.body).filterMap Fragment.message? = messages ∧
      ∀ message ∈ messages, ∃ place, setting.interaction.toDiagram.Visited false place ∧
        setting.interaction.fragments[place.index]? = some (.message message) := by
  rw [Fragment.listMessages_eq] at listed
  have found := Fragment.filterMap_listVisits
    (fun _ _ _ => Fragment.filterMap_message_visits) listed
  refine ⟨found, ?_⟩
  intro message member
  rw [← found, List.mem_filterMap] at member
  obtain ⟨visit, isVisit, isMessage⟩ := member
  obtain ⟨place, depth, visited, rfl⟩ := Diagram.exists_visited_of_mem isVisit
  exact ⟨place, visited, Diagram.message_of_unfoldFragment isMessage⟩

end SequenceChart
