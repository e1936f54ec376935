import SequenceChart.Proofs.HandshakeAgreement
import SequenceChart.Proofs.ProjectionReports

/-!
Whether a fragment concerns a viewpoint can be told from the table of fragments: a
fragment concerns whoever takes part in it, and whoever something inside of it
concerns.  Rendering a fragment goes on to the fragments that it leads to, for the
same viewpoint, and to the body of an until fragment for the process that runs it,
unless lifelines meet there.

A projection comes to something if and only if the fragment concerns the viewpoint,
and its reports are about the fragments that rendering comes by: each lifeline
creation and each critical region among them that concerns the viewpoint for which
it is rendered there.
-/

namespace SequenceChart

namespace FragmentEntry

/-- Whether a viewpoint takes part in a fragment, whatever is inside of it. -/
def concernsItself (setting : Setting) (view : Viewpoint) : FragmentEntry → Bool
  | .message content => view.isFor content.sender || view.isFor content.receiver
  | .wait actor _ => view.isFor actor
  | .deadlock actor => view.isFor actor
  | .create actor created => view.isFor actor || view.isFor created
  | .par _ => setting.meetsAt view .par
  | .duration owner _ _ => view.isFor owner
  | .deadline owner _ _ => view.isFor owner
  | .until _ _ => true
  | _ => false

/-- What kind of construct without meaning the entry is, if it is one. -/
def unsupported? : FragmentEntry → Option String
  | .create _ _ => some "lifeline creation"
  | .critical _ => some "critical region"
  | _ => none

def rendered (setting : Setting) (view : Viewpoint) :
    FragmentEntry → List (Viewpoint × FragmentId)
  | .until _ body => if setting.meetsAt view .until then [] else [(.until, body)]
  | entry => entry.entered.map fun child => (view, child)

end FragmentEntry

namespace Setting

/-- The fragment concerns the viewpoint. -/
inductive Concerns (setting : Setting) (view : Viewpoint) : FragmentId → Prop
  | itself {id : FragmentId} {entry : FragmentEntry} :
      setting.interaction.fragments[id.index]? = some entry →
      entry.concernsItself setting view = true → Concerns setting view id
  | inside {id child : FragmentId} :
      setting.interaction.toDiagram.LeadsTo id child → Concerns setting view child →
      Concerns setting view id

def GoesOnTo (setting : Setting) (place next : Viewpoint × FragmentId) : Prop :=
  ∃ entry, setting.interaction.fragments[place.2.index]? = some entry ∧
    next ∈ entry.rendered setting place.1

def warningAt (setting : Setting) (id : FragmentId) : Option Report :=
  (setting.interaction.fragments[id.index]?.bind FragmentEntry.unsupported?).map
    (setting.warning id)

/-- The report is about a fragment that rendering comes by, and that concerns the viewpoint
for which it is rendered there. -/
def ReportsFrom (setting : Setting) (place : Viewpoint × FragmentId) (content : Report) :
    Prop :=
  ∃ reached, Relation.ReflTransGen setting.GoesOnTo place reached ∧
    setting.Concerns reached.1 reached.2 ∧ setting.warningAt reached.2 = some content

variable {setting : Setting} {view : Viewpoint} {id : FragmentId} {entry : FragmentEntry}

theorem concerns_iff (present : setting.interaction.fragments[id.index]? = some entry) :
    setting.Concerns view id ↔ entry.concernsItself setting view = true ∨
      ∃ child ∈ entry.entered, setting.Concerns view child := by
  constructor
  · intro concerns
    cases concerns with
    | itself found own =>
        cases present.symm.trans found
        exact .inl own
    | inside leads childConcerns =>
        obtain ⟨_, found, member⟩ := leads
        cases present.symm.trans found
        exact .inr ⟨_, member, childConcerns⟩
  · rintro (own | ⟨child, member, childConcerns⟩)
    · exact .itself present own
    · exact .inside ⟨entry, present, member⟩ childConcerns

/-- What is rendered along with an entry decides about its relevance. -/
theorem concerns_iff_rendered
    (present : setting.interaction.fragments[id.index]? = some entry) :
    setting.Concerns view id ↔ entry.concernsItself setting view = true ∨
      ∃ part ∈ entry.rendered setting view, setting.Concerns part.1 part.2 := by
  rw [concerns_iff present]
  cases entry with
  | «until» intra body =>
      simp [FragmentEntry.concernsItself]
  | _ =>
      simp only [FragmentEntry.rendered, List.mem_map, exists_exists_and_eq_and]

theorem goesOnTo_iff (present : setting.interaction.fragments[id.index]? = some entry)
    {next : Viewpoint × FragmentId} :
    setting.GoesOnTo (view, id) next ↔ next ∈ entry.rendered setting view := by
  constructor
  · rintro ⟨_, found, member⟩
    cases present.symm.trans found
    exact member
  · intro member
    exact ⟨entry, present, member⟩

theorem reportsFrom_iff (present : setting.interaction.fragments[id.index]? = some entry)
    {content : Report} :
    setting.ReportsFrom (view, id) content ↔
      (setting.Concerns view id ∧ setting.warningAt id = some content) ∨
        ∃ part ∈ entry.rendered setting view, setting.ReportsFrom part content := by
  constructor
  · rintro ⟨reached, path, reports⟩
    rcases Relation.ReflTransGen.cases_head path with same | ⟨next, first, rest⟩
    · rw [← same] at reports
      exact .inl reports
    · exact .inr ⟨next, (goesOnTo_iff present).mp first, reached, rest, reports⟩
  · rintro (reports | ⟨part, member, reached, path, reports⟩)
    · exact ⟨(view, id), .refl, reports⟩
    · exact ⟨reached, .head ((goesOnTo_iff present).mpr member) path, reports⟩

/-- The projection of a fragment is what the table says of a place: it comes to something
if the place concerns the viewpoint, and makes the reports that rendering comes by.  The
until fragments at which rendering stops are recorded. -/
structure Follows (setting : Setting) (view : Viewpoint) (id : FragmentId)
    (fragment : Fragment) : Prop where
  relevant : ∀ {seen}, (fragment.project setting view).result = .ok seen →
    (seen.isSome = true ↔ setting.Concerns view id)
  reported : ∀ {seen}, (fragment.project setting view).result = .ok seen → ∀ content,
    content ∈ (fragment.project setting view).reports ↔ setting.ReportsFrom (view, id) content
  recorded : ∀ {seen}, (fragment.project setting view).result = .ok seen →
    ∀ reached intra body, Relation.ReflTransGen setting.GoesOnTo (view, id) reached →
      setting.interaction.fragments[reached.2.index]? = some (.until intra body) →
      setting.meetsAt reached.1 .until = true → reached.2 ∈ setting.untils.fragments

/-- A fragment follows the table if its parts do. -/
theorem follows_of_isMadeOf {fragment : Fragment} (part : FragmentId → Fragment)
    (present : setting.interaction.fragments[id.index]? = some entry)
    (made : fragment.IsMadeOf setting view (entry.concernsItself setting view)
      (entry.unsupported?.map (setting.warning id))
      ((entry.rendered setting view).map fun next => (next.1, part next.2)))
    (each : ∀ next ∈ entry.rendered setting view,
      setting.Follows next.1 next.2 (part next.2))
    (own : ∀ {seen}, (fragment.project setting view).result = .ok seen →
      ∀ intra body, entry = .until intra body → setting.meetsAt view .until = true →
        id ∈ setting.untils.fragments) :
    setting.Follows view id fragment := by
  have partsDone : ∀ {seen}, (fragment.project setting view).result = .ok seen →
      ∀ next ∈ entry.rendered setting view,
        ∃ inner, ((part next.2).project setting next.1).result = .ok inner := by
    intro seen done next member
    exact made.completes done _ (List.mem_map_of_mem member)
  have relevant : ∀ {seen}, (fragment.project setting view).result = .ok seen →
      (seen.isSome = true ↔ setting.Concerns view id) := by
    intro seen done
    rw [made.relevant done, concerns_iff_rendered present]
    simp only [List.mem_map, exists_exists_and_eq_and]
    refine or_congr_right (exists_congr fun next => and_congr_right fun member => ?_)
    obtain ⟨inner, innerDone⟩ := partsDone done next member
    rw [← (each next member).relevant innerDone, Option.isSome_iff_exists]
    simp [innerDone]
  refine ⟨relevant, ?_, ?_⟩
  · intro seen done content
    have warned : setting.warningAt id = entry.unsupported?.map (setting.warning id) := by
      rw [warningAt, present, Option.bind_some]
    rw [made.reported done, reportsFrom_iff present, relevant done, warned]
    simp only [List.mem_map, exists_exists_and_eq_and]
    refine or_congr_right (exists_congr fun next => and_congr_right fun member => ?_)
    obtain ⟨inner, innerDone⟩ := partsDone done next member
    exact (each next member).reported innerDone content
  · intro seen done reached intra body path found met
    rcases Relation.ReflTransGen.cases_head path with same | ⟨next, first, rest⟩
    · rw [← same] at found met ⊢
      cases present.symm.trans found
      exact own done intra body rfl met
    · have member := (goesOnTo_iff present).mp first
      obtain ⟨inner, innerDone⟩ := partsDone done next member
      exact (each next member).recorded innerDone reached intra body rest found met

/-- A leaf that holds a fault follows any place, as it is never rendered. -/
theorem follows_unresolved (fault : Fault) :
    setting.Follows view id (.unresolved fault) :=
  ⟨fun done => (by cases done), fun done => (by cases done), fun done => (by cases done)⟩

theorem Follows.deferred {content : Unit → Fragment}
    (follows : setting.Follows view id (content ())) :
    setting.Follows view id (.deferred content) := by
  have same : (Fragment.deferred content).project setting view =
      (content ()).project setting view := by
    rw [Fragment.project]
  refine ⟨?_, ?_, ?_⟩
  · rw [same]
    exact follows.relevant
  · rw [same]
    exact follows.reported
  · rw [same]
    exact follows.recorded

/-- Parts that are rendered for the same viewpoint are those of a list of fragments. -/
private theorem map_rendered (part : FragmentId → Fragment) (children : List FragmentId) :
    (children.map fun child => (view, child)).map (fun next => (next.1, part next.2)) =
      (children.map part).map fun fragment => (view, fragment) := by
  rw [List.map_map, List.map_map]
  rfl

/-- An operand follows its place with and without its guard. -/
theorem follows_operand {listed : Option ExpressionId} {fragments : List FragmentId}
    (part : FragmentId → Fragment)
    (present : setting.interaction.fragments[id.index]? = some (.operand listed fragments))
    (each : ∀ view child, setting.Follows view child (part child))
    (guard : Option ExpressionId) :
    setting.Follows view id (.operand guard (fragments.map part)) := by
  apply follows_of_isMadeOf part present
  · rw [FragmentEntry.rendered, map_rendered]
    · exact Fragment.isMadeOf_operand guard (fragments.map part)
    · simp
  · exact fun next _ => each next.1 next.2
  · intro _ _ intra body other
    cases other

/-- An operand of a branch follows its place, as it shows its guard there. -/
theorem follows_branchOperand {part : FragmentId → Fragment}
    (each : ∀ view child, setting.Follows view child (part child))
    (unguarded : ∀ child, (part child).unguarded = part child) :
    setting.Follows view id
      (setting.interaction.branchOperand part id).unguarded := by
  unfold Diagram.branchOperand
  split
  · rename_i guard fragments found
    exact follows_operand part (entryAt_eq_ok_iff.mp found) each none
  · rw [unguarded]
    exact each view id

/-- What stands at a place follows it, however deep references are followed. -/
theorem follows_unfoldFragment (depth : Nat) (view : Viewpoint) (id : FragmentId) :
    setting.Follows view id (setting.interaction.unfoldFragment depth id) := by
  induction depth generalizing view id with
  | zero =>
      exact follows_unresolved .cyclicReference
  | succ depth inductionHypothesis =>
      cases found : entryAt setting.interaction.fragments id.index with
      | error fault =>
          rw [Diagram.unfoldFragment, found]
          exact follows_unresolved fault
      | ok entry =>
          have present := entryAt_eq_ok_iff.mp found
          let part : FragmentId → Fragment := fun child =>
            .deferred fun _ => setting.interaction.unfoldFragment depth child
          have each : ∀ view child, setting.Follows view child (part child) :=
            fun view child => (inductionHypothesis view child).deferred
          have follows : ∀ {fragment}, fragment.IsMadeOf setting view
              (entry.concernsItself setting view) (entry.unsupported?.map (setting.warning id))
              ((entry.rendered setting view).map fun next => (next.1, part next.2)) →
              (∀ intra body, entry ≠ .until intra body) →
              setting.Follows view id fragment := by
            intro fragment made other
            exact follows_of_isMadeOf part present made (fun next _ => each next.1 next.2)
              fun _ intra body same => absurd same (other intra body)
          rw [Diagram.unfoldFragment, found]
          cases entry with
          | message content =>
              exact follows (Fragment.isMadeOf_message content) (by simp)
          | wait actor units =>
              exact follows (Fragment.isMadeOf_wait actor units) (by simp)
          | deadlock actor =>
              exact follows (Fragment.isMadeOf_deadlock actor) (by simp)
          | create actor created =>
              exact follows (Fragment.isMadeOf_create id actor created) (by simp)
          | loop bound body =>
              exact follows (Fragment.isMadeOf_loop bound _) (by simp)
          | duration owner bound body =>
              exact follows (Fragment.isMadeOf_duration owner bound _) (by simp)
          | deadline owner units body =>
              exact follows (Fragment.isMadeOf_deadline owner units _) (by simp)
          | critical body =>
              exact follows (Fragment.isMadeOf_critical id _) (by simp)
          | «until» intra body =>
              obtain ⟨inside, _⟩ := Array.getElem?_eq_some_iff.mp present
              apply follows_of_isMadeOf part present
              · rw [FragmentEntry.rendered, apply_ite (List.map _)]
                exact Fragment.isMadeOf_until id intra (part body)
              · exact fun next _ => each next.1 next.2
              · intro seen done _ _ _ met
                exact Fragment.recorded_of_result inside done met
          | branch kind operands =>
              apply follows_of_isMadeOf
                (fun child => (setting.interaction.branchOperand part child).unguarded) present
              · have made : (Fragment.branch kind (operands.map
                    (setting.interaction.branchOperand part))).IsMadeOf setting view _ _ _ :=
                  Fragment.isMadeOf_branch kind _
                rw [FragmentEntry.rendered, List.map_map]
                · rw [List.map_map] at made
                  exact made
                · simp
              · intro next _
                exact follows_branchOperand each fun _ => rfl
              · intro _ _ intra body other
                cases other
          | par operands =>
              refine follows ?_ (by simp)
              rw [FragmentEntry.rendered, map_rendered]
              · exact Fragment.isMadeOf_par id (operands.map part)
              · simp
          | operand guard fragments =>
              exact follows_operand part present each guard

end Setting

end SequenceChart
