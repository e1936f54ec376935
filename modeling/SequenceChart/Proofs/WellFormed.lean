import SequenceChart.Expression
import SequenceChart.Fragment
import SequenceChart.Specification
import Mathlib.Data.Finset.Card
import Mathlib.Data.Finset.Range
import Mathlib.Logic.Relation
import Mathlib.Tactic.MkIffOfInductiveProp

/-!
# Well-formed diagrams

A diagram is closed if all its references stay inside their tables and every
loop bound has a side, and well formed if no reference leads back to where it
started either.
Following references then never comes to a fault: an entry lies deeper than
all that refer to it, and no chain of entries is longer than the table, so the
depth down to which references are followed is always enough.

Expressions and fragments without faults are `Sound`.  Soundness says of a tree
what well-formedness says of the tables, and gives the induction by which all
that is worked out from a diagram is shown to succeed.
-/

namespace SequenceChart

theorem entryAt_eq_ok_iff {α : Type} {entries : Array α} {index : Nat} {entry : α} :
    entryAt entries index = .ok entry ↔ entries[index]? = some entry := by
  unfold entryAt
  cases found : entries[index]? with
  | none =>
      simp
  | some other =>
      simp

theorem exists_entryAt {α : Type} {entries : Array α} {index : Nat}
    (inside : index < entries.size) :
    ∃ entry, entryAt entries index = .ok entry ∧ entry ∈ entries := by
  have found : entries[index]? = some entries[index] := Array.getElem?_eq_getElem inside
  exact ⟨entries[index], entryAt_eq_ok_iff.mpr found, Array.getElem_mem inside⟩

namespace FragmentEntry

def children : FragmentEntry → List FragmentId
  | .loop _ body => [body]
  | .branch _ operands => operands
  | .par operands => operands
  | .duration _ _ body => [body]
  | .deadline _ _ body => [body]
  | .until _ body => [body]
  | .critical body => [body]
  | .operand _ fragments => fragments
  | _ => []

def actors : FragmentEntry → List ActorId
  | .message content => [content.sender, content.receiver]
  | .wait actor _ => [actor]
  | .deadlock actor => [actor]
  | .create actor created => [actor, created]
  | .duration owner _ _ => [owner]
  | .deadline owner _ _ => [owner]
  | _ => []

def expressions : FragmentEntry → List ExpressionId
  | .message content => content.values
  | .wait _ units => [units]
  | .loop bound _ => bound.toList.flatMap Bound.sides
  | .duration _ bound _ => bound.sides
  | .deadline _ units _ => [units]
  | .operand guard _ => guard.toList
  | _ => []

def bindings : FragmentEntry → List VariableId
  | .message content => content.bindings
  | _ => []

def loopBound : FragmentEntry → Option Bound
  | .loop bound _ => bound
  | _ => none

end FragmentEntry

namespace ExpressionEntry

def children : ExpressionEntry → List ExpressionId
  | .unary _ operand => [operand]
  | .binary _ left right => [left, right]
  | _ => []

def reads : ExpressionEntry → List VariableId
  | .var id => [id]
  | _ => []

def constants : ExpressionEntry → List ConstantId
  | .const id => [id]
  | _ => []

end ExpressionEntry

/-- The interactions that own variables are entries of their table. -/
def Specification.OwnersKnown (specification : Specification) : Prop :=
  ∀ found ∈ specification.vars, ∀ owner ∈ found.owner,
    owner.index < specification.interactions.size

instance (specification : Specification) : Decidable specification.OwnersKnown :=
  inferInstanceAs (Decidable (∀ found ∈ specification.vars, ∀ owner ∈ found.owner, _))

namespace Diagram

variable (diagram : Diagram)

def FragmentRefers (parent child : FragmentId) : Prop :=
  ∃ entry, diagram.fragments[parent.index]? = some entry ∧ child ∈ entry.children

def ExpressionRefers (parent child : ExpressionId) : Prop :=
  ∃ entry, diagram.expressions[parent.index]? = some entry ∧ child ∈ entry.children

/-- All references stay inside their tables, and every loop bound has a side. -/
@[mk_iff]
structure Closed (specification : Specification) : Prop where
  bodyKnown : ∀ id ∈ diagram.body, id.index < diagram.fragments.size
  lifelinesKnown : ∀ actor ∈ diagram.lifelines, actor.index < specification.actors.size
  localsKnown : ∀ id ∈ diagram.locals, id.index < specification.vars.size
  childrenKnown : ∀ entry ∈ diagram.fragments, ∀ child ∈ entry.children,
    child.index < diagram.fragments.size
  actorsKnown : ∀ entry ∈ diagram.fragments, ∀ actor ∈ entry.actors,
    actor.index < specification.actors.size
  expressionsKnown : ∀ entry ∈ diagram.fragments, ∀ id ∈ entry.expressions,
    id.index < diagram.expressions.size
  bindingsKnown : ∀ entry ∈ diagram.fragments, ∀ id ∈ entry.bindings,
    id.index < specification.vars.size
  operandsKnown : ∀ entry ∈ diagram.expressions, ∀ child ∈ entry.children,
    child.index < diagram.expressions.size
  readsKnown : ∀ entry ∈ diagram.expressions, ∀ id ∈ entry.reads,
    id.index < specification.vars.size
  constantsKnown : ∀ entry ∈ diagram.expressions, ∀ id ∈ entry.constants,
    id.index < specification.constants.size
  boundsHaveSides : ∀ entry ∈ diagram.fragments, ∀ bound ∈ entry.loopBound,
    bound.sides ≠ []

instance (specification : Specification) : Decidable (diagram.Closed specification) :=
  decidable_of_iff' _ (diagram.closed_iff specification)

/-- No fragment refers to itself, directly or through others. -/
def FragmentsAcyclic : Prop :=
  ∀ id, ¬ Relation.TransGen diagram.FragmentRefers id id

/-- No expression refers to itself, directly or through others. -/
def ExpressionsAcyclic : Prop :=
  ∀ id, ¬ Relation.TransGen diagram.ExpressionRefers id id

/-- The diagram is closed, and no reference leads back to where it started. -/
structure WellFormed (specification : Specification) : Prop
    extends diagram.Closed specification where
  fragmentsAcyclic : diagram.FragmentsAcyclic
  expressionsAcyclic : diagram.ExpressionsAcyclic

/-- Entries refer only to entries before them. -/
def Descends : Prop :=
  (∀ index < diagram.fragments.size, ∀ entry ∈ diagram.fragments[index]?,
    ∀ child ∈ entry.children, child.index < index) ∧
  ∀ index < diagram.expressions.size, ∀ entry ∈ diagram.expressions[index]?,
    ∀ child ∈ entry.children, child.index < index

instance : Decidable diagram.Descends :=
  inferInstanceAs (Decidable (_ ∧ _))

end Diagram

/-- References without cycles go down from entry to entry, in a table of the
given size by no more than that many steps. -/
theorem exists_depth {table : Table} (size : Nat)
    (refers : TableId table → TableId table → Prop)
    (known : ∀ parent child, refers parent child → child.index < size)
    (acyclic : ∀ id, ¬ Relation.TransGen refers id id) :
    ∃ depth : TableId table → Nat,
      (∀ parent child, refers parent child → depth child < depth parent) ∧
        ∀ id, depth id ≤ size := by
  classical
  -- the depth of an entry is the number of entries below it
  let below : TableId table → Finset Nat := fun id =>
    (Finset.range size).filter fun index => Relation.TransGen refers id ⟨index⟩
  refine ⟨fun id => (below id).card, ?_, ?_⟩
  · intro parent child step
    apply Finset.card_lt_card
    rw [Finset.ssubset_iff_of_subset]
    · refine ⟨child.index, ?_, ?_⟩
      · exact Finset.mem_filter.mpr
          ⟨Finset.mem_range.mpr (known parent child step), .single step⟩
      · intro member
        exact acyclic child (Finset.mem_filter.mp member).2
    · intro index member
      obtain ⟨inside, path⟩ := Finset.mem_filter.mp member
      exact Finset.mem_filter.mpr ⟨inside, .head step path⟩
  · intro id
    calc (below id).card ≤ (Finset.range size).card :=
          Finset.card_le_card (Finset.filter_subset _ _)
      _ = size := Finset.card_range size

/-- References that only lead to smaller positions have no cycles. -/
theorem acyclic_of_descending {table : Table}
    {refers : TableId table → TableId table → Prop}
    (descending : ∀ parent child, refers parent child → child.index < parent.index)
    (id : TableId table) :
    ¬ Relation.TransGen refers id id := by
  have path_descends : ∀ {parent child : TableId table},
      Relation.TransGen refers parent child → child.index < parent.index := by
    intro parent child path
    induction path with
    | single step =>
        exact descending _ _ step
    | tail _ step inductionHypothesis =>
        exact Nat.lt_trans (descending _ _ step) inductionHypothesis
  intro cycle
  exact Nat.lt_irrefl _ (path_descends cycle)

namespace Diagram

variable {diagram : Diagram}

/-- A closed diagram whose entries only refer to entries before them is well formed. -/
theorem Closed.wellFormed {specification : Specification} (closed : diagram.Closed specification)
    (descends : diagram.Descends) : diagram.WellFormed specification where
  toClosed := closed
  fragmentsAcyclic := by
    refine acyclic_of_descending ?_
    rintro parent child ⟨entry, found, isChild⟩
    obtain ⟨inside, _⟩ := Array.getElem?_eq_some_iff.mp found
    exact descends.1 parent.index inside entry found child isChild
  expressionsAcyclic := by
    refine acyclic_of_descending ?_
    rintro parent child ⟨entry, found, isChild⟩
    obtain ⟨inside, _⟩ := Array.getElem?_eq_some_iff.mp found
    exact descends.2 parent.index inside entry found child isChild

end Diagram

/-! ## Sound expressions -/

/-- Expressions whose references all lead to entries. -/
inductive Expression.Sound (specification : Specification) : Expression → Prop
  | natural (value : Nat) : Sound specification (.natural value)
  | truth (value : Bool) : Sound specification (.truth value)
  | var {id : VariableId} :
      id.index < specification.vars.size → Sound specification (.var id)
  | const {id : ConstantId} :
      id.index < specification.constants.size → Sound specification (.const id)
  | unary (operator : UnaryOperator) {operand : Expression} :
      Sound specification operand → Sound specification (.unary operator operand)
  | binary (operator : BinaryOperator) {left right : Expression} :
      Sound specification left → Sound specification right →
      Sound specification (.binary operator left right)
  | deferred {content : Unit → Expression} :
      Sound specification (content ()) → Sound specification (.deferred content)

namespace Diagram

variable {specification : Specification} {diagram : Diagram}

private theorem sound_unfoldExpression
    (wellFormed : diagram.WellFormed specification)
    {depth : ExpressionId → Nat}
    (descends : ∀ parent child, diagram.ExpressionRefers parent child →
      depth child < depth parent)
    (limit : Nat) (id : ExpressionId)
    (known : id.index < diagram.expressions.size)
    (enough : depth id < limit) :
    (diagram.unfoldExpression limit id).Sound specification := by
  induction limit generalizing id with
  | zero =>
      omega
  | succ limit inductionHypothesis =>
      obtain ⟨entry, found, member⟩ := exists_entryAt known
      have later : ∀ child ∈ entry.children,
          (Expression.deferred fun _ => diagram.unfoldExpression limit child).Sound
            specification := by
        intro child isChild
        have deeper := descends id child ⟨entry, entryAt_eq_ok_iff.mp found, isChild⟩
        exact .deferred (inductionHypothesis child
          (wellFormed.operandsKnown entry member child isChild) (by omega))
      rw [unfoldExpression, found]
      cases entry with
      | natural value =>
          exact .natural value
      | truth value =>
          exact .truth value
      | var read =>
          exact .var (wellFormed.readsKnown _ member read (by simp [ExpressionEntry.reads]))
      | const read =>
          exact .const
            (wellFormed.constantsKnown _ member read (by simp [ExpressionEntry.constants]))
      | unary operator operand =>
          exact .unary operator (later operand (by simp [ExpressionEntry.children]))
      | binary operator left right =>
          exact .binary operator (later left (by simp [ExpressionEntry.children]))
            (later right (by simp [ExpressionEntry.children]))

/-- The expressions of a well-formed diagram are sound. -/
theorem WellFormed.sound_expression (wellFormed : diagram.WellFormed specification)
    {id : ExpressionId} (known : id.index < diagram.expressions.size) :
    (diagram.expression id).Sound specification := by
  obtain ⟨depth, descends, bounded⟩ :=
    exists_depth diagram.expressions.size diagram.ExpressionRefers
      (by
        rintro parent child ⟨entry, found, isChild⟩
        exact wellFormed.operandsKnown entry (Array.mem_of_getElem? found) child isChild)
      wellFormed.expressionsAcyclic
  exact sound_unfoldExpression wellFormed descends _ id known
    (Nat.lt_succ_of_le (bounded id))

end Diagram

/-- Fragments whose references all lead to entries, and whose loop bounds have a
side.  Messages and until fragments are entries of the table, the latter at
their own position. -/
inductive Fragment.Sound (specification : Specification) (diagram : Diagram) :
    Fragment → Prop
  | message {content : Message} :
      .message content ∈ diagram.fragments →
      (∀ actor ∈ [content.sender, content.receiver],
        actor.index < specification.actors.size) →
      (∀ id ∈ content.values, id.index < diagram.expressions.size) →
      (∀ id ∈ content.bindings, id.index < specification.vars.size) →
      Sound specification diagram (.message content)
  | wait {actor : ActorId} {units : ExpressionId} :
      actor.index < specification.actors.size →
      units.index < diagram.expressions.size →
      Sound specification diagram (.wait actor units)
  | deadlock {actor : ActorId} :
      actor.index < specification.actors.size →
      Sound specification diagram (.deadlock actor)
  | create (id : FragmentId) {actor created : ActorId} :
      (∀ each ∈ [actor, created], each.index < specification.actors.size) →
      Sound specification diagram (.create id actor created)
  | loop {bound : Option Bound} {body : Fragment} :
      (∀ id ∈ bound.toList.flatMap Bound.sides, id.index < diagram.expressions.size) →
      (∀ limits, bound = some limits → limits.sides ≠ []) →
      Sound specification diagram body →
      Sound specification diagram (.loop bound body)
  | branch (kind : BranchKind) {operands : List Fragment} :
      (∀ operand ∈ operands, Sound specification diagram operand) →
      Sound specification diagram (.branch kind operands)
  | par {id : FragmentId} {operands : List Fragment} :
      id.index < diagram.fragments.size →
      (∀ operand ∈ operands, Sound specification diagram operand) →
      Sound specification diagram (.par id operands)
  | duration {owner : ActorId} {bound : Bound} {body : Fragment} :
      owner.index < specification.actors.size →
      (∀ id ∈ bound.sides, id.index < diagram.expressions.size) →
      Sound specification diagram body →
      Sound specification diagram (.duration owner bound body)
  | deadline {owner : ActorId} {units : ExpressionId} {body : Fragment} :
      owner.index < specification.actors.size →
      units.index < diagram.expressions.size →
      Sound specification diagram body →
      Sound specification diagram (.deadline owner units body)
  | until {id : FragmentId} {intra : MessageSet} {body : Fragment} :
      (∃ child, diagram.fragments[id.index]? = some (.until intra child)) →
      Sound specification diagram body →
      Sound specification diagram (.until id intra body)
  | critical (id : FragmentId) {body : Fragment} :
      Sound specification diagram body →
      Sound specification diagram (.critical id body)
  | operand {guard : Option ExpressionId} {fragments : List Fragment} :
      (∀ id ∈ guard.toList, id.index < diagram.expressions.size) →
      (∀ fragment ∈ fragments, Sound specification diagram fragment) →
      Sound specification diagram (.operand guard fragments)
  | deferred {content : Unit → Fragment} :
      Sound specification diagram (content ()) →
      Sound specification diagram (.deferred content)

namespace Diagram

variable {specification : Specification} {diagram : Diagram}

private theorem sound_branchOperand
    (closed : diagram.Closed specification)
    {follow : FragmentId → Fragment} {id : FragmentId}
    (followed : (follow id).Sound specification diagram)
    (below : ∀ child, diagram.FragmentRefers id child →
      (follow child).Sound specification diagram) :
    (diagram.branchOperand follow id).Sound specification diagram := by
  unfold branchOperand
  split
  · rename_i guard fragments found
    have entry := entryAt_eq_ok_iff.mp found
    have member := Array.mem_of_getElem? entry
    refine .operand (closed.expressionsKnown _ member) ?_
    intro fragment isMapped
    obtain ⟨child, isChild, rfl⟩ := List.mem_map.mp isMapped
    exact below child ⟨_, entry, isChild⟩
  · exact followed

private theorem sound_unfoldFragment
    (closed : diagram.Closed specification)
    {depth : FragmentId → Nat}
    (descends : ∀ parent child, diagram.FragmentRefers parent child →
      depth child < depth parent)
    (limit : Nat) (id : FragmentId)
    (known : id.index < diagram.fragments.size)
    (enough : depth id < limit) :
    (diagram.unfoldFragment limit id).Sound specification diagram := by
  induction limit generalizing id with
  | zero =>
      omega
  | succ limit inductionHypothesis =>
      obtain ⟨entry, found, member⟩ := exists_entryAt known
      have present := entryAt_eq_ok_iff.mp found
      have laterWithin : ∀ child, child.index < diagram.fragments.size →
          depth child < depth id →
          (Fragment.deferred fun _ => diagram.unfoldFragment limit child).Sound
            specification diagram := by
        intro child childKnown deeper
        exact .deferred (inductionHypothesis child childKnown (by omega))
      have later : ∀ child ∈ entry.children,
          (Fragment.deferred fun _ => diagram.unfoldFragment limit child).Sound
            specification diagram := by
        intro child isChild
        exact laterWithin child (closed.childrenKnown entry member child isChild)
          (descends id child ⟨entry, present, isChild⟩)
      have actorKnown := closed.actorsKnown entry member
      have expressionKnown := closed.expressionsKnown entry member
      rw [unfoldFragment, found]
      cases entry with
      | message content =>
          exact .message member actorKnown expressionKnown (closed.bindingsKnown _ member)
      | wait actor units =>
          exact .wait (actorKnown actor (by simp [FragmentEntry.actors]))
            (expressionKnown units (by simp [FragmentEntry.expressions]))
      | deadlock actor =>
          exact .deadlock (actorKnown actor (by simp [FragmentEntry.actors]))
      | create actor created =>
          exact .create id actorKnown
      | loop bound body =>
          exact .loop expressionKnown (closed.boundsHaveSides _ member)
            (later body (by simp [FragmentEntry.children]))
      | branch kind operands =>
          refine .branch kind ?_
          intro operand isMapped
          obtain ⟨child, isChild, rfl⟩ := List.mem_map.mp isMapped
          refine sound_branchOperand closed (later child isChild) ?_
          intro grandchild refers
          have grandchildKnown : grandchild.index < diagram.fragments.size := by
            obtain ⟨inner, innerFound, isGrandchild⟩ := refers
            exact closed.childrenKnown inner (Array.mem_of_getElem? innerFound)
              grandchild isGrandchild
          have childDeeper := descends id child ⟨_, present, isChild⟩
          have grandchildDeeper := descends child grandchild refers
          exact laterWithin grandchild grandchildKnown
            (Nat.lt_trans grandchildDeeper childDeeper)
      | par operands =>
          refine .par known ?_
          intro operand isMapped
          obtain ⟨child, isChild, rfl⟩ := List.mem_map.mp isMapped
          exact later child isChild
      | duration owner bound body =>
          exact .duration (actorKnown owner (by simp [FragmentEntry.actors]))
            expressionKnown (later body (by simp [FragmentEntry.children]))
      | deadline owner units body =>
          exact .deadline (actorKnown owner (by simp [FragmentEntry.actors]))
            (expressionKnown units (by simp [FragmentEntry.expressions]))
            (later body (by simp [FragmentEntry.children]))
      | «until» intra body =>
          exact .until ⟨body, present⟩ (later body (by simp [FragmentEntry.children]))
      | critical body =>
          exact .critical id (later body (by simp [FragmentEntry.children]))
      | operand guard fragments =>
          refine .operand expressionKnown ?_
          intro fragment isMapped
          obtain ⟨child, isChild, rfl⟩ := List.mem_map.mp isMapped
          exact later child isChild

/-- The fragments of a closed diagram without cycles are sound. -/
theorem Closed.sound_fragment (closed : diagram.Closed specification)
    (acyclic : diagram.FragmentsAcyclic) {id : FragmentId}
    (known : id.index < diagram.fragments.size) :
    (diagram.fragment id).Sound specification diagram := by
  obtain ⟨depth, descends, bounded⟩ :=
    exists_depth diagram.fragments.size diagram.FragmentRefers
      (by
        rintro parent child ⟨entry, found, isChild⟩
        exact closed.childrenKnown entry (Array.mem_of_getElem? found) child isChild)
      acyclic
  exact sound_unfoldFragment closed descends _ id known
    (Nat.lt_succ_of_le (bounded id))

/-- The fragments of the body of a closed diagram without cycles are sound. -/
theorem Closed.sound_bodyFragments (closed : diagram.Closed specification)
    (acyclic : diagram.FragmentsAcyclic) :
    ∀ fragment ∈ diagram.bodyFragments, fragment.Sound specification diagram := by
  intro fragment member
  obtain ⟨id, inBody, rfl⟩ := List.mem_map.mp member
  exact closed.sound_fragment acyclic (closed.bodyKnown id inBody)

end Diagram

end SequenceChart
