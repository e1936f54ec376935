import SequenceChart.Proofs.ProjectionPieces

/-!
What is seen of a fragment is put together in a dozen ways only, whatever the
fragment and the viewpoint: `Behaviour.Rendered` lists them.  The relation also
keeps count of the expressions whose values are printed, in the order of the
text.  `Fragment.shownTo` says which these are for a fragment, without a look at
the process that is printed.

A property of processes that projections preserve is shown by going through the
cases of `Rendered`.  Those that put any number of processes together are common
to all such properties, see `Composable`.
-/

namespace SequenceChart

namespace Fragment

/-- The expressions of a fragment itself, as opposed to those inside of it. -/
def expressions : Fragment → List ExpressionId
  | .message content => content.values
  | .wait _ units => [units]
  | .loop bound _ => bound.toList.flatMap Bound.sides
  | .duration _ bound _ => bound.sides
  | .deadline _ units _ => [units]
  | .operand guard _ => guard.toList
  | _ => []

/-- What the fragment shows of itself belongs to entries that are met. -/
def IsMet (met : FragmentEntry → Prop) : Fragment → Prop
  | .message content => met (.message content)
  | .until _ intra _ => ∃ child, met (.until intra child)
  | fragment => ∀ id ∈ fragment.expressions, ∃ entry, met entry ∧ id ∈ entry.expressions

/-- All that is come by in the fragment belongs to entries that are met. -/
def MeetsOnly (met : FragmentEntry → Prop) (fragment : Fragment) : Prop :=
  ∀ visit ∈ fragment.visits true, visit.IsMet met

variable {met : FragmentEntry → Prop}

namespace MeetsOnly

theorem inside {whole outer : Fragment} {parts : List Fragment}
    (meets : whole.MeetsOnly met) (visits : whole.visits true = outer :: listVisits true parts)
    {part : Fragment} (member : part ∈ parts) : part.MeetsOnly met := by
  intro visit inPart
  apply meets
  rw [visits]
  exact List.mem_cons_of_mem outer (mem_listVisits.mpr ⟨part, member, inPart⟩)

theorem body {whole outer part : Fragment} (meets : whole.MeetsOnly met)
    (visits : whole.visits true = outer :: part.visits true) : part.MeetsOnly met := by
  intro visit inPart
  apply meets
  rw [visits]
  exact List.mem_cons_of_mem outer inPart

theorem unguarded {fragment : Fragment} (meets : fragment.MeetsOnly met) :
    fragment.unguarded.MeetsOnly met := by
  cases fragment with
  | operand guard fragments =>
      intro visit member
      rcases List.mem_cons.mp member with rfl | inPart
      · simp [IsMet, expressions]
      · exact meets visit (List.mem_cons_of_mem _ inPart)
  | _ =>
      exact meets

private theorem guard {fragment : Fragment} (meets : fragment.MeetsOnly met) {id : ExpressionId}
    (guarded : fragment.guard = some id) : ∃ entry, met entry ∧ id ∈ entry.expressions := by
  cases fragment with
  | operand guard fragments =>
      cases guarded
      exact meets _ List.mem_cons_self id List.mem_cons_self
  | _ =>
      cases guarded

end MeetsOnly

/-- What stands at a place of the table belongs to the entry at that place. -/
theorem isMet_unfoldFragment {diagram : Diagram} {depth : Nat} {id : FragmentId}
    (reached : ∀ entry, diagram.fragments[id.index]? = some entry → met entry) :
    (diagram.unfoldFragment depth id).IsMet met := by
  cases depth with
  | zero =>
      simp [Diagram.unfoldFragment, IsMet, expressions]
  | succ depth =>
      rw [Diagram.unfoldFragment]
      cases found : entryAt diagram.fragments id.index with
      | error fault =>
          simp [IsMet, expressions]
      | ok entry =>
          have isMet := reached entry (entryAt_eq_ok_iff.mp found)
          cases entry with
          | message content =>
              exact isMet
          | «until» intra child =>
              exact ⟨child, isMet⟩
          | _ =>
              exact fun id member => ⟨_, isMet, member⟩

/-- Behind a place stands only what references lead to. -/
theorem meetsOnly_unfoldFragment {diagram : Diagram} {depth : Nat} {id : FragmentId}
    (reached : ∀ (place : FragmentId) (entry : FragmentEntry),
      Relation.ReflTransGen (diagram.Leads true) id place →
      diagram.fragments[place.index]? = some entry → met entry) :
    (diagram.unfoldFragment depth id).MeetsOnly met := by
  intro visit member
  obtain ⟨place, rest, path, rfl⟩ := Diagram.standsBehind_of_mem_visits member
  exact isMet_unfoldFragment fun entry => reached place entry path

end Fragment

/-- The sides of a loop bound that are counted.  A literal zero is not. -/
def Setting.countedSides (setting : Setting) : Option Bound → List ExpressionId
  | some ⟨some lower, some upper⟩ =>
      match (setting.interaction.expression lower).isZero with
      | .ok true => [upper]
      | _ => [lower, upper]
  | bound => bound.toList.flatMap Bound.sides

namespace Fragment

/-- What is shown of several parts in order, or nothing if no part is seen. -/
def inOrder (parts : List (Option (List ExpressionId))) : Option (List ExpressionId) :=
  if parts.all Option.isNone then none else some (parts.flatMap fun part => part.getD [])

mutual

/-- The expressions whose values a viewpoint is shown, from left to right, or
nothing if the viewpoint has no part in the fragment. -/
def shownTo (setting : Setting) (view : Viewpoint) : Fragment → Option (List ExpressionId)
  | .message content =>
      if view.isFor content.sender || view.isFor content.receiver then
        some content.values
      else
        none
  | .wait actor units => if view.isFor actor then some [units] else none
  | .deadlock actor => if view.isFor actor then some [] else none
  | .create _ actor created =>
      if view.isFor actor || view.isFor created then some [] else none
  | .loop bound body => (body.shownTo setting view).map (setting.countedSides bound ++ ·)
  | .branch _ operands =>
      let arms := armsShownTo setting view operands
      if arms.all (fun arm => arm.2.isNone) then
        none
      else
        some (arms.flatMap fun arm => arm.1.toList ++ arm.2.getD [])
  | .par _ operands =>
      let arms := listShownTo setting view operands
      if setting.meetsAt view .par then
        some (arms.flatMap fun arm => arm.getD [])
      else
        inOrder arms
  | .duration owner bound body =>
      let inner := body.shownTo setting view
      if view.isFor owner then some (bound.sides ++ inner.getD []) else inner
  | .deadline owner units body =>
      let inner := body.shownTo setting view
      if view.isFor owner then
        some (units :: inner.getD [])
      else if setting.lifelines.length ≤ 1 then
        inner.map (units :: ·)
      else
        inner
  | .until _ _ body =>
      if setting.meetsAt view .until then
        some []
      else
        some ((body.shownTo setting .until).getD [])
  | .critical _ body => (body.shownTo setting view).map fun _ => []
  | .operand guard fragments =>
      (inOrder (listShownTo setting view fragments)).map (guard.toList ++ ·)
  | .deferred content => (content ()).shownTo setting view
  | .unresolved _ => none

/-- The expressions that a viewpoint is shown of each of several fragments. -/
def listShownTo (setting : Setting) (view : Viewpoint) :
    List Fragment → List (Option (List ExpressionId))
  | [] => []
  | fragment :: rest => fragment.shownTo setting view :: listShownTo setting view rest

def armsShownTo (setting : Setting) (view : Viewpoint) :
    List Fragment → List (Option ExpressionId × Option (List ExpressionId))
  | [] => []
  | .operand guard fragments :: rest =>
      (guard, inOrder (listShownTo setting view fragments)) :: armsShownTo setting view rest
  | fragment :: rest => (none, fragment.shownTo setting view) :: armsShownTo setting view rest

end

@[simp]
theorem listShownTo_eq_map (setting : Setting) (view : Viewpoint) (fragments : List Fragment) :
    listShownTo setting view fragments = fragments.map (shownTo setting view) := by
  induction fragments with
  | nil =>
      rfl
  | cons fragment rest inductionHypothesis =>
      rw [listShownTo, inductionHypothesis, List.map_cons]

@[simp]
theorem armsShownTo_eq_map (setting : Setting) (view : Viewpoint) (operands : List Fragment) :
    armsShownTo setting view operands = operands.map fun operand =>
      (operand.guard, operand.unguarded.shownTo setting view) := by
  rw [List.map_eq_foldr]
  refine eq_foldr_arms ?_ ?_ operands
  · intro guard fragments rest
    simp [armsShownTo, unguarded, shownTo, Fragment.guard]
  · intro fragment rest isOther noGuard same
    rw [armsShownTo.eq_3 _ _ _ _ isOther, noGuard, same]

end Fragment

/-! ## Renderings -/

/-- One arm of a choice: its guard, what is shown behind the guard, the process
behind the guard, and the arm as a whole. -/
structure ChoiceArm where
  guard : Option ExpressionId
  shown : List ExpressionId
  body : Behaviour
  whole : Behaviour

def ChoiceArm.IsGuarded (setting : Setting) (arm : ChoiceArm) : Prop :=
  match arm.guard with
  | none => arm.whole = arm.body
  | some condition => ∃ term, setting.termOf condition = .ok term ∧
      arm.whole = .guarded term arm.body.enclose

/-- `behaviour.Rendered setting met shown` means that `behaviour` is put together
as projections do it, that the expressions whose values it prints are `shown`, and
that all it shows belongs to entries that are met. -/
inductive Behaviour.Rendered (setting : Setting) (met : FragmentEntry → Prop) :
    List ExpressionId → Behaviour → Prop
  | skip : Rendered setting met [] .skip
  | stop : Rendered setting met [] .stop
  | unsupported {remark : String} : remark ∈ fixedRemarks →
      Rendered setting met [] (.annotated .stop remark)
  | message {content : Message} {event : Event} {bound : List VariableId}
      {stores loads : List Event} :
      met (.message content) →
      setting.messageEvent content = .ok event →
      (∀ id ∈ bound, id ∈ content.bindings) →
      (setting.specification.stores bound).result = .ok stores →
      (setting.loadsOf content.values).result = .ok loads →
      Rendered setting met content.values
        (.performAll loads (.idle (.perform event (.performAll stores .skip))))
  | wait {units : ExpressionId} {loads : List Event} {term : Term} :
      (∃ entry, met entry ∧ units ∈ entry.expressions) →
      (setting.loadsOf [units]).result = .ok loads →
      setting.termOf units = .ok term →
      Rendered setting met [units] (.performAll loads (.applied "WAIT" [.value term]))
  | call {function : String} {given shown inside : List ExpressionId} {loads : List Event}
      {terms : List Term} {inner : Behaviour} :
      function ∈ enclosingFunctions →
      (∀ id ∈ given, ∃ entry, met entry ∧ id ∈ entry.expressions) →
      (∀ id ∈ shown, id ∈ given) →
      (setting.loadsOf given).result = .ok loads →
      List.Forall₂ (fun id term => setting.termOf id = .ok term) shown terms →
      Rendered setting met inside inner →
      Rendered setting met (shown ++ inside)
        (.performAll loads (.wrapped function (terms.map .value) inner))
  | remark {text : String} {inside : List ExpressionId} {inner : Behaviour} :
      text ∈ fixedRemarks →
      Rendered setting met inside inner →
      Rendered setting met inside (.remarked text inner)
  | deadlineRemark {owner : ActorId} {found : Actor} {inside : List ExpressionId}
      {inner : Behaviour} :
      setting.specification.actor owner = .ok found →
      Rendered setting met inside inner →
      Rendered setting met inside (.remarked ("deadline on " ++ found.name) inner)
  | until {intra : MessageSet} {internal : List String} {inside : List ExpressionId}
      {inner : Behaviour} :
      (∃ child, met (.until intra child)) →
      setting.internalChannels = .ok internal →
      Rendered setting met inside inner →
      Rendered setting met inside ((untilHeader intra internal).around inner)
  | metUntil {id : FragmentId} {enter leave : Event} :
      setting.untils.event .enter id = .ok enter →
      setting.untils.event .leave id = .ok leave →
      Rendered setting met [] (.idle (.performAll [enter, leave] .skip))
  | choice (kind : BranchKind) {arms : List ChoiceArm} {loads : List Event} :
      (∀ arm ∈ arms, Rendered setting met arm.shown arm.body) →
      (∀ arm ∈ arms, arm.IsGuarded setting) →
      (∀ arm ∈ arms, ∀ id ∈ arm.guard, ∃ entry, met entry ∧ id ∈ entry.expressions) →
      (setting.loadsOf (arms.filterMap ChoiceArm.guard)).result = .ok loads →
      Rendered setting met (arms.flatMap fun arm => arm.guard.toList ++ arm.shown)
        (.performAll loads (Setting.chooseAmong kind (arms.map ChoiceArm.whole)))
  | sequence {parts : List (List ExpressionId × Behaviour)} :
      (∀ part ∈ parts, Rendered setting met part.1 part.2) →
      Rendered setting met (parts.flatMap Prod.fst) (.sequence (parts.map Prod.snd))
  | interleaving {parts : List (List ExpressionId × Behaviour)} :
      (∀ part ∈ parts, Rendered setting met part.1 part.2) →
      Rendered setting met (parts.flatMap Prod.fst)
        (.combine .interleaving (parts.map Prod.snd))
  | metPar {id : FragmentId} {enter leave : Event}
      {parts : List (List ExpressionId × Behaviour)} :
      setting.pars.event .enter id = .ok enter →
      setting.pars.event .leave id = .ok leave →
      (∀ part ∈ parts, Rendered setting met part.1 part.2) →
      Rendered setting met (parts.flatMap Prod.fst)
        (Fragment.metArms enter leave (parts.map fun part => some part.2))

/-- A choice combines its arms, and one with a way out also `SKIP`. -/
theorem holds_chooseAmong {holds : List ExpressionId → Behaviour → Prop} (skip : holds [] .skip)
    (combine : ∀ (operator : JoinOperator) (parts : List (List ExpressionId × Behaviour)),
      (∀ part ∈ parts, holds part.1 part.2) →
      holds (parts.flatMap Prod.fst) (.combine operator (parts.map Prod.snd)))
    (kind : BranchKind) {arms : List ChoiceArm}
    (each : ∀ arm ∈ arms, holds (arm.guard.toList ++ arm.shown) arm.whole) :
    holds (arms.flatMap fun arm => arm.guard.toList ++ arm.shown)
      (Setting.chooseAmong kind (arms.map ChoiceArm.whole)) := by
  let parts := arms.map fun arm => (arm.guard.toList ++ arm.shown, arm.whole)
  have ofParts : ∀ part ∈ parts, holds part.1 part.2 := List.forall_mem_map.mpr each
  have shown : (arms.flatMap fun arm => arm.guard.toList ++ arm.shown) =
      parts.flatMap Prod.fst := by
    simp [parts, List.flatMap_map]
  have wholes : arms.map ChoiceArm.whole = parts.map Prod.snd := by
    simp [parts, Function.comp_def]
  rw [shown, wholes]
  cases kind with
  | alt | xalt =>
      exact combine _ _ ofParts
  | opt =>
      have withSkip : ∀ part ∈ parts ++ [([], .skip)], holds part.1 part.2 :=
        List.forall_mem_append.mpr ⟨ofParts, by simpa using skip⟩
      simpa [Setting.chooseAmong] using combine .externalChoice _ withSkip

/-- A property of processes, and of the expressions shown in them, that holds of
processes put together if it holds of each. -/
structure Composable (holds : List ExpressionId → Behaviour → Prop) : Prop where
  skip : holds [] .skip
  stop : holds [] .stop
  andThen : ∀ {shown more : List ExpressionId} {first second : Behaviour},
    holds shown first → holds more second → holds (shown ++ more) (.andThen first second)
  join : ∀ {shown more : List ExpressionId} {operator : JoinOperator}
    {left right : Behaviour},
    holds shown left → holds more right → holds (shown ++ more) (.join operator left right)
  grouped : ∀ {shown : List ExpressionId} {body : Behaviour},
    holds shown body → holds shown body.grouped

namespace Composable

variable {holds : List ExpressionId → Behaviour → Prop} (composable : Composable holds)
include composable

theorem enclose {shown : List ExpressionId} {body : Behaviour} (ofBody : holds shown body) :
    holds shown body.enclose := by
  rw [Behaviour.enclose]
  split
  · exact composable.grouped ofBody
  · exact ofBody

theorem sequence {parts : List (List ExpressionId × Behaviour)}
    (each : ∀ part ∈ parts, holds part.1 part.2) :
    holds (parts.flatMap Prod.fst) (.sequence (parts.map Prod.snd)) := by
  induction parts with
  | nil =>
      exact composable.skip
  | cons part rest inductionHypothesis =>
      rw [List.forall_mem_cons] at each
      cases rest with
      | nil =>
          simpa [Behaviour.sequence] using each.1
      | cons next others =>
          exact composable.andThen each.1 (inductionHypothesis each.2)

theorem joinAll (operator : JoinOperator) {first : List ExpressionId × Behaviour}
    {rest : List (List ExpressionId × Behaviour)} (ofFirst : holds first.1 first.2)
    (ofRest : ∀ part ∈ rest, holds part.1 part.2) :
    holds ((first :: rest).flatMap Prod.fst)
      (.joinAll operator first.2 (rest.map Prod.snd)) := by
  induction rest generalizing first with
  | nil =>
      simpa [Behaviour.joinAll] using ofFirst
  | cons next others inductionHypothesis =>
      rw [List.forall_mem_cons] at ofRest
      exact composable.join ofFirst (inductionHypothesis ofRest.1 ofRest.2)

theorem combine (operator : JoinOperator) {parts : List (List ExpressionId × Behaviour)}
    (each : ∀ part ∈ parts, holds part.1 part.2) :
    holds (parts.flatMap Prod.fst) (.combine operator (parts.map Prod.snd)) := by
  match parts with
  | [] =>
      cases operator with
      | externalChoice | internalChoice =>
          exact composable.stop
      | interleaving =>
          exact composable.skip
  | [only] =>
      simpa [Behaviour.combine] using each only List.mem_cons_self
  | first :: next :: rest =>
      rw [List.forall_mem_cons] at each
      exact composable.grouped (composable.joinAll operator each.1 each.2)

theorem choice (kind : BranchKind) {arms : List ChoiceArm}
    (each : ∀ arm ∈ arms, holds (arm.guard.toList ++ arm.shown) arm.whole) :
    holds (arms.flatMap fun arm => arm.guard.toList ++ arm.shown)
      (Setting.chooseAmong kind (arms.map ChoiceArm.whole)) :=
  holds_chooseAmong composable.skip (fun operator _ => composable.combine operator) kind each

/-- Arms between the two halves of a handshake. -/
theorem metArms {enter leave : Event} {parts : List (List ExpressionId × Behaviour)}
    (entered : ∀ shown body, holds shown body → holds shown (.idle (.perform enter body)))
    (left : holds [] (.idle (.perform leave .skip)))
    (each : ∀ part ∈ parts, holds part.1 part.2) :
    holds (parts.flatMap Prod.fst)
      (Fragment.metArms enter leave (parts.map fun part => some part.2)) := by
  have body : holds (parts.flatMap Prod.fst)
      (.combine .interleaving (parts.map Prod.snd)) := composable.combine .interleaving each
  have whole : ∀ behaviour, holds (parts.flatMap Prod.fst) behaviour →
      holds (parts.flatMap Prod.fst)
        (.sequence [.idle (.perform enter behaviour), .idle (.perform leave .skip)]) := by
    intro behaviour ofBehaviour
    simpa [Behaviour.sequence] using composable.andThen (entered _ _ ofBehaviour) left
  rw [Fragment.metArms, List.map_map]
  split
  · exact whole _ (composable.grouped body)
  · exact whole _ body

end Composable

namespace Setting

variable {setting : Setting}

/-- The header of a loop is a call on the sides that are counted. -/
theorem exists_call_of_loopHeader {bound : Option Bound} {header : Header}
    (done : setting.specification.loopHeader setting.interaction.toDiagram bound = .ok header) :
    ∃ function terms, header = .callOn function terms ∧ function ∈ enclosingFunctions ∧
      List.Forall₂ (fun id term => setting.termOf id = .ok term)
        (setting.countedSides bound) terms := by
  match bound with
  | none =>
      cases done
      exact ⟨_, _, rfl, by decide, .nil⟩
  | some ⟨none, none⟩ =>
      cases done
  | some ⟨some lower, none⟩ | some ⟨none, some upper⟩ =>
      obtain ⟨term, termDone, last⟩ := bind_eq_ok_iff.mp done
      cases last
      exact ⟨_, _, rfl, by decide, .cons termDone .nil⟩
  | some ⟨some lower, some upper⟩ =>
      obtain ⟨fromZero, zeroDone, rest⟩ := bind_eq_ok_iff.mp done
      rw [countedSides, zeroDone]
      cases fromZero with
      | true =>
          obtain ⟨term, termDone, last⟩ := bind_eq_ok_iff.mp rest
          cases last
          exact ⟨_, _, rfl, by decide, .cons termDone .nil⟩
      | false =>
          obtain ⟨lowerTerm, lowerDone, rest⟩ := bind_eq_ok_iff.mp rest
          obtain ⟨upperTerm, upperDone, last⟩ := bind_eq_ok_iff.mp rest
          cases last
          exact ⟨_, _, rfl, by decide, .cons lowerDone (.cons upperDone .nil)⟩

private theorem mem_sides_of_counted {bound : Option Bound} {id : ExpressionId}
    (counted : id ∈ setting.countedSides bound) : id ∈ bound.toList.flatMap Bound.sides := by
  match bound with
  | none | some ⟨none, none⟩ | some ⟨some lower, none⟩ | some ⟨none, some upper⟩ =>
      exact counted
  | some ⟨some lower, some upper⟩ =>
      rw [countedSides] at counted
      split at counted
      · exact List.mem_cons_of_mem lower counted
      · exact counted

/-- The header of a duration is a call on its sides, or a remark without any. -/
theorem exists_call_of_durationHeader {bound : Bound} {header : Header}
    (done : setting.specification.durationHeader setting.interaction.toDiagram bound =
      .ok header) :
    bound.sides = [] ∧ header = .remark "no bounds" ∨
      ∃ function terms, header = .callOn function terms ∧ function ∈ enclosingFunctions ∧
        List.Forall₂ (fun id term => setting.termOf id = .ok term) bound.sides terms := by
  match bound with
  | ⟨none, none⟩ =>
      cases done
      exact Or.inl ⟨rfl, rfl⟩
  | ⟨some lower, none⟩ | ⟨none, some upper⟩ =>
      obtain ⟨term, termDone, last⟩ := bind_eq_ok_iff.mp done
      cases last
      exact Or.inr ⟨_, _, rfl, by decide, .cons termDone .nil⟩
  | ⟨some lower, some upper⟩ =>
      obtain ⟨lowerTerm, lowerDone, rest⟩ := bind_eq_ok_iff.mp done
      obtain ⟨upperTerm, upperDone, last⟩ := bind_eq_ok_iff.mp rest
      cases last
      exact Or.inr ⟨_, _, rfl, by decide, .cons lowerDone (.cons upperDone .nil)⟩

end Setting

/-! ## Everything that is seen is rendered -/

namespace Fragment

variable {setting : Setting} {met : FragmentEntry → Prop} {view : Viewpoint}

/-- What is seen is rendered, and shows what is to be shown. -/
abbrev SeenAs (setting : Setting) (met : FragmentEntry → Prop) :
    Option (List ExpressionId) → Option Behaviour → Prop :=
  Option.Rel (Behaviour.Rendered setting met)

theorem SeenAs.getD {shown : Option (List ExpressionId)} {seen : Option Behaviour}
    (seenAs : SeenAs setting met shown seen) :
    Behaviour.Rendered setting met (shown.getD []) (seen.getD .skip) := by
  cases seenAs with
  | some rendered =>
      exact rendered
  | none =>
      exact .skip

theorem SeenAs.eq_none {shown : Option (List ExpressionId)}
    (seenAs : SeenAs setting met shown none) : shown = none := by
  cases seenAs
  rfl

theorem SeenAs.exists_some {shown : Option (List ExpressionId)} {behaviour : Behaviour}
    (seenAs : SeenAs setting met shown (some behaviour)) :
    ∃ ids, shown = some ids ∧ Behaviour.Rendered setting met ids behaviour := by
  cases seenAs with
  | some rendered =>
      exact ⟨_, rfl, rendered⟩

theorem SeenAs.isNone_eq {shown : Option (List ExpressionId)} {seen : Option Behaviour}
    (seenAs : SeenAs setting met shown seen) : shown.isNone = seen.isNone := by
  cases seenAs <;> rfl

/-- The parts of a list that are seen, with what is shown of them. -/
private theorem exists_seenParts
    {parts : List (Option (List ExpressionId) × Option Behaviour)}
    (each : ∀ part ∈ parts, SeenAs setting met part.1 part.2) :
    ∃ pairs : List (List ExpressionId × Behaviour),
      (∀ pair ∈ pairs, Behaviour.Rendered setting met pair.1 pair.2) ∧
      pairs.flatMap Prod.fst = parts.flatMap (fun part => part.1.getD []) ∧
      pairs.map Prod.snd = (parts.map Prod.snd).filterMap id := by
  induction parts with
  | nil =>
      exact ⟨[], by simp, rfl, rfl⟩
  | cons part rest inductionHypothesis =>
      rw [List.forall_mem_cons] at each
      obtain ⟨pairs, rendered, shown, seen⟩ := inductionHypothesis each.2
      obtain ⟨partShown, partSeen⟩ := part
      cases each.1 with
      | none =>
          exact ⟨pairs, rendered, by simpa using shown, by simpa using seen⟩
      | @some ids behaviour first =>
          refine ⟨(ids, behaviour) :: pairs, ?_, ?_, ?_⟩
          · exact List.forall_mem_cons.mpr ⟨first, rendered⟩
          · simp [shown]
          · simp [seen]

private theorem seenAs_sequenceOf {parts : List (Option (List ExpressionId) × Option Behaviour)}
    (each : ∀ part ∈ parts, SeenAs setting met part.1 part.2) :
    SeenAs setting met (inOrder (parts.map Prod.fst)) (sequenceOf (parts.map Prod.snd)) := by
  obtain ⟨pairs, rendered, shown, seen⟩ := exists_seenParts each
  have sameNone : (parts.map Prod.fst).all Option.isNone =
      ((parts.map Prod.snd).filterMap id).isEmpty := by
    rw [Bool.eq_iff_iff, List.isEmpty_iff, List.filterMap_eq_nil_iff, List.all_map,
      List.all_eq_true, List.forall_mem_map]
    refine forall₂_congr fun part member => ?_
    rw [Function.comp_apply, (each part member).isNone_eq, Option.isNone_iff_eq_none]
    rfl
  rw [inOrder, sequenceOf, sameNone]
  split
  · exact .none
  · rw [← seen]
    refine .some ?_
    rw [List.flatMap_map, ← shown]
    exact .sequence rendered

/-- Parts of which at least one is seen, each with what it comes to otherwise. -/
private theorem forall_mem_getD {parts : List (Fragment × Option Behaviour)}
    (each : ∀ part ∈ parts,
      SeenAs setting met (part.1.shownTo setting view) part.2) :
    ∀ pair ∈ parts.map fun part =>
        ((part.1.shownTo setting view).getD [], part.2.getD .skip),
      Behaviour.Rendered setting met pair.1 pair.2 := by
  intro pair member
  obtain ⟨part, isPart, rfl⟩ := List.mem_map.mp member
  exact (each part isPart).getD

theorem loadsOf_nil {loads : List Event}
    (done : (setting.loadsOf []).result = .ok loads) : loads = [] := by
  cases done
  rfl

private theorem seenAs_listShownTo {parts : List (Fragment × Option Behaviour)}
    (each : ∀ part ∈ parts, SeenAs setting met (part.1.shownTo setting view) part.2) :
    SeenAs setting met (inOrder (listShownTo setting view (parts.map Prod.fst)))
      (sequenceOf (parts.map Prod.snd)) := by
  have paired : ∀ pair ∈ parts.map fun part => (part.1.shownTo setting view, part.2),
      SeenAs setting met pair.1 pair.2 := by
    intro pair member
    obtain ⟨part, isPart, rfl⟩ := List.mem_map.mp member
    exact each part isPart
  have seenAs := seenAs_sequenceOf paired
  rw [listShownTo_eq_map, List.map_map]
  simpa [List.map_map, Function.comp_def] using seenAs

/-- Nothing is shown of fragments of which nothing is seen. -/
private theorem inOrder_eq_none {fragments : List Fragment}
    (unseen : ∀ fragment ∈ fragments, fragment.shownTo setting view = none) :
    inOrder (fragments.map (shownTo setting view)) = none := by
  rw [inOrder, if_pos]
  rw [List.all_map, List.all_eq_true]
  intro fragment member
  rw [Function.comp_apply, unseen fragment member]
  rfl

private theorem exists_shown_of_relevant {parts : List (Fragment × Option Behaviour)}
    (each : ∀ part ∈ parts, SeenAs setting met (part.1.shownTo setting view) part.2)
    (relevant : ∃ part ∈ parts, part.2.isSome = true) :
    ¬ (listShownTo setting view (parts.map Prod.fst)).all Option.isNone = true := by
  obtain ⟨part, isPart, seen⟩ := relevant
  rw [listShownTo_eq_map, List.all_eq_true]
  intro allNone
  have unseen := allNone _ (List.mem_map_of_mem (List.mem_map_of_mem isPart))
  rw [(each part isPart).isNone_eq] at unseen
  simp_all

/-- The arm of an operand is its body behind its guard. -/
private theorem IsArm.isGuarded {guard : Option ExpressionId} {shown : List ExpressionId}
    {body : Option Behaviour} {arm : Setting.Arm} (isArm : IsArm setting guard body arm) :
    (ChoiceArm.mk guard shown (body.getD .skip) arm.behaviour).IsGuarded setting := by
  cases guard with
  | none =>
      rw [show arm = _ from isArm]
      rfl
  | some condition =>
      obtain ⟨term, termDone, rfl⟩ := isArm
      exact ⟨term, termDone, rfl⟩

private theorem seenAs_branch (kind : BranchKind)
    {parts : List (Fragment × Option Behaviour × Setting.Arm)} {loads : List Event}
    (each : ∀ part ∈ parts,
      SeenAs setting met (part.1.unguarded.shownTo setting view) part.2.1)
    (areArms : ∀ part ∈ parts, IsArm setting part.1.guard part.2.1 part.2.2)
    (relevant : ∃ part ∈ parts, part.2.1.isSome = true)
    (loadsDone : (setting.loadsOf (parts.filterMap fun part => part.1.guard)).result =
      .ok loads)
    (meets : ∀ part ∈ parts, part.1.MeetsOnly met) :
    SeenAs setting met ((Fragment.branch kind (parts.map Prod.fst)).shownTo setting view)
      (some (.performAll loads
        (Setting.chooseAmong kind (parts.map fun part => part.2.2.behaviour)))) := by
  let arms := parts.map fun part => ChoiceArm.mk part.1.guard
    ((part.1.unguarded.shownTo setting view).getD []) (part.2.1.getD .skip) part.2.2.behaviour
  have wholes : parts.map (fun part => part.2.2.behaviour) = arms.map ChoiceArm.whole := by
    simp [arms, Function.comp_def]
  have guards : parts.filterMap (fun part => part.1.guard) = arms.filterMap ChoiceArm.guard := by
    simp [arms, List.filterMap_map]
  have someSeen : ¬ (armsShownTo setting view (parts.map Prod.fst)).all
      (fun arm => arm.2.isNone) = true := by
    obtain ⟨part, isPart, seen⟩ := relevant
    rw [armsShownTo_eq_map, List.all_eq_true]
    intro allNone
    have unseen := allNone _ (List.mem_map_of_mem (List.mem_map_of_mem isPart))
    rw [(each part isPart).isNone_eq] at unseen
    simp_all
  rw [shownTo, if_neg someSeen, armsShownTo_eq_map, wholes]
  rw [guards] at loadsDone
  refine .some ?_
  have shown : ((parts.map Prod.fst).map fun operand =>
      (operand.guard, operand.unguarded.shownTo setting view)).flatMap
        (fun arm => arm.1.toList ++ arm.2.getD []) =
      arms.flatMap fun arm => arm.guard.toList ++ arm.shown := by
    simp [arms, List.flatMap_map]
  rw [shown]
  refine .choice kind ?_ ?_ ?_ loadsDone
  · intro arm member
    obtain ⟨part, isPart, rfl⟩ := List.mem_map.mp member
    exact (each part isPart).getD
  · intro arm member
    obtain ⟨part, isPart, rfl⟩ := List.mem_map.mp member
    exact (areArms part isPart).isGuarded
  · intro arm member id guarded
    obtain ⟨part, isPart, rfl⟩ := List.mem_map.mp member
    exact (meets part isPart).guard guarded

/-- An operand with a guard is a choice with a single arm. -/
private theorem rendered_guarded {condition : ExpressionId} {shown : List ExpressionId}
    {body : Behaviour} {loads : List Event} {term : Term}
    (rendered : Behaviour.Rendered setting met shown body)
    (known : ∃ entry, met entry ∧ condition ∈ entry.expressions)
    (loadsDone : (setting.loadsOf [condition]).result = .ok loads)
    (termDone : setting.termOf condition = .ok term) :
    Behaviour.Rendered setting met (condition :: shown)
      (.performAll loads (.guarded term body.enclose)) := by
  let arm : ChoiceArm := ⟨some condition, shown, body, .guarded term body.enclose⟩
  have single : Behaviour.Rendered setting met
      ([arm].flatMap fun arm => arm.guard.toList ++ arm.shown)
      (.performAll loads (Setting.chooseAmong .alt ([arm].map ChoiceArm.whole))) :=
    .choice .alt (by simpa [arm] using rendered) (by simpa [arm] using ⟨term, termDone, rfl⟩)
      (by simpa [arm] using known) loadsDone
  simpa [arm, Setting.chooseAmong, Behaviour.combine] using single

/-- Without sides a duration is a remark on its body, and a call around it otherwise. -/
private theorem seenAs_duration {owner : ActorId} {bound : Bound} {body : Fragment}
    {inner : Option Behaviour} {loads : List Event} {header : Header}
    (own : view.isFor owner = true)
    (loadsDone : (setting.loadsOf bound.sides).result = .ok loads)
    (headerDone : setting.specification.durationHeader setting.interaction.toDiagram bound =
      .ok header)
    (meets : (Fragment.duration owner bound body).MeetsOnly met)
    (ofBody : SeenAs setting met (body.shownTo setting view) inner) :
    SeenAs setting met ((Fragment.duration owner bound body).shownTo setting view)
      (some (.performAll loads (header.around (inner.getD .skip)))) := by
  rw [shownTo, if_pos own]
  rcases Setting.exists_call_of_durationHeader headerDone with
    ⟨noSides, rfl⟩ | ⟨function, terms, rfl, known, termsDone⟩
  · rw [noSides] at loadsDone ⊢
    rw [loadsOf_nil loadsDone]
    exact .some (.remark (by decide) ofBody.getD)
  · exact .some (.call known (meets _ List.mem_cons_self) (fun _ member => member)
      loadsDone termsDone ofBody.getD)

/-- A deadline is enforced by its owner, or by the only lifeline on something it sees. -/
private theorem seenAs_deadline {owner : ActorId} {units : ExpressionId} {body : Fragment}
    {inner : Option Behaviour} {loads : List Event} {term : Term}
    (relevant : (inner.isSome || view.isFor owner) = true)
    (enforced : (view.isFor owner || decide (setting.lifelines.length ≤ 1)) = true)
    (loadsDone : (setting.loadsOf [units]).result = .ok loads)
    (termDone : setting.termOf units = .ok term)
    (meets : (Fragment.deadline owner units body).MeetsOnly met)
    (ofBody : SeenAs setting met (body.shownTo setting view) inner) :
    SeenAs setting met ((Fragment.deadline owner units body).shownTo setting view)
      (some (.performAll loads (.wrapped "Deadline" [.value term] (inner.getD .skip)))) := by
  have known : "Deadline" ∈ enclosingFunctions := by decide
  have whole : Behaviour.Rendered setting met
      (units :: (body.shownTo setting view).getD [])
      (.performAll loads (.wrapped "Deadline" [.value term] (inner.getD .skip))) :=
    .call known (meets _ List.mem_cons_self) (fun _ member => member) loadsDone
      (.cons termDone .nil) ofBody.getD
  rw [shownTo]
  by_cases own : view.isFor owner = true
  · rw [if_pos own]
    exact .some whole
  · rw [Bool.eq_false_of_not_eq_true own] at relevant enforced
    have single : setting.lifelines.length ≤ 1 := by simpa using enforced
    obtain ⟨behaviour, rfl⟩ := Option.isSome_iff_exists.mp (by simpa using relevant)
    obtain ⟨ids, shown, _⟩ := ofBody.exists_some
    rw [shown] at whole
    rw [if_neg own, if_pos single, shown]
    exact .some whole

/-- Whatever is seen of a fragment is rendered, and what it shows is known from the
fragment. -/
theorem Sees.seenAs {fragment : Fragment} {seen : Option Behaviour}
    (sees : fragment.Sees setting view seen) (meets : fragment.MeetsOnly met) :
    SeenAs setting met (fragment.shownTo setting view) seen := by
  induction sees with
  | @message view content event storing stores loads involved eventDone _ storesDone
      loadsDone =>
      rw [shownTo, if_pos involved]
      refine .some (.message (meets _ List.mem_cons_self) eventDone ?_ storesDone loadsDone)
      intro id member
      cases storing with
      | true =>
          exact member
      | false =>
          cases member
  | otherMessage uninvolved | otherCreate _ uninvolved =>
      simp [shownTo, uninvolved]
  | otherWait _ other | otherDeadlock other =>
      simp [shownTo, other]
  | wait own loadsDone termDone =>
      have known := meets _ List.mem_cons_self _ List.mem_cons_self
      simpa [shownTo, own] using Option.Rel.some (.wait known loadsDone termDone)
  | deadlock own =>
      simpa [shownTo, own] using Option.Rel.some .stop
  | create id involved =>
      rw [shownTo, if_pos involved]
      exact .some (.unsupported (by decide))
  | loop _ loadsDone headerDone inductionHypothesis =>
      obtain ⟨ids, shown, rendered⟩ := (inductionHypothesis (meets.body rfl)).exists_some
      obtain ⟨function, terms, rfl, known, termsDone⟩ :=
        Setting.exists_call_of_loopHeader headerDone
      rw [shownTo, shown]
      exact .some (.call known (meets _ List.mem_cons_self)
        (fun _ => Setting.mem_sides_of_counted) loadsDone termsDone rendered)
  | otherLoop bound _ inductionHypothesis | otherCritical id _ inductionHypothesis =>
      simp [shownTo, (inductionHypothesis (meets.body rfl)).eq_none]
  | @branch view kind parts loads _ areArms relevant loadsDone inductionHypothesis =>
      have operandsMeet : ∀ part ∈ parts, part.1.MeetsOnly met := fun part isPart =>
        meets.inside rfl (List.mem_map_of_mem isPart)
      exact seenAs_branch kind
        (fun part isPart => inductionHypothesis part isPart (operandsMeet part isPart).unguarded)
        areArms relevant loadsDone operandsMeet
  | @otherBranch view kind operands _ inductionHypothesis =>
      have unseen : ∀ operand ∈ operands, operand.unguarded.shownTo setting view = none :=
        fun operand member =>
          (inductionHypothesis operand member (meets.inside rfl member).unguarded).eq_none
      rw [shownTo, if_pos (by simpa using unseen)]
      exact .none
  | metPar _ meetsHere enterDone leaveDone inductionHypothesis =>
      have rendered := forall_mem_getD fun part isPart =>
        inductionHypothesis part isPart (meets.inside rfl (List.mem_map_of_mem isPart))
      have whole := Behaviour.Rendered.metPar enterDone leaveDone rendered
      rw [shownTo, if_pos meetsHere, listShownTo_eq_map]
      simpa [metArms, List.flatMap_map, Function.comp_def] using Option.Rel.some whole
  | par id _ apart relevant inductionHypothesis =>
      have seenAs := fun part isPart =>
        inductionHypothesis part isPart (meets.inside rfl (List.mem_map_of_mem isPart))
      have whole := Behaviour.Rendered.interleaving (forall_mem_getD seenAs)
      have someSeen := exists_shown_of_relevant seenAs relevant
      rw [shownTo, if_neg (by simp [apart]), inOrder, if_neg someSeen, listShownTo_eq_map]
      simpa [List.flatMap_map, Function.comp_def] using Option.Rel.some whole
  | otherPar id _ apart inductionHypothesis =>
      have unseen := inOrder_eq_none fun operand member =>
        (inductionHypothesis operand member (meets.inside rfl member)).eq_none
      simp [shownTo, apart, unseen]
  | duration _ own loadsDone headerDone inductionHypothesis =>
      exact seenAs_duration own loadsDone headerDone meets (inductionHypothesis (meets.body rfl))
  | otherDuration bound _ other inductionHypothesis =>
      simpa [shownTo, other] using inductionHypothesis (meets.body rfl)
  | deadline _ relevant enforced loadsDone termDone inductionHypothesis =>
      exact seenAs_deadline relevant enforced loadsDone termDone meets
        (inductionHypothesis (meets.body rfl))
  | remarkedDeadline units _ noted actorDone inductionHypothesis =>
      obtain ⟨ids, shown, rendered⟩ := (inductionHypothesis (meets.body rfl)).exists_some
      rw [Bool.or_eq_false_iff] at noted
      rw [shownTo, if_neg (by simp [noted.1]), if_neg (of_decide_eq_false noted.2), shown]
      exact .some (.deadlineRemark actorDone rendered)
  | otherDeadline units _ other inductionHypothesis =>
      simp [shownTo, other, (inductionHypothesis (meets.body rfl)).eq_none]
  | metUntil intra body meetsHere enterDone leaveDone =>
      rw [shownTo, if_pos meetsHere]
      exact .some (.metUntil enterDone leaveDone)
  | «until» id intra apart _ internalDone inductionHypothesis =>
      have known := meets _ List.mem_cons_self
      have rendered := (inductionHypothesis (meets.body rfl)).getD
      simpa [shownTo, apart] using Option.Rel.some (.until known internalDone rendered)
  | critical id _ inductionHypothesis =>
      obtain ⟨ids, shown, _⟩ := (inductionHypothesis (meets.body rfl)).exists_some
      rw [shownTo, shown]
      exact .some (.unsupported (by decide))
  | operand _ inductionHypothesis =>
      have seenAs := seenAs_listShownTo fun part isPart =>
        inductionHypothesis part isPart (meets.inside rfl (List.mem_map_of_mem isPart))
      simpa [shownTo] using seenAs
  | guardedOperand _ bodyDone loadsDone termDone inductionHypothesis =>
      have seenAs := seenAs_listShownTo fun part isPart =>
        inductionHypothesis part isPart (meets.inside rfl (List.mem_map_of_mem isPart))
      rw [bodyDone] at seenAs
      obtain ⟨ids, shown, rendered⟩ := seenAs.exists_some
      rw [shownTo, shown]
      exact .some (rendered_guarded rendered (meets.guard rfl) loadsDone termDone)
  | otherOperand condition _ inductionHypothesis =>
      have unseen := inOrder_eq_none fun fragment member =>
        (inductionHypothesis fragment member (meets.inside rfl member)).eq_none
      simp [shownTo, unseen]
  | deferred _ inductionHypothesis =>
      rw [shownTo]
      exact inductionHypothesis meets

end Fragment

namespace Setting

variable {setting : Setting} {met : FragmentEntry → Prop} {view : Viewpoint}

theorem seenAs_project {id : FragmentId} {seen : Option Behaviour}
    (done : ((setting.interaction.fragment id).project setting view).result = .ok seen)
    (reached : ∀ (place : FragmentId) (entry : FragmentEntry),
      Relation.ReflTransGen (setting.interaction.toDiagram.Leads true) id place →
      setting.interaction.fragments[place.index]? = some entry → met entry) :
    Fragment.SeenAs setting met ((setting.interaction.fragment id).shownTo setting view)
      seen :=
  (Fragment.sees_of_result done).seenAs (Fragment.meetsOnly_unfoldFragment reached)

/-- What is seen of the body is rendered, and takes only from what is visited. -/
theorem seenAs_projectSequence {seen : Option Behaviour}
    (done : (setting.projectSequence view setting.body).result = .ok seen)
    (reached : ∀ (place : FragmentId) (entry : FragmentEntry),
      setting.interaction.toDiagram.Visited true place →
      setting.interaction.fragments[place.index]? = some entry → met entry) :
    Fragment.SeenAs setting met
      (Fragment.inOrder (setting.body.map (Fragment.shownTo setting view))) seen := by
  obtain ⟨results, resultsDone, rfl⟩ := Fragment.result_inSequence_eq_ok_iff.mp done
  obtain ⟨parts, fragments, rfl, eachDone⟩ := Fragment.exists_parts resultsDone
  have each : ∀ part ∈ parts, Fragment.SeenAs setting met (part.1.shownTo setting view)
      part.2 := by
    intro part isPart
    have inBody : part.1 ∈ setting.body := fragments ▸ List.mem_map_of_mem isPart
    obtain ⟨start, isStart, placed⟩ := List.mem_map.mp inBody
    refine (Fragment.sees_of_result (eachDone part isPart)).seenAs ?_
    rw [← placed]
    exact Fragment.meetsOnly_unfoldFragment fun place entry path =>
      reached place entry ⟨start, isStart, path⟩
  have seenAs := Fragment.seenAs_listShownTo each
  rwa [fragments, Fragment.listShownTo_eq_map] at seenAs

end Setting

end SequenceChart
