import SequenceChart.Proofs.Completion
import SequenceChart.Proofs.WellFormed

/-!
# Growth of specifications

A specification that was built by adding entries to the empty one links its
tables correctly, whatever was added: interactions and scripts name groups that
exist, and variables are owned by interactions that exist.  Tables only grow, so
a link that holds once holds for good, and a new entry is linked only to what was
there before it or to itself.

What a group lists is up to whoever enters it.
-/

namespace SequenceChart

namespace Specification

/-- Specifications built from the empty one by adding entries. -/
inductive Built : Specification → Prop
  | empty (name : String) : Built (.empty name)
  | addActor {specification later : Specification} {name : String} {kind : ActorKind}
      {id : ActorId} :
      Built specification → specification.addActor name kind = .ok (later, id) → Built later
  | addVariable {specification : Specification} (name : String) (type : ValueType) :
      Built specification → Built (specification.addVariable name type).1
  | addConstant {specification : Specification} (name qualifiedName : String) :
      Built specification → Built (specification.addConstant name qualifiedName).1
  | enterGroup {specification : Specification} (group : Group) :
      Built specification → Built (specification.enterGroup group).1
  | addInteraction {specification later : Specification} {group : GroupId}
      {diagram : Diagram} {id : InteractionId} :
      Built specification → specification.addInteraction group diagram = .ok (later, id) →
      Built later
  | addScript {specification later : Specification} {group : GroupId} {name body : String}
      {events : Option EventSource} {id : ScriptId} :
      Built specification → specification.addScript group name body events = .ok (later, id) →
      Built later
  | addProperty {specification later : Specification} {group : GroupId}
      {property : Property} :
      Built specification → specification.addProperty group property = .ok later →
      Built later

/-- The links between tables that adding entries makes all lead to entries. -/
structure Linked (specification : Specification) : Prop where
  ownersKnown : specification.OwnersKnown
  interactionsGrouped : ∀ interaction ∈ specification.interactions,
    interaction.group.index < specification.groups.size
  scriptsGrouped : ∀ script ∈ specification.scripts,
    script.group.index < specification.groups.size

variable {specification later : Specification}

private theorem known_of_group {id : GroupId} {found : Group}
    (done : specification.group id = .ok found) :
    found ∈ specification.groups ∧ id.index < specification.groups.size := by
  have present := entryAt_eq_ok_iff.mp done
  obtain ⟨inside, _⟩ := Array.getElem?_eq_some_iff.mp present
  exact ⟨Array.mem_of_getElem? present, inside⟩

/-- An actor of a new name is added behind all others. -/
theorem addActor_eq_ok (name : String) (kind : ActorKind)
    (fresh : specification.actorsByName.lookup name = none) :
    specification.addActor name kind =
      .ok ({ specification with
        actors := specification.actors.push ⟨name, kind⟩
        actorsByName := (name, ⟨specification.actors.size⟩) :: specification.actorsByName },
        ⟨specification.actors.size⟩) := by
  rw [addActor, fresh]
  rfl

theorem addActor_cases {name : String} {kind : ActorKind} {id : ActorId}
    (done : specification.addActor name kind = .ok (later, id)) :
    specification.actorsByName.lookup name = none ∧
      later = { specification with
        actors := specification.actors.push ⟨name, kind⟩
        actorsByName := (name, ⟨specification.actors.size⟩) :: specification.actorsByName } := by
  cases isKept : specification.actorsByName.lookup name with
  | none =>
      rw [addActor_eq_ok name kind isKept] at done
      cases done
      exact ⟨rfl, rfl⟩
  | some other =>
      rw [addActor, isKept] at done
      cases done

theorem linked_empty (name : String) : (empty name).Linked where
  ownersKnown := by simp [OwnersKnown, empty]
  interactionsGrouped := by simp [empty]
  scriptsGrouped := by simp [empty]

namespace Linked

/-- Whatever a group is changed to, it stays where it is. -/
theorem updateGroup (linked : specification.Linked) {id : GroupId} {change : Group → Group}
    (done : specification.updateGroup id change = .ok later) : later.Linked := by
  obtain ⟨found, foundDone, last⟩ := bind_eq_ok_iff.mp done
  cases last
  refine ⟨linked.ownersKnown, ?_, ?_⟩
  · intro interaction isInteraction
    rw [Array.size_setIfInBounds]
    exact linked.interactionsGrouped interaction isInteraction
  · intro script isScript
    rw [Array.size_setIfInBounds]
    exact linked.scriptsGrouped script isScript

private theorem addActor (linked : specification.Linked) {name : String} {kind : ActorKind}
    {id : ActorId} (done : specification.addActor name kind = .ok (later, id)) :
    later.Linked := by
  obtain ⟨_, rfl⟩ := addActor_cases done
  exact ⟨linked.ownersKnown, linked.interactionsGrouped, linked.scriptsGrouped⟩

/-- A new variable is owned by nobody. -/
theorem addVariable (linked : specification.Linked) (name : String) (type : ValueType) :
    (specification.addVariable name type).1.Linked := by
  refine ⟨?_, linked.interactionsGrouped, linked.scriptsGrouped⟩
  intro found isVariable owner owned
  rcases Array.mem_push.mp isVariable with earlier | rfl
  · exact linked.ownersKnown found earlier owner owned
  · cases owned

private theorem enterGroup (linked : specification.Linked) (group : Group) :
    (specification.enterGroup group).1.Linked := by
  refine ⟨linked.ownersKnown, ?_, ?_⟩
  · intro interaction isInteraction
    have known := linked.interactionsGrouped interaction isInteraction
    simp only [Specification.enterGroup, Array.size_push]
    omega
  · intro script isScript
    have known := linked.scriptsGrouped script isScript
    simp only [Specification.enterGroup, Array.size_push]
    omega

/-- What a new interaction takes over is owned by it, all else by those before. -/
theorem owners_foldlM_giveVariable {owner : InteractionId} {limit : Nat}
    (inside : owner.index < limit) {locals : List VariableId} {vars result : Array Variable}
    (known : ∀ found ∈ vars, ∀ other ∈ found.owner, other.index < limit)
    (done : locals.foldlM (giveVariable owner) vars = .ok result) :
    ∀ found ∈ result, ∀ other ∈ found.owner, other.index < limit := by
  induction locals generalizing vars with
  | nil =>
      cases done
      exact known
  | cons id rest inductionHypothesis =>
      rw [List.foldlM_cons] at done
      obtain ⟨given, givenDone, restDone⟩ := bind_eq_ok_iff.mp done
      refine inductionHypothesis ?_ restDone
      obtain ⟨taken, takenDone, last⟩ := bind_eq_ok_iff.mp givenDone
      cases last
      intro found isVariable other owned
      rcases Array.mem_or_eq_of_mem_setIfInBounds isVariable with earlier | rfl
      · exact known found earlier other owned
      · cases owned
        exact inside

private theorem addInteraction (linked : specification.Linked) {group : GroupId} {diagram : Diagram}
    {id : InteractionId}
    (done : specification.addInteraction group diagram = .ok (later, id)) : later.Linked := by
  obtain ⟨vars, varsDone, rest⟩ := bind_eq_ok_iff.mp done
  obtain ⟨placed, placedDone, last⟩ := bind_eq_ok_iff.mp rest
  cases last
  -- the group was found among the old ones, so it exists before it is changed
  obtain ⟨found, foundDone, _⟩ := bind_eq_ok_iff.mp placedDone
  have groupKnown : group.index < specification.groups.size := (known_of_group foundDone).2
  have extended : Linked { specification with
      interactions := specification.interactions.push ⟨diagram, group⟩
      vars := vars } := by
    refine ⟨?_, ?_, linked.scriptsGrouped⟩
    · refine owners_foldlM_giveVariable (by simp) ?_ varsDone
      intro found isVariable owner owned
      have known := linked.ownersKnown found isVariable owner owned
      rw [Array.size_push]
      omega
    · intro interaction isInteraction
      rcases Array.mem_push.mp isInteraction with earlier | rfl
      · exact linked.interactionsGrouped interaction earlier
      · exact groupKnown
  exact extended.updateGroup placedDone

private theorem addScript (linked : specification.Linked) {group : GroupId} {name body : String}
    {events : Option EventSource} {id : ScriptId}
    (done : specification.addScript group name body events = .ok (later, id)) :
    later.Linked := by
  obtain ⟨placed, placedDone, last⟩ := bind_eq_ok_iff.mp done
  cases last
  obtain ⟨found, foundDone, _⟩ := bind_eq_ok_iff.mp placedDone
  have groupKnown : group.index < specification.groups.size := (known_of_group foundDone).2
  have extended : Linked { specification with
      scripts := specification.scripts.push ⟨name, body, group, events⟩ } := by
    refine ⟨linked.ownersKnown, linked.interactionsGrouped, ?_⟩
    intro script isScript
    rcases Array.mem_push.mp isScript with earlier | rfl
    · exact linked.scriptsGrouped script earlier
    · exact groupKnown
  exact extended.updateGroup placedDone

end Linked

/-- Every specification that was built is linked. -/
theorem Built.linked (built : specification.Built) : specification.Linked := by
  induction built with
  | empty name =>
      exact linked_empty name
  | addActor _ done inductionHypothesis =>
      exact inductionHypothesis.addActor done
  | addVariable name type _ inductionHypothesis =>
      exact inductionHypothesis.addVariable name type
  | addConstant name qualifiedName _ inductionHypothesis =>
      exact ⟨inductionHypothesis.ownersKnown, inductionHypothesis.interactionsGrouped,
        inductionHypothesis.scriptsGrouped⟩
  | enterGroup group _ inductionHypothesis =>
      exact inductionHypothesis.enterGroup group
  | addInteraction _ done inductionHypothesis =>
      exact inductionHypothesis.addInteraction done
  | addScript _ done inductionHypothesis =>
      exact inductionHypothesis.addScript done
  | addProperty _ done inductionHypothesis =>
      exact inductionHypothesis.updateGroup done

end Specification

end SequenceChart
