import SequenceChart.Proofs.SpecificationGrowth

/-!
# What belongs to what

Variables name the interaction that keeps them, and interactions and scripts
name the group they belong to.  The other direction is recorded as well: an
interaction lists its variables, and a group lists its interactions and scripts.
In a specification that was built the two directions agree.  A variable is owned
by the last interaction that lists it, and whatever names a group is found in
the lists of that group.
-/

namespace SequenceChart

namespace Specification

/-- The interaction at a position has the variable among its own. -/
def Lists (specification : Specification) (owner : InteractionId) (id : VariableId) : Prop :=
  ∃ interaction, specification.interactions[owner.index]? = some interaction ∧
    id ∈ interaction.locals

/-- Entries are found in the lists of what they name, and variables name the last
interaction that lists them. -/
structure Filed (specification : Specification) : Prop where
  localsKnown : ∀ owner id, specification.Lists owner id → id.index < specification.vars.size
  owners : ∀ (id : VariableId) (found : Variable), specification.vars[id.index]? = some found →
    ∀ owner, found.owner = some owner ↔
      specification.Lists owner id ∧
        ∀ other, specification.Lists other id → other.index ≤ owner.index
  interactionsFiled : ∀ (id : InteractionId) (interaction : Interaction),
    specification.interactions[id.index]? = some interaction →
      ∃ group, specification.groups[interaction.group.index]? = some group ∧
        id ∈ group.interactions
  scriptsFiled : ∀ (id : ScriptId) (script : Script),
    specification.scripts[id.index]? = some script →
      ∃ group, specification.groups[script.group.index]? = some group ∧
        id ∈ group.scripts

variable {specification later : Specification}

/-- Changing a group changes nothing but the entry of that group. -/
theorem updateGroup_eq_ok {id : GroupId} {change : Group → Group}
    (done : specification.updateGroup id change = .ok later) :
    ∃ found, specification.groups[id.index]? = some found ∧
      later = { specification with
        groups := specification.groups.setIfInBounds id.index (change found) } := by
  obtain ⟨found, foundDone, last⟩ := bind_eq_ok_iff.mp done
  cases last
  exact ⟨found, entryAt_eq_ok_iff.mp foundDone, rfl⟩

/-- Where a changed group keeps its members, all groups do. -/
theorem exists_group_of_set {groups : Array Group} {index place : Nat} {found changed : Group}
    (present : groups[index]? = some found) {holds : Group → Prop}
    (keeps : holds found → holds changed)
    (filed : ∃ group, groups[place]? = some group ∧ holds group) :
    ∃ group, (groups.setIfInBounds index changed)[place]? = some group ∧ holds group := by
  obtain ⟨group, placed, held⟩ := filed
  by_cases same : index = place
  · subst same
    cases present.symm.trans placed
    obtain ⟨inside, _⟩ := Array.getElem?_eq_some_iff.mp present
    exact ⟨changed, by simp [inside], keeps held⟩
  · exact ⟨group, by simpa [Array.getElem?_setIfInBounds, same] using placed, held⟩

/-- Variables taken over by an interaction get a new owner, and no other variable
changes. -/
theorem getElem?_foldlM_giveVariable {owner : InteractionId} {locals : List VariableId}
    {vars result : Array Variable}
    (done : locals.foldlM (giveVariable owner) vars = .ok result) :
    result.size = vars.size ∧ (∀ id ∈ locals, id.index < vars.size) ∧
      ∀ id : VariableId, result[id.index]? = vars[id.index]?.map fun found =>
        if id ∈ locals then { found with owner := some owner } else found := by
  induction locals generalizing vars with
  | nil =>
      cases done
      simp
  | cons head rest inductionHypothesis =>
      rw [List.foldlM_cons] at done
      obtain ⟨given, givenDone, restDone⟩ := bind_eq_ok_iff.mp done
      obtain ⟨taken, takenDone, last⟩ := bind_eq_ok_iff.mp givenDone
      cases last
      obtain ⟨sameSize, restKnown, lookup⟩ := inductionHypothesis restDone
      rw [Array.size_setIfInBounds] at sameSize restKnown
      have present := entryAt_eq_ok_iff.mp takenDone
      obtain ⟨inside, _⟩ := Array.getElem?_eq_some_iff.mp present
      refine ⟨sameSize, List.forall_mem_cons.mpr ⟨inside, restKnown⟩, ?_⟩
      intro id
      rw [lookup id, Array.getElem?_setIfInBounds]
      by_cases same : head = id
      · subst same
        rw [present]
        simp [inside]
      · have different : head.index ≠ id.index := fun equal =>
          same (congrArg TableId.mk equal)
        have notHead : id ≠ head := fun equal => same equal.symm
        simp [different, notHead]

theorem filed_empty (name : String) : (empty name).Filed where
  localsKnown := by simp [Lists, empty]
  owners := by simp [empty]
  interactionsFiled := by simp [empty]
  scriptsFiled := by simp [empty]

namespace Filed

private theorem updateGroup (filed : specification.Filed) {id : GroupId} {change : Group → Group}
    (done : specification.updateGroup id change = .ok later)
    (keepsInteractions : ∀ found listed, listed ∈ found.interactions →
      listed ∈ (change found).interactions)
    (keepsScripts : ∀ found listed, listed ∈ found.scripts →
      listed ∈ (change found).scripts) : later.Filed := by
  obtain ⟨found, present, rfl⟩ := updateGroup_eq_ok done
  refine ⟨filed.localsKnown, filed.owners, ?_, ?_⟩
  · intro listed interaction placed
    exact exists_group_of_set present (keepsInteractions found listed)
      (filed.interactionsFiled listed interaction placed)
  · intro listed script placed
    exact exists_group_of_set present (keepsScripts found listed)
      (filed.scriptsFiled listed script placed)

private theorem addActor (filed : specification.Filed) {name : String} {kind : ActorKind}
    {id : ActorId} (done : specification.addActor name kind = .ok (later, id)) :
    later.Filed := by
  obtain ⟨_, rfl⟩ := addActor_cases done
  exact ⟨filed.localsKnown, filed.owners, filed.interactionsFiled, filed.scriptsFiled⟩

/-- No interaction lists a variable that is new. -/
theorem addVariable (filed : specification.Filed) (name : String) (type : ValueType) :
    (specification.addVariable name type).1.Filed := by
  refine ⟨?_, ?_, filed.interactionsFiled, filed.scriptsFiled⟩
  · intro owner id listed
    have known := filed.localsKnown owner id listed
    simp only [Specification.addVariable, Array.size_push]
    omega
  · intro id found placed owner
    simp only [Specification.addVariable] at placed
    rw [Array.getElem?_push] at placed
    split at placed
    · rename_i isNew
      cases placed
      constructor
      · intro owned
        cases owned
      · rintro ⟨listed, _⟩
        have known := filed.localsKnown owner id listed
        omega
    · exact filed.owners id found placed owner

private theorem enterGroup (filed : specification.Filed) (entered : Group) :
    (specification.enterGroup entered).1.Filed := by
  have kept : ∀ {place : Nat} {group : Group}, specification.groups[place]? = some group →
      (specification.enterGroup entered).1.groups[place]? = some group := by
    intro place group placed
    obtain ⟨inside, _⟩ := Array.getElem?_eq_some_iff.mp placed
    simp only [Specification.enterGroup]
    rw [Array.getElem?_push, if_neg (by omega), placed]
  refine ⟨filed.localsKnown, filed.owners, ?_, ?_⟩
  · intro id interaction placed
    obtain ⟨group, groupPlaced, listed⟩ := filed.interactionsFiled id interaction placed
    exact ⟨group, kept groupPlaced, listed⟩
  · intro id script placed
    obtain ⟨group, groupPlaced, listed⟩ := filed.scriptsFiled id script placed
    exact ⟨group, kept groupPlaced, listed⟩

/-- After an interaction was added, it and those before it list what they have. -/
private theorem lists_push {diagram : Diagram} {group : GroupId} {vars : Array Variable}
    {groups : Array Group} {owner : InteractionId} {id : VariableId} :
    Lists { specification with
        interactions := specification.interactions.push ⟨diagram, group⟩
        vars := vars
        groups := groups } owner id ↔
      specification.Lists owner id ∨
        owner.index = specification.interactions.size ∧ id ∈ diagram.locals := by
  simp only [Lists, Array.getElem?_push]
  split
  · rename_i isNew
    simp [isNew]
  · rename_i old
    simp [old]

/-- A new interaction becomes the owner of what it lists, being the last one. -/
theorem addInteraction (filed : specification.Filed) {group : GroupId} {diagram : Diagram}
    {id : InteractionId}
    (done : specification.addInteraction group diagram = .ok (later, id)) : later.Filed := by
  obtain ⟨vars, varsDone, rest⟩ := bind_eq_ok_iff.mp done
  obtain ⟨placed, placedDone, last⟩ := bind_eq_ok_iff.mp rest
  cases last
  obtain ⟨found, present, rfl⟩ := updateGroup_eq_ok placedDone
  obtain ⟨sameSize, localsKnown, lookup⟩ := getElem?_foldlM_giveVariable varsDone
  have listersKnown : ∀ {owner : InteractionId} {id : VariableId},
      specification.Lists owner id → owner.index < specification.interactions.size := by
    rintro owner id ⟨interaction, placed, _⟩
    exact (Array.getElem?_eq_some_iff.mp placed).1
  refine ⟨?_, ?_, ?_, ?_⟩
  · intro owner id listed
    rw [sameSize]
    rcases lists_push.mp listed with earlier | ⟨_, isLocal⟩
    · exact filed.localsKnown owner id earlier
    · exact localsKnown id isLocal
  · intro id changed placed owner
    rw [lookup id, Option.map_eq_some_iff] at placed
    obtain ⟨old, oldPlaced, rfl⟩ := placed
    simp only [lists_push]
    by_cases isLocal : id ∈ diagram.locals
    · simp only [isLocal, if_true, and_true]
      constructor
      · intro owned
        cases owned
        refine ⟨Or.inr rfl, ?_⟩
        rintro other (earlier | isNew)
        · exact (listersKnown earlier).le
        · exact isNew.le
      · rintro ⟨listed, isLast⟩
        have notEarlier := isLast ⟨specification.interactions.size⟩ (Or.inr rfl)
        have isNew : owner.index = specification.interactions.size := by
          rcases listed with earlier | isNew
          · exact absurd (listersKnown earlier) (by simpa using notEarlier)
          · exact isNew
        rw [← isNew]
    · simp only [isLocal, if_false, and_false, or_false]
      exact filed.owners id old oldPlaced owner
  · intro other interaction placed
    rw [Array.getElem?_push] at placed
    split at placed
    · rename_i isNew
      cases placed
      obtain ⟨inside, _⟩ := Array.getElem?_eq_some_iff.mp present
      have same : other = ⟨specification.interactions.size⟩ := congrArg TableId.mk isNew
      exact ⟨_, Array.getElem?_setIfInBounds_self_of_lt inside, by simp [same]⟩
    · exact exists_group_of_set present
        (fun listed => List.mem_append_left _ listed)
        (filed.interactionsFiled other interaction placed)
  · intro other script placed
    exact exists_group_of_set present (fun listed => listed)
      (filed.scriptsFiled other script placed)

private theorem addScript (filed : specification.Filed) {group : GroupId} {name body : String}
    {events : Option EventSource} {id : ScriptId}
    (done : specification.addScript group name body events = .ok (later, id)) :
    later.Filed := by
  obtain ⟨placed, placedDone, last⟩ := bind_eq_ok_iff.mp done
  cases last
  obtain ⟨found, present, rfl⟩ := updateGroup_eq_ok placedDone
  refine ⟨filed.localsKnown, filed.owners, ?_, ?_⟩
  · intro other interaction placed
    exact exists_group_of_set present (fun listed => listed)
      (filed.interactionsFiled other interaction placed)
  · intro other script placed
    rw [Array.getElem?_push] at placed
    split at placed
    · rename_i isNew
      cases placed
      obtain ⟨inside, _⟩ := Array.getElem?_eq_some_iff.mp present
      have same : other = ⟨specification.scripts.size⟩ := congrArg TableId.mk isNew
      exact ⟨_, Array.getElem?_setIfInBounds_self_of_lt inside, by simp [same]⟩
    · exact exists_group_of_set present
        (fun listed => List.mem_append_left _ listed)
        (filed.scriptsFiled other script placed)

end Filed

/-- In every specification that was built, entries are found where they belong. -/
theorem Built.filed (built : specification.Built) : specification.Filed := by
  induction built with
  | empty name =>
      exact filed_empty name
  | addActor _ done inductionHypothesis =>
      exact inductionHypothesis.addActor done
  | addVariable name type _ inductionHypothesis =>
      exact inductionHypothesis.addVariable name type
  | addConstant name qualifiedName _ inductionHypothesis =>
      exact ⟨inductionHypothesis.localsKnown, inductionHypothesis.owners,
        inductionHypothesis.interactionsFiled, inductionHypothesis.scriptsFiled⟩
  | enterGroup group _ inductionHypothesis =>
      exact inductionHypothesis.enterGroup group
  | addInteraction _ done inductionHypothesis =>
      exact inductionHypothesis.addInteraction done
  | addScript _ done inductionHypothesis =>
      exact inductionHypothesis.addScript done
  | addProperty _ done inductionHypothesis =>
      exact inductionHypothesis.updateGroup done (fun _ _ listed => listed)
        fun _ _ listed => listed

/-- A variable that one interaction lists, and no other, is owned by it. -/
theorem Built.owner_eq (built : specification.Built) {owner : InteractionId}
    {id : VariableId} (listed : specification.Lists owner id)
    (once : ∀ other, specification.Lists other id → other = owner) :
    ∃ found, specification.variableAt id = .ok found ∧ found.owner = some owner := by
  obtain ⟨found, done, _⟩ := exists_entryAt (built.filed.localsKnown owner id listed)
  refine ⟨found, done, ?_⟩
  rw [built.filed.owners id found (entryAt_eq_ok_iff.mp done)]
  exact ⟨listed, fun other also => (once other also ▸ le_refl _)⟩

end Specification

end SequenceChart
