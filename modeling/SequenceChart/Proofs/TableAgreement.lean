import SequenceChart.Proofs.Ownership
import Mathlib.Data.List.Perm.Basic
import Mathlib.Data.List.Nodup
import Mathlib.Data.Nat.Find

/-!
# Agreement of the tables

The tables of a specification refer to each other in both directions.  Whatever
sequence of additions led to a specification, the directions agree: groups list
their interactions and scripts once and in the order in which they came, variables
are owned by the last interaction that took them, actors are told apart by name, and
the index of names leads to each of them.

An addition leaves the entries that exist as they are.  It lengthens the lists of
the group that it addresses, and takes over the variables of a new interaction.
-/

namespace SequenceChart

/-- What may be added to a specification. -/
inductive Addition where
  | actor (name : String) (kind : ActorKind)
  | var (name : String) (type : ValueType)
  | const (name qualifiedName : String)
  | group (name : Option String) (target : Option Target)
  | interaction (group : GroupId) (diagram : Diagram)
  | script (group : GroupId) (name body : String) (events : Option EventSource)
  | property (group : GroupId) (property : Property)

namespace Addition

def addressed : Addition → Option GroupId
  | .interaction place _ => some place
  | .script place _ _ _ => some place
  | .property place _ => some place
  | _ => none

def taken : Addition → List VariableId
  | .interaction _ diagram => diagram.locals
  | _ => []

end Addition

def Group.lengthen (group : Group) (interactions : List InteractionId)
    (scripts : List ScriptId) (properties : List Property) : Group where
  name := group.name
  target := group.target
  interactions := group.interactions ++ interactions
  scripts := group.scripts ++ scripts
  properties := group.properties ++ properties

namespace Specification

def add (specification : Specification) : Addition → Except Fault Specification
  | .actor name kind => do
      let added ← specification.addActor name kind
      return added.1
  | .var name type => .ok (specification.addVariable name type).1
  | .const name qualifiedName => .ok (specification.addConstant name qualifiedName).1
  | .group name target => .ok (specification.addGroup name target).1
  | .interaction group diagram => do
      let added ← specification.addInteraction group diagram
      return added.1
  | .script group name body events => do
      let added ← specification.addScript group name body events
      return added.1
  | .property group property => specification.addProperty group property

def positions {α : Type} (table : Table) (entries : Array α) : List (TableId table) :=
  (List.range entries.size).map TableId.mk

/-- The lists of groups agree with what the entries of a table name as their group. -/
structure ListsAgree {α : Type} {table : Table} (groups : Array Group)
    (listed : Group → List (TableId table)) (entries : Array α) (home : α → GroupId) :
    Prop where
  mem_iff : ∀ (place : GroupId) (group : Group), groups[place.index]? = some group →
    ∀ id, id ∈ listed group ↔ ∃ entry, entries[id.index]? = some entry ∧ home entry = place
  increasing : ∀ group ∈ groups,
    (listed group).Pairwise fun first second => first.index < second.index
  once : (groups.toList.flatMap listed).Perm (positions table entries)

/-- References between the tables agree in both directions. -/
structure TablesAgree (specification : Specification) : Prop where
  interactions : ListsAgree specification.groups Group.interactions
    specification.interactions Interaction.group
  scripts : ListsAgree specification.groups Group.scripts specification.scripts Script.group
  owner_eq_some_iff : ∀ id found, specification.variableAt id = .ok found → ∀ owner,
    found.owner = some owner ↔ specification.Lists owner id ∧
      ∀ other, specification.Lists other id → other.index ≤ owner.index
  owner_eq_none_iff : ∀ id found, specification.variableAt id = .ok found →
    (found.owner = none ↔ ∀ owner, ¬ specification.Lists owner id)
  actorsByName_eq_iff : ∀ name id, specification.actorsByName.lookup name = some id ↔
    ∃ found, specification.actor id = .ok found ∧ found.name = name
  actorNamed_eq_iff : ∀ name found, specification.actorNamed name = .ok found ↔
    found.name = name ∧ ∃ id, specification.actor id = .ok found
  actors_differ : ∀ first second found other, specification.actor first = .ok found →
    specification.actor second = .ok other → found.name = other.name → first = second

/-- The entries that were there are kept, but for the lists of the group addressed and the
owners of the variables taken over. -/
structure Keeps (addition : Addition) (specification later : Specification) : Prop where
  name : later.name = specification.name
  actors : specification.actors.toList <+: later.actors.toList
  actorsByName : ∀ name id, specification.actorsByName.lookup name = some id →
    later.actorsByName.lookup name = some id
  constants : specification.constants.toList <+: later.constants.toList
  interactions : specification.interactions.toList <+: later.interactions.toList
  scripts : specification.scripts.toList <+: later.scripts.toList
  vars : ∀ (id : VariableId) (found : Variable), specification.vars[id.index]? = some found →
    later.vars[id.index]? = some (if id ∈ addition.taken then
      { found with owner := some ⟨specification.interactions.size⟩ } else found)
  groups : ∀ (id : GroupId) (found : Group), specification.groups[id.index]? = some found →
    ∃ interactions scripts properties,
      later.groups[id.index]? = some (found.lengthen interactions scripts properties) ∧
      (addition.addressed ≠ some id → interactions = [] ∧ scripts = [] ∧ properties = [])

variable {specification later : Specification}

private theorem addInteraction_cases {group : GroupId} {diagram : Diagram} {id : InteractionId}
    (done : specification.addInteraction group diagram = .ok (later, id)) :
    ∃ vars found, diagram.locals.foldlM (giveVariable ⟨specification.interactions.size⟩)
        specification.vars = .ok vars ∧
      specification.groups[group.index]? = some found ∧
      later = { specification with
        interactions := specification.interactions.push ⟨diagram, group⟩
        vars := vars
        groups := specification.groups.setIfInBounds group.index { found with
          interactions := found.interactions ++ [⟨specification.interactions.size⟩] } } := by
  obtain ⟨vars, varsDone, rest⟩ := bind_eq_ok_iff.mp done
  obtain ⟨placed, placedDone, last⟩ := bind_eq_ok_iff.mp rest
  cases last
  obtain ⟨found, present, rfl⟩ := updateGroup_eq_ok placedDone
  exact ⟨vars, found, varsDone, present, rfl⟩

private theorem addScript_cases {group : GroupId} {name body : String}
    {events : Option EventSource} {id : ScriptId}
    (done : specification.addScript group name body events = .ok (later, id)) :
    ∃ found, specification.groups[group.index]? = some found ∧
      later = { specification with
        scripts := specification.scripts.push ⟨name, body, group, events⟩
        groups := specification.groups.setIfInBounds group.index { found with
          scripts := found.scripts ++ [⟨specification.scripts.size⟩] } } := by
  obtain ⟨placed, placedDone, last⟩ := bind_eq_ok_iff.mp done
  cases last
  obtain ⟨found, present, rfl⟩ := updateGroup_eq_ok placedDone
  exact ⟨found, present, rfl⟩

private theorem built_of_add (built : specification.Built) {addition : Addition}
    (done : specification.add addition = .ok later) : later.Built := by
  cases addition with
  | actor name kind =>
      obtain ⟨⟨added, id⟩, addedDone, last⟩ := bind_eq_ok_iff.mp done
      cases last
      exact .addActor built addedDone
  | var name type =>
      cases done
      exact .addVariable name type built
  | const name qualifiedName =>
      cases done
      exact .addConstant name qualifiedName built
  | group name target =>
      cases done
      exact .enterGroup _ built
  | interaction group diagram =>
      obtain ⟨⟨added, id⟩, addedDone, last⟩ := bind_eq_ok_iff.mp done
      cases last
      exact .addInteraction built addedDone
  | script group name body events =>
      obtain ⟨⟨added, id⟩, addedDone, last⟩ := bind_eq_ok_iff.mp done
      cases last
      exact .addScript built addedDone
  | property group property =>
      exact .addProperty built done

/-- What every addition keeps is kept by any sequence of additions. -/
theorem holds_of_foldlM (holds : Specification → Prop)
    (kept : ∀ {before after : Specification}, holds before →
      ∀ {addition : Addition}, before.add addition = .ok after → holds after)
    (held : holds specification) {additions : List Addition}
    (done : additions.foldlM add specification = .ok later) : holds later := by
  induction additions generalizing specification with
  | nil =>
      cases done
      exact held
  | cons addition rest inductionHypothesis =>
      rw [List.foldlM_cons] at done
      obtain ⟨added, addedDone, restDone⟩ := bind_eq_ok_iff.mp done
      exact inductionHypothesis (kept held addedDone) restDone

/-! ## Lists of groups -/

section Lists

variable {α : Type} {table : Table} {listed : Group → List (TableId table)}
  {home : α → GroupId} {groups : Array Group} {entries : Array α}

def membersOf (table : Table) (home : α → GroupId) (entries : Array α) (place : GroupId) :
    List (TableId table) :=
  (positions table entries).filter fun id => (entries[id.index]?).any fun entry =>
    home entry = place

theorem mem_membersOf_iff {place : GroupId} {id : TableId table} :
    id ∈ membersOf table home entries place ↔
      ∃ entry, entries[id.index]? = some entry ∧ home entry = place := by
  rw [membersOf, List.mem_filter, Option.any_eq_true]
  constructor
  · rintro ⟨_, entry, present, belongs⟩
    exact ⟨entry, present, of_decide_eq_true belongs⟩
  · rintro ⟨entry, present, belongs⟩
    obtain ⟨inside, _⟩ := Array.getElem?_eq_some_iff.mp present
    exact ⟨List.mem_map.mpr ⟨id.index, List.mem_range.mpr inside, rfl⟩, entry, present,
      decide_eq_true belongs⟩

private theorem membersOf_push (entry : α) (place : GroupId) :
    membersOf table home (entries.push entry) place =
      membersOf table home entries place ++
        if home entry = place then [⟨entries.size⟩] else [] := by
  have earlier : ∀ id ∈ positions table entries,
      (entries.push entry)[id.index]? = entries[id.index]? := by
    intro id member
    obtain ⟨index, inside, rfl⟩ := List.mem_map.mp member
    rw [Array.getElem?_push, if_neg (List.mem_range.mp inside).ne]
  rw [membersOf, positions, Array.size_push, List.range_succ, List.map_append,
    List.filter_append]
  congr 1
  · apply List.filter_congr
    intro id member
    rw [earlier id member]
  · by_cases belongs : home entry = place <;> simp [belongs]

/-- Groups list their members, and every entry names a group that exists. -/
structure Listed (listed : Group → List (TableId table)) (home : α → GroupId)
    (groups : Array Group) (entries : Array α) : Prop where
  listed_eq : ∀ (place : GroupId) (group : Group), groups[place.index]? = some group →
    listed group = membersOf table home entries place
  homes : ∀ entry ∈ entries, (home entry).index < groups.size

namespace Listed

/-- A new group has no members. -/
theorem push_group (lists : Listed listed home groups entries) {group : Group}
    (unlisted : listed group = []) : Listed listed home (groups.push group) entries := by
  constructor
  · intro place other present
    rw [Array.getElem?_push] at present
    split at present
    · rename_i isNew
      cases present
      rw [unlisted, eq_comm, List.eq_nil_iff_forall_not_mem]
      intro id member
      obtain ⟨entry, entryPresent, belongs⟩ := mem_membersOf_iff.mp member
      have inside := lists.homes entry (Array.mem_of_getElem? entryPresent)
      rw [belongs, isNew] at inside
      exact Nat.lt_irrefl _ inside
    · exact lists.listed_eq place other present
  · intro entry member
    have inside := lists.homes entry member
    rw [Array.size_push]
    omega

/-- A group is changed as its members are. -/
theorem set_group (lists : Listed listed home groups entries) {place : GroupId}
    {found changed : Group} {more : Array α} (present : groups[place.index]? = some found)
    (others : ∀ other, other ≠ place →
      membersOf table home more other = membersOf table home entries other)
    (own : listed found = membersOf table home entries place →
      listed changed = membersOf table home more place)
    (homes : ∀ entry ∈ more, (home entry).index < groups.size) :
    Listed listed home (groups.setIfInBounds place.index changed) more := by
  obtain ⟨inside, _⟩ := Array.getElem?_eq_some_iff.mp present
  constructor
  · intro other group otherPresent
    by_cases same : other = place
    · subst same
      rw [Array.getElem?_setIfInBounds_self_of_lt inside] at otherPresent
      cases otherPresent
      exact own (lists.listed_eq other found present)
    · have different : place.index ≠ other.index := fun equal =>
        same (congrArg TableId.mk equal.symm)
      rw [Array.getElem?_setIfInBounds_ne different] at otherPresent
      rw [others other same]
      exact lists.listed_eq other group otherPresent
  · intro entry member
    rw [Array.size_setIfInBounds]
    exact homes entry member

/-- A new entry goes to the end of the list of its group. -/
theorem push_entry (lists : Listed listed home groups entries) {place : GroupId}
    {found changed : Group} {entry : α} (present : groups[place.index]? = some found)
    (belongs : home entry = place)
    (appended : listed changed = listed found ++ [⟨entries.size⟩]) :
    Listed listed home (groups.setIfInBounds place.index changed) (entries.push entry) := by
  apply lists.set_group present
  · intro other different
    rw [membersOf_push, belongs, if_neg different.symm, List.append_nil]
  · intro same
    rw [appended, same, membersOf_push, if_pos belongs]
  · intro other member
    rcases Array.mem_push.mp member with earlier | rfl
    · exact lists.homes other earlier
    · rw [belongs]
      exact (Array.getElem?_eq_some_iff.mp present).1

/-- The list of a group is kept by changes to its other parts. -/
theorem keep_entries (lists : Listed listed home groups entries) {place : GroupId}
    {found changed : Group} (present : groups[place.index]? = some found)
    (kept : listed changed = listed found) :
    Listed listed home (groups.setIfInBounds place.index changed) entries :=
  lists.set_group present (fun _ _ => rfl) (fun same => kept.trans same) lists.homes

private theorem exists_membersOf (lists : Listed listed home groups entries) {group : Group}
    (member : group ∈ groups) :
    ∃ place : GroupId, groups[place.index]? = some group ∧
      listed group = membersOf table home entries place := by
  obtain ⟨index, present⟩ := Array.mem_iff_getElem?.mp member
  exact ⟨⟨index⟩, present, lists.listed_eq ⟨index⟩ group present⟩

theorem mem_flatMap_iff (lists : Listed listed home groups entries) {id : TableId table} :
    id ∈ groups.toList.flatMap listed ↔ id ∈ positions table entries := by
  rw [List.mem_flatMap, positions, List.mem_map]
  constructor
  · rintro ⟨group, member, isListed⟩
    obtain ⟨place, _, same⟩ := lists.exists_membersOf (Array.mem_toList_iff.mp member)
    rw [same] at isListed
    obtain ⟨entry, present, _⟩ := mem_membersOf_iff.mp isListed
    obtain ⟨inside, _⟩ := Array.getElem?_eq_some_iff.mp present
    exact ⟨id.index, List.mem_range.mpr inside, rfl⟩
  · rintro ⟨index, inRange, rfl⟩
    have inside := List.mem_range.mp inRange
    have present : entries[index]? = some entries[index] := Array.getElem?_eq_getElem inside
    have homeInside := lists.homes entries[index] (Array.getElem_mem inside)
    have homePresent := Array.getElem?_eq_getElem homeInside
    refine ⟨_, Array.mem_toList_iff.mpr (Array.mem_of_getElem? homePresent), ?_⟩
    rw [lists.listed_eq (home entries[index]) _ homePresent]
    exact mem_membersOf_iff.mpr ⟨entries[index], present, rfl⟩

/-- No entry is listed by two groups, as it names only one. -/
theorem pairwise_disjoint (lists : Listed listed home groups entries) :
    groups.toList.Pairwise fun first second => (listed first).Disjoint (listed second) := by
  rw [List.pairwise_iff_getElem]
  intro first second firstInside secondInside before id inFirst inSecond
  have firstPresent : groups[first]? = some groups.toList[first] := by
    rw [← Array.getElem?_toList, List.getElem?_eq_getElem firstInside]
  have secondPresent : groups[second]? = some groups.toList[second] := by
    rw [← Array.getElem?_toList, List.getElem?_eq_getElem secondInside]
  rw [lists.listed_eq ⟨first⟩ _ firstPresent] at inFirst
  rw [lists.listed_eq ⟨second⟩ _ secondPresent] at inSecond
  obtain ⟨entry, present, atFirst⟩ := mem_membersOf_iff.mp inFirst
  obtain ⟨again, againPresent, atSecond⟩ := mem_membersOf_iff.mp inSecond
  cases present.symm.trans againPresent
  have same : first = second := congrArg TableId.index (atFirst.symm.trans atSecond)
  omega

private theorem pairwise_lt (lists : Listed listed home groups entries) {group : Group}
    (member : group ∈ groups) :
    (listed group).Pairwise fun first second => first.index < second.index := by
  obtain ⟨place, _, same⟩ := lists.exists_membersOf member
  rw [same, membersOf, positions]
  apply List.Pairwise.filter
  rw [List.pairwise_map]
  exact List.pairwise_lt_range

theorem nodup_flatMap (lists : Listed listed home groups entries) :
    (groups.toList.flatMap listed).Nodup := by
  rw [List.nodup_flatMap]
  refine ⟨?_, lists.pairwise_disjoint⟩
  intro group member
  apply (lists.pairwise_lt (Array.mem_toList_iff.mp member)).imp
  intro first second before same
  rw [same] at before
  exact Nat.lt_irrefl _ before

private theorem listsAgree (lists : Listed listed home groups entries) :
    ListsAgree groups listed entries home := by
  refine ⟨?_, fun _ => lists.pairwise_lt, ?_⟩
  · intro place group present id
    rw [lists.listed_eq place group present]
    exact mem_membersOf_iff
  · have distinct : (positions table entries).Nodup :=
      List.nodup_range.map fun first second same => congrArg TableId.index same
    rw [List.perm_ext_iff_of_nodup lists.nodup_flatMap distinct]
    exact fun id => lists.mem_flatMap_iff

end Listed

end Lists

private theorem toList_prefix_push {α : Type} (entries : Array α) (entry : α) :
    entries.toList <+: (entries.push entry).toList := by
  rw [Array.toList_push]
  exact List.prefix_append _ _

theorem getElem?_push_of_some {α : Type} {entries : Array α} {index : Nat} {found : α}
    (present : entries[index]? = some found) (entry : α) :
    (entries.push entry)[index]? = some found := by
  obtain ⟨inside, _⟩ := Array.getElem?_eq_some_iff.mp present
  rw [Array.getElem?_push, if_neg inside.ne, present]

def IndexAgrees (specification : Specification) : Prop :=
  ∀ name id, specification.actorsByName.lookup name = some id ↔
    ∃ found, specification.actors[id.index]? = some found ∧ found.name = name

/-- A name that the index does not have is taken up together with its actor. -/
theorem IndexAgrees.addActor (agrees : specification.IndexAgrees) {name : String}
    {kind : ActorKind} {id : ActorId}
    (done : specification.addActor name kind = .ok (later, id)) : later.IndexAgrees := by
  obtain ⟨fresh, rfl⟩ := addActor_cases done
  intro other place
  by_cases same : other = name
  · subst same
    rw [List.lookup_cons_self]
    constructor
    · intro isNew
      cases isNew
      exact ⟨⟨other, kind⟩, Array.getElem?_push_size, rfl⟩
    · rintro ⟨found, present, named⟩
      rw [Array.getElem?_push] at present
      split at present
      · rename_i isNew
        exact congrArg some (congrArg TableId.mk isNew.symm)
      · have earlier := (agrees other place).mpr ⟨found, present, named⟩
        cases fresh.symm.trans earlier
  · rw [List.lookup_cons, beq_false_of_ne same]
    refine (agrees other place).trans ⟨?_, ?_⟩
    · rintro ⟨found, present, named⟩
      exact ⟨found, getElem?_push_of_some present _, named⟩
    · rintro ⟨found, present, named⟩
      rw [Array.getElem?_push] at present
      split at present
      · cases present
        exact absurd named.symm same
      · exact ⟨found, present, named⟩

/-- An actor that is found by its name is at some position, and the other way round. -/
theorem IndexAgrees.actorNamed_eq_iff (agrees : specification.IndexAgrees) {name : String}
    {found : Actor} :
    specification.actorNamed name = .ok found ↔
      found.name = name ∧ ∃ id, specification.actor id = .ok found := by
  constructor
  · intro done
    rw [actorNamed] at done
    split at done
    · rename_i id indexed
      obtain ⟨other, present, named⟩ := (agrees name id).mp indexed
      cases present.symm.trans (entryAt_eq_ok_iff.mp done)
      exact ⟨named, id, done⟩
    · cases done
  · rintro ⟨named, id, placed⟩
    have indexed := (agrees name id).mpr ⟨found, entryAt_eq_ok_iff.mp placed, named⟩
    rw [actorNamed, indexed]
    exact placed

theorem IndexAgrees.actors_differ (agrees : specification.IndexAgrees)
    {first second : ActorId} {found other : Actor}
    (placed : specification.actor first = .ok found)
    (otherPlaced : specification.actor second = .ok other) (same : found.name = other.name) :
    first = second := by
  have indexed := (agrees other.name first).mpr ⟨found, entryAt_eq_ok_iff.mp placed, same⟩
  have otherIndexed := (agrees other.name second).mpr
    ⟨other, entryAt_eq_ok_iff.mp otherPlaced, rfl⟩
  exact Option.some.inj (indexed.symm.trans otherIndexed)

/-! ## Sequences of additions -/

/-- What every addition keeps of the lists of groups and the index of names. -/
structure Orderly (specification : Specification) : Prop where
  interactions : Listed Group.interactions Interaction.group specification.groups
    specification.interactions
  scripts : Listed Group.scripts Script.group specification.groups specification.scripts
  actors : specification.IndexAgrees

theorem orderly_empty (name : String) : (empty name).Orderly :=
  ⟨⟨by simp [empty], by simp [empty]⟩, ⟨by simp [empty], by simp [empty]⟩,
    by simp [IndexAgrees, empty]⟩

private theorem orderly_of_add (orderly : specification.Orderly) {addition : Addition}
    (done : specification.add addition = .ok later) : later.Orderly := by
  cases addition with
  | actor name kind =>
      obtain ⟨⟨added, id⟩, addedDone, last⟩ := bind_eq_ok_iff.mp done
      cases last
      have agrees := orderly.actors.addActor addedDone
      obtain ⟨_, rfl⟩ := addActor_cases addedDone
      exact ⟨orderly.interactions, orderly.scripts, agrees⟩
  | var name type =>
      cases done
      exact ⟨orderly.interactions, orderly.scripts, orderly.actors⟩
  | const name qualifiedName =>
      cases done
      exact ⟨orderly.interactions, orderly.scripts, orderly.actors⟩
  | group name target =>
      cases done
      exact ⟨orderly.interactions.push_group rfl, orderly.scripts.push_group rfl,
        orderly.actors⟩
  | interaction group diagram =>
      obtain ⟨⟨added, id⟩, addedDone, last⟩ := bind_eq_ok_iff.mp done
      cases last
      obtain ⟨vars, found, _, present, rfl⟩ := addInteraction_cases addedDone
      exact ⟨orderly.interactions.push_entry present rfl rfl,
        orderly.scripts.keep_entries present rfl, orderly.actors⟩
  | script group name body events =>
      obtain ⟨⟨added, id⟩, addedDone, last⟩ := bind_eq_ok_iff.mp done
      cases last
      obtain ⟨found, present, rfl⟩ := addScript_cases addedDone
      exact ⟨orderly.interactions.keep_entries present rfl,
        orderly.scripts.push_entry present rfl rfl, orderly.actors⟩
  | property group property =>
      obtain ⟨found, present, rfl⟩ := updateGroup_eq_ok done
      exact ⟨orderly.interactions.keep_entries present rfl,
        orderly.scripts.keep_entries present rfl, orderly.actors⟩

/-- If some interaction lists a variable, then one of them is the last one. -/
theorem exists_last_of_lists {owner : InteractionId} {id : VariableId}
    (lists : specification.Lists owner id) :
    ∃ last, specification.Lists last id ∧
      ∀ other, specification.Lists other id → other.index ≤ last.index := by
  classical
  have inside : ∀ {other : InteractionId}, specification.Lists other id →
      other.index ≤ specification.interactions.size := by
    rintro other ⟨interaction, present, _⟩
    exact (Array.getElem?_eq_some_iff.mp present).1.le
  refine ⟨⟨Nat.findGreatest (fun index => specification.Lists ⟨index⟩ id)
    specification.interactions.size⟩, ?_, ?_⟩
  · exact Nat.findGreatest_spec (P := fun index => specification.Lists ⟨index⟩ id)
      (inside lists) lists
  · intro other also
    exact Nat.le_findGreatest (inside also) also

theorem Built.owner_eq_none_iff (built : specification.Built) {id : VariableId}
    {found : Variable} (placed : specification.variableAt id = .ok found) :
    found.owner = none ↔ ∀ owner, ¬ specification.Lists owner id := by
  have owners := built.filed.owners id found (entryAt_eq_ok_iff.mp placed)
  constructor
  · intro unowned owner lists
    obtain ⟨last, lastLists, isLast⟩ := exists_last_of_lists lists
    have owned := (owners last).mpr ⟨lastLists, isLast⟩
    rw [unowned] at owned
    cases owned
  · intro unlisted
    rw [Option.eq_none_iff_forall_ne_some]
    intro owner owned
    exact unlisted owner ((owners owner).mp owned).1

theorem Orderly.tablesAgree (orderly : specification.Orderly) (built : specification.Built) :
    specification.TablesAgree where
  interactions := orderly.interactions.listsAgree
  scripts := orderly.scripts.listsAgree
  owner_eq_some_iff _ found placed :=
    built.filed.owners _ found (entryAt_eq_ok_iff.mp placed)
  owner_eq_none_iff _ _ placed := built.owner_eq_none_iff placed
  actorsByName_eq_iff name id := by
    simpa only [actor, entryAt_eq_ok_iff] using orderly.actors name id
  actorNamed_eq_iff _ _ := orderly.actors.actorNamed_eq_iff
  actors_differ _ _ _ _ placed otherPlaced same :=
    orderly.actors.actors_differ placed otherPlaced same

section Groups

variable {groups : Array Group} {addressed : Option GroupId} {id place : GroupId}
  {found other changed : Group}

/-- Nothing is appended to a group that stays as it is. -/
theorem exists_lengthen_nil (present : groups[id.index]? = some found) :
    ∃ interactions scripts properties,
      groups[id.index]? = some (found.lengthen interactions scripts properties) ∧
      (addressed ≠ some id → interactions = [] ∧ scripts = [] ∧ properties = []) := by
  refine ⟨[], [], [], ?_, fun _ => ⟨rfl, rfl, rfl⟩⟩
  simpa [Group.lengthen] using present

/-- Where the lists of one group are lengthened, all other groups stay as they are. -/
theorem exists_lengthen_of_set (addresses : addressed = some place)
    (present : groups[place.index]? = some found)
    (lengthened : ∃ interactions scripts properties,
      changed = found.lengthen interactions scripts properties)
    (otherPresent : groups[id.index]? = some other) :
    ∃ interactions scripts properties,
      (groups.setIfInBounds place.index changed)[id.index]? =
        some (other.lengthen interactions scripts properties) ∧
      (addressed ≠ some id → interactions = [] ∧ scripts = [] ∧ properties = []) := by
  by_cases same : place = id
  · subst same
    cases present.symm.trans otherPresent
    obtain ⟨inside, _⟩ := Array.getElem?_eq_some_iff.mp present
    obtain ⟨interactions, scripts, properties, rfl⟩ := lengthened
    exact ⟨interactions, scripts, properties,
      Array.getElem?_setIfInBounds_self_of_lt inside, fun apart => absurd addresses apart⟩
  · have different : place.index ≠ id.index := fun equal =>
      same (congrArg TableId.mk equal)
    rw [Array.getElem?_setIfInBounds_ne different]
    exact exists_lengthen_nil otherPresent

end Groups

private theorem keeps_of_add {addition : Addition}
    (done : specification.add addition = .ok later) : Keeps addition specification later := by
  cases addition with
  | actor name kind =>
      obtain ⟨⟨added, id⟩, addedDone, last⟩ := bind_eq_ok_iff.mp done
      cases last
      obtain ⟨fresh, rfl⟩ := addActor_cases addedDone
      refine ⟨rfl, toList_prefix_push _ _, ?_, List.prefix_refl _, List.prefix_refl _,
        List.prefix_refl _, fun _ _ present => present,
        fun _ _ present => exists_lengthen_nil present⟩
      intro other place indexed
      have different : other ≠ name := by
        rintro rfl
        cases fresh.symm.trans indexed
      rw [List.lookup_cons, beq_false_of_ne different]
      exact indexed
  | var name type =>
      cases done
      exact ⟨rfl, List.prefix_refl _, fun _ _ indexed => indexed, List.prefix_refl _,
        List.prefix_refl _, List.prefix_refl _, fun _ _ present => getElem?_push_of_some present _,
        fun _ _ present => exists_lengthen_nil present⟩
  | const name qualifiedName =>
      cases done
      exact ⟨rfl, List.prefix_refl _, fun _ _ indexed => indexed, toList_prefix_push _ _,
        List.prefix_refl _, List.prefix_refl _, fun _ _ present => present,
        fun _ _ present => exists_lengthen_nil present⟩
  | group name target =>
      cases done
      exact ⟨rfl, List.prefix_refl _, fun _ _ indexed => indexed, List.prefix_refl _,
        List.prefix_refl _, List.prefix_refl _, fun _ _ present => present,
        fun _ _ present => exists_lengthen_nil (getElem?_push_of_some present _)⟩
  | interaction place diagram =>
      obtain ⟨⟨added, id⟩, addedDone, last⟩ := bind_eq_ok_iff.mp done
      cases last
      obtain ⟨vars, found, varsDone, groupPresent, rfl⟩ := addInteraction_cases addedDone
      obtain ⟨_, _, lookup⟩ := getElem?_foldlM_giveVariable varsDone
      refine ⟨rfl, List.prefix_refl _, fun _ _ indexed => indexed, List.prefix_refl _,
        toList_prefix_push _ _, List.prefix_refl _, ?_, ?_⟩
      · intro taken old present
        rw [lookup taken, present]
        rfl
      · intro other group present
        exact exists_lengthen_of_set rfl groupPresent
          ⟨[⟨specification.interactions.size⟩], [], [], by simp [Group.lengthen]⟩ present
  | script place name body events =>
      obtain ⟨⟨added, id⟩, addedDone, last⟩ := bind_eq_ok_iff.mp done
      cases last
      obtain ⟨found, groupPresent, rfl⟩ := addScript_cases addedDone
      refine ⟨rfl, List.prefix_refl _, fun _ _ indexed => indexed, List.prefix_refl _,
        List.prefix_refl _, toList_prefix_push _ _, fun _ _ present => present, ?_⟩
      intro other group present
      exact exists_lengthen_of_set rfl groupPresent
        ⟨[], [⟨specification.scripts.size⟩], [], by simp [Group.lengthen]⟩ present
  | property place property =>
      obtain ⟨found, groupPresent, rfl⟩ := updateGroup_eq_ok done
      refine ⟨rfl, List.prefix_refl _, fun _ _ indexed => indexed, List.prefix_refl _,
        List.prefix_refl _, List.prefix_refl _, fun _ _ present => present, ?_⟩
      intro other group present
      exact exists_lengthen_of_set rfl groupPresent
        ⟨[], [], [property], by simp [Group.lengthen]⟩ present

/-- Whatever is added to the empty specification, and in whatever order, the tables agree
with each other.  A further addition keeps the entries that were there. -/
theorem additions_keep_tables_in_agreement {name : String} {additions : List Addition}
    (done : additions.foldlM add (empty name) = .ok specification) :
    specification.TablesAgree ∧
      ∀ addition later, specification.add addition = .ok later →
        Keeps addition specification later := by
  have built := holds_of_foldlM Built built_of_add (.empty name) done
  have orderly := holds_of_foldlM Orderly orderly_of_add (orderly_empty name) done
  exact ⟨orderly.tablesAgree built, fun _ _ added => keeps_of_add added⟩

end Specification

/-- An interaction that does nothing, and keeps variables. -/
def keeper (name : String) (locals : List VariableId) : Diagram where
  name := name
  body := []
  lifelines := []
  locals := locals
  fragments := #[]
  expressions := #[]
  locations := []

/-- Two groups get interactions in turn, and the second interaction takes a variable from
the first one. -/
def stockAdditions : List Addition :=
  [.actor "Clerk" .component, .var "count" .nat, .group (some "Shop") none,
    .group none (some ⟨"STORE", ["fetch"], ⟨[]⟩⟩), .var "open" .bool, .var "spare" .nat,
    .interaction ⟨0⟩ (keeper "Sale" [⟨0⟩, ⟨1⟩]), .interaction ⟨1⟩ (keeper "Count" [⟨0⟩, ⟨0⟩]),
    .actor "World" .world, .script ⟨1⟩ "Always" "RUN(fetch)" none,
    .interaction ⟨0⟩ (keeper "Close" []),
    .property ⟨1⟩ (.sequence ⟨.holds, .timed, false, ⟨2⟩⟩), .const "limit" "Shop::limit"]

def stock : Specification where
  name := "Stock"
  actors := #[⟨"Clerk", .component⟩, ⟨"World", .world⟩]
  actorsByName := [("World", ⟨1⟩), ("Clerk", ⟨0⟩)]
  vars := #[⟨"count", .nat, some ⟨1⟩⟩, ⟨"open", .bool, some ⟨0⟩⟩, ⟨"spare", .nat, none⟩]
  constants := #[⟨"limit", "Shop::limit"⟩]
  groups := #[⟨some "Shop", none, [⟨0⟩, ⟨2⟩], [], []⟩,
    ⟨none, some ⟨"STORE", ["fetch"], ⟨[]⟩⟩, [⟨1⟩], [⟨0⟩],
      [.sequence ⟨.holds, .timed, false, ⟨2⟩⟩]⟩]
  interactions := #[⟨keeper "Sale" [⟨0⟩, ⟨1⟩], ⟨0⟩⟩, ⟨keeper "Count" [⟨0⟩, ⟨0⟩], ⟨1⟩⟩,
    ⟨keeper "Close" [], ⟨0⟩⟩]
  scripts := #[⟨"Always", "RUN(fetch)", ⟨1⟩, none⟩]

theorem stock_tables_agree :
    stockAdditions.foldlM Specification.add (.empty "Stock") = .ok stock ∧
      stock.TablesAgree ∧
      ∃ later, stock.add (.interaction ⟨0⟩ (keeper "Return" [⟨2⟩, ⟨0⟩])) = .ok later ∧
        Specification.Keeps (.interaction ⟨0⟩ (keeper "Return" [⟨2⟩, ⟨0⟩])) stock later := by
  have done : stockAdditions.foldlM Specification.add (.empty "Stock") = .ok stock := by
    decide +kernel
  obtain ⟨agree, keeps⟩ := Specification.additions_keep_tables_in_agreement done
  exact ⟨done, agree, _, rfl, keeps _ _ rfl⟩

end SequenceChart
