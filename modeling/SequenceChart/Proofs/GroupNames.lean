import SequenceChart.Proofs.CommentMarks
import SequenceChart.Proofs.GenerationSuccess

/-!
# Names of groups

Every group is written into a module and a file under a name of its own.  Untitled
groups are numbered, and no title is written as such a name: one that could be
mistaken for a number is marked.

Distinct titles are not enough to keep the names apart.  A marked title may have
been given to another group as it stands.  This is the only way in which two groups
can come to share a name.
-/

namespace SequenceChart

namespace Specification

/-- The titles that were given to groups, in the order of the groups. -/
def titles (specification : Specification) : List String :=
  specification.groups.toList.filterMap Group.name

def HasTitle (specification : Specification) (id : GroupId) (title : String) : Prop :=
  ∃ group, specification.groups[id.index]? = some group ∧ group.name = some title

/-- The ways in which a group comes to its name. -/
inductive IsNamed (specification : Specification) (id : GroupId) : String → Prop
  | marked {title : String} :
      specification.HasTitle id title → title.startsWith untitled = true →
      IsNamed specification id ("A_" ++ title)
  | plain {title : String} :
      specification.HasTitle id title → title.startsWith untitled = false →
      IsNamed specification id title
  | numbered {group : Group} :
      specification.groups[id.index]? = some group → group.name = none →
      IsNamed specification id
        (untitled ++ toString id.index ++ "_" ++ specification.name)

/-- Some title has to be marked, and what it becomes is a title as well. -/
def MarksTitle (specification : Specification) : Prop :=
  ∃ title ∈ specification.titles, title.startsWith untitled = true ∧
    "A_" ++ title ∈ specification.titles

variable {specification : Specification}

private theorem isNamed_of_groupName {id : GroupId} {name : String}
    (done : specification.groupName id = .ok name) : specification.IsNamed id name := by
  obtain ⟨group, placed, last⟩ := bind_eq_ok_iff.mp done
  have present := entryAt_eq_ok_iff.mp placed
  cases given : group.name with
  | none =>
      simp only [given, pure_eq_ok_iff] at last
      rw [← last]
      exact .numbered present given
  | some title =>
      have titled : specification.HasTitle id title := ⟨group, present, given⟩
      simp only [given, pure_eq_ok_iff] at last
      by_cases mistakable : title.startsWith untitled = true
      · rw [if_pos mistakable] at last
        rw [← last]
        exact .marked titled mistakable
      · rw [if_neg mistakable] at last
        rw [← last]
        exact .plain titled (by simpa using mistakable)

/-- A title decides about the name of its group. -/
theorem groupName_of_hasTitle {id : GroupId} {title : String}
    (titled : specification.HasTitle id title) :
    specification.groupName id =
      .ok (if title.startsWith untitled then "A_" ++ title else title) := by
  obtain ⟨group, present, given⟩ := titled
  refine bind_eq_ok_iff.mpr ⟨group, entryAt_eq_ok_iff.mpr present, ?_⟩
  rw [given]
  rfl

theorem mem_titles_iff {title : String} :
    title ∈ specification.titles ↔ ∃ id, specification.HasTitle id title := by
  rw [titles, List.mem_filterMap]
  constructor
  · rintro ⟨group, member, given⟩
    obtain ⟨index, present⟩ := Array.mem_iff_getElem?.mp (Array.mem_toList_iff.mp member)
    exact ⟨⟨index⟩, group, present, given⟩
  · rintro ⟨id, group, present, given⟩
    exact ⟨group, Array.mem_toList_iff.mpr (Array.mem_of_getElem? present), given⟩

/-- Items that are chosen from a list without repetition are chosen at one place each. -/
theorem index_eq_of_nodup_filterMap {α β : Type} {choose : α → Option β} {items : List α}
    (distinct : (items.filterMap choose).Nodup) {first second : Nat} {left right : α}
    {chosen : β} (leftPresent : items[first]? = some left)
    (rightPresent : items[second]? = some right) (leftChosen : choose left = some chosen)
    (rightChosen : choose right = some chosen) : first = second := by
  induction items generalizing first second with
  | nil =>
      simp at leftPresent
  | cons item rest inductionHypothesis =>
      have laterDistinct : (rest.filterMap choose).Nodup := by
        apply List.Nodup.sublist _ distinct
        exact (List.sublist_cons_self item rest).filterMap choose
      have notLater : choose item = some chosen → ∀ (place : Nat) (other : α),
          rest[place]? = some other → choose other ≠ some chosen := by
        intro isChosen place other present again
        rw [List.filterMap_cons_some isChosen, List.nodup_cons] at distinct
        exact distinct.1 (List.mem_filterMap.mpr
          ⟨other, List.mem_of_getElem? present, again⟩)
      cases first with
      | zero =>
          cases leftPresent
          cases second with
          | zero =>
              rfl
          | succ place =>
              exact absurd rightChosen (notLater leftChosen place right rightPresent)
      | succ place =>
          cases second with
          | zero =>
              cases rightPresent
              exact absurd leftChosen (notLater rightChosen place left leftPresent)
          | succ other =>
              rw [inductionHypothesis laterDistinct leftPresent rightPresent]

theorem HasTitle.unique (distinct : specification.titles.Nodup) {id other : GroupId}
    {title : String} (titled : specification.HasTitle id title)
    (again : specification.HasTitle other title) : id = other := by
  obtain ⟨group, present, given⟩ := titled
  obtain ⟨otherGroup, otherPresent, otherGiven⟩ := again
  rw [← Array.getElem?_toList] at present otherPresent
  exact congrArg TableId.mk
    (index_eq_of_nodup_filterMap distinct present otherPresent given otherGiven)

theorem startsWith_untitled_append (rest : String) :
    (untitled ++ rest).startsWith untitled = true := by
  rw [String.startsWith_string_iff, String.toList_append]
  exact List.prefix_append _ _

/-- A mark at the front tells a name from the numbered ones. -/
theorem mark_append_ne_untitled_append (title rest : String) :
    "A_" ++ title ≠ untitled ++ rest := by
  intro same
  have characters := congrArg (fun text => text.toList.head?) same
  simp [untitled] at characters

theorem startsWith_untitled_mark_append (title : String) :
    ("A_" ++ title).startsWith untitled = false := by
  rw [← Bool.not_eq_true, String.startsWith_string_iff]
  rintro ⟨rest, same⟩
  apply mark_append_ne_untitled_append title (String.ofList rest)
  apply String.toList_inj.mp
  rw [← same, String.toList_append, String.toList_ofList]

private theorem marksTitle_of_hasTitle {id other : GroupId} {title : String}
    (titled : specification.HasTitle id title) (mistakable : title.startsWith untitled = true)
    (taken : specification.HasTitle other ("A_" ++ title)) : specification.MarksTitle :=
  ⟨title, mem_titles_iff.mpr ⟨id, titled⟩, mistakable, mem_titles_iff.mpr ⟨other, taken⟩⟩

/-- Where two groups share a name, the title of one of them is what the title of the
other becomes. -/
theorem IsNamed.eq_or_marksTitle (distinct : specification.titles.Nodup)
    {id other : GroupId} {name otherName : String} (named : specification.IsNamed id name)
    (otherNamed : specification.IsNamed other otherName) (same : name = otherName) :
    id = other ∨ specification.MarksTitle := by
  have numberedApart : ∀ {title rest : String}, title.startsWith untitled = false →
      title ≠ untitled ++ rest := by
    intro title rest unmistakable equal
    rw [equal, startsWith_untitled_append] at unmistakable
    cases unmistakable
  cases named with
  | marked titled mistakable =>
      cases otherNamed with
      | marked otherTitled _ =>
          rw [String.append_right_inj] at same
          subst same
          exact .inl (titled.unique distinct otherTitled)
      | plain otherTitled _ =>
          subst same
          exact .inr (marksTitle_of_hasTitle titled mistakable otherTitled)
      | numbered _ _ =>
          rw [String.append_assoc, String.append_assoc] at same
          exact absurd same (mark_append_ne_untitled_append _ _)
  | plain titled unmistakable =>
      cases otherNamed with
      | marked otherTitled mistakable =>
          subst same
          exact .inr (marksTitle_of_hasTitle otherTitled mistakable titled)
      | plain otherTitled _ =>
          subst same
          exact .inl (titled.unique distinct otherTitled)
      | numbered _ _ =>
          rw [String.append_assoc, String.append_assoc] at same
          exact absurd same (numberedApart unmistakable)
  | numbered _ _ =>
      cases otherNamed with
      | marked _ _ =>
          rw [String.append_assoc, String.append_assoc] at same
          exact absurd same.symm (mark_append_ne_untitled_append _ _)
      | plain _ unmistakable =>
          rw [String.append_assoc, String.append_assoc] at same
          exact absurd same.symm (numberedApart unmistakable)
      | numbered _ _ =>
          -- What stands around the numbers is the same for all groups.
          rw [String.append_left_inj, String.append_left_inj, String.append_right_inj] at same
          exact .inl (congrArg TableId.mk (toString_injective same))

/-- The title that a mark was put on and the title that it became lead to one name. -/
theorem exists_shared_name_of_marksTitle (marks : specification.MarksTitle) :
    ∃ id other name, id ≠ other ∧ specification.groupName id = .ok name ∧
      specification.groupName other = .ok name := by
  obtain ⟨title, member, mistakable, taken⟩ := marks
  obtain ⟨id, titled⟩ := mem_titles_iff.mp member
  obtain ⟨other, otherTitled⟩ := mem_titles_iff.mp taken
  have named := groupName_of_hasTitle titled
  have otherNamed := groupName_of_hasTitle otherTitled
  rw [if_pos mistakable] at named
  rw [startsWith_untitled_mark_append] at otherNamed
  refine ⟨id, other, "A_" ++ title, ?_, named, otherNamed⟩
  rintro rfl
  obtain ⟨group, present, given⟩ := titled
  obtain ⟨again, againPresent, againGiven⟩ := otherTitled
  cases present.symm.trans againPresent
  have equal := Option.some.inj (given.symm.trans againGiven)
  have marked := startsWith_untitled_mark_append title
  rw [← equal, mistakable] at marked
  cases marked

theorem groupName_injective_iff (distinct : specification.titles.Nodup) :
    (∀ id other name, specification.groupName id = .ok name →
      specification.groupName other = .ok name → id = other) ↔ ¬ specification.MarksTitle := by
  constructor
  · intro injective marks
    obtain ⟨id, other, name, different, named, otherNamed⟩ :=
      exists_shared_name_of_marksTitle marks
    exact different (injective id other name named otherNamed)
  · intro unmarked id other name named otherNamed
    have cases := (isNamed_of_groupName named).eq_or_marksTitle distinct
      (isNamed_of_groupName otherNamed) rfl
    exact cases.resolve_right unmarked

private theorem namesFile_of_result {configuration : Configuration} {id : GroupId}
    {file : GeneratedFile}
    (done : (specification.groupFile configuration id).result = .ok file) :
    specification.NamesFile id file := by
  obtain ⟨name, named, afterName⟩ := Attempt.result_bind_eq_ok_iff.mp done
  rw [Attempt.result_liftM] at named
  obtain ⟨_, _, afterLog⟩ := Attempt.result_bind_eq_ok_iff.mp afterName
  obtain ⟨_, _, afterContent⟩ := Attempt.result_bind_eq_ok_iff.mp afterLog
  obtain ⟨_, _, afterGroup⟩ := Attempt.result_bind_eq_ok_iff.mp afterContent
  obtain ⟨_, _, last⟩ := Attempt.result_bind_eq_ok_iff.mp afterGroup
  cases last
  exact ⟨name, named, rfl⟩

private theorem nodup_groupIds : specification.groupIds.Nodup := by
  apply List.Nodup.map _ List.nodup_range
  intro first second same
  exact congrArg TableId.index same

private theorem mem_groupIds_of_groupName {id : GroupId} {name : String}
    (named : specification.groupName id = .ok name) : id ∈ specification.groupIds := by
  obtain ⟨group, placed, _⟩ := bind_eq_ok_iff.mp named
  obtain ⟨inRange, _⟩ := Array.getElem?_eq_some_iff.mp (entryAt_eq_ok_iff.mp placed)
  exact List.mem_map.mpr ⟨id.index, List.mem_range.mpr inRange, rfl⟩

/-- Files named for groups differ in name as far as the groups do. -/
theorem nodup_names_iff {groupFiles : List GeneratedFile}
    (named : List.Forall₂ specification.NamesFile specification.groupIds groupFiles) :
    (groupFiles.map GeneratedFile.name).Nodup ↔
      ∀ id other name, specification.groupName id = .ok name →
        specification.groupName other = .ok name → id = other := by
  let fileName : GroupId → String :=
    fun id => (specification.groupName id).toOption.getD "" ++ ".csp"
  have names : groupFiles.map GeneratedFile.name = specification.groupIds.map fileName := by
    rw [eq_comm, ← List.forall₂_eq_eq_eq, List.forall₂_map_left_iff, List.forall₂_map_right_iff]
    apply named.imp
    rintro id file ⟨name, groupNamed, fileNamed⟩
    simp [fileName, groupNamed, fileNamed, Except.toOption]
  rw [names, List.nodup_map_iff_inj_on nodup_groupIds]
  constructor
  · intro injective id other name groupNamed otherNamed
    apply injective id (mem_groupIds_of_groupName groupNamed) other
      (mem_groupIds_of_groupName otherNamed)
    simp only [fileName, groupNamed, otherNamed]
  · intro injective id member other otherMember same
    obtain ⟨_, _, name, groupNamed, _⟩ := exists_right_of_mem named member
    obtain ⟨_, _, otherName, otherNamed, _⟩ := exists_right_of_mem named otherMember
    simp only [fileName, groupNamed, otherNamed, String.append_left_inj] at same
    cases same
    exact injective id other name groupNamed otherNamed

/-- If the titles of groups are distinct, then no two groups share a name, and no two
generated files of groups do, if and only if no title is what a title that had to be marked
becomes.  Numbered names never get in the way of titles or of each other. -/
theorem names_differ_iff_no_marked_title (distinct : specification.titles.Nodup) :
    ((∀ id other name, specification.groupName id = .ok name →
      specification.groupName other = .ok name → id = other) ↔ ¬ specification.MarksTitle) ∧
    ∀ configuration files, (specification.generate configuration).result = .ok files →
      ∃ groupFiles,
        files = ⟨configuration.libraryFile, libraryText configuration⟩ :: groupFiles ∧
        groupFiles.length = specification.groups.size ∧
        ((groupFiles.map GeneratedFile.name).Nodup ↔ ¬ specification.MarksTitle) := by
  refine ⟨groupName_injective_iff distinct, ?_⟩
  intro configuration files done
  obtain ⟨groupFiles, split, groupFilesDone⟩ := files_of_generate done
  have named : List.Forall₂ specification.NamesFile specification.groupIds groupFiles :=
    groupFilesDone.imp fun _ _ => namesFile_of_result
  refine ⟨groupFiles, split, ?_, ?_⟩
  · rw [← groupFilesDone.length_eq, groupIds, List.length_map, List.length_range]
  · rw [nodup_names_iff named, groupName_injective_iff distinct]

end Specification

/-- A title that looks like a number, one that looks like the mark of another, and two groups
without a title. -/
def assortedGroups : Specification where
  name := "Press"
  actors := #[]
  actorsByName := []
  vars := #[]
  constants := #[]
  groups := #[⟨some "Untitled_Group__1_Press", none, [], [], []⟩, ⟨none, none, [], [], []⟩,
    ⟨some "Press", none, [], [], []⟩, ⟨some "A_Press", none, [], [], []⟩,
    ⟨none, none, [], [], []⟩]
  interactions := #[]
  scripts := #[]

theorem names_differ_in_assortedGroups :
    assortedGroups.titles.Nodup ∧ ¬ assortedGroups.MarksTitle ∧
      (∀ id other name, assortedGroups.groupName id = .ok name →
        assortedGroups.groupName other = .ok name → id = other) ∧
      ∃ groupFiles, (assortedGroups.generate .standard).result =
          .ok (⟨"seqlib.csp", libraryText .standard⟩ :: groupFiles) ∧
        groupFiles.length = 5 ∧ (groupFiles.map GeneratedFile.name).Nodup := by
  have distinct : assortedGroups.titles.Nodup := by decide
  have free : ∀ title ∈ assortedGroups.titles,
      Specification.untitled.toList <+: title.toList →
        "A_" ++ title ∉ assortedGroups.titles := by
    decide
  have unmarked : ¬ assortedGroups.MarksTitle := by
    rintro ⟨title, member, mistakable, taken⟩
    exact free title member (String.startsWith_string_iff.mp mistakable) taken
  obtain ⟨injective, generated⟩ := Specification.names_differ_iff_no_marked_title distinct
  obtain ⟨files, done⟩ : ∃ files, (assortedGroups.generate .standard).result = .ok files :=
    ⟨_, rfl⟩
  obtain ⟨groupFiles, rfl, size, differ⟩ := generated .standard files done
  exact ⟨distinct, unmarked, injective.mpr unmarked, groupFiles, done, size,
    differ.mpr unmarked⟩

/-- The second title is what the first one becomes. -/
def markedGroups : Specification where
  name := "Press"
  actors := #[]
  actorsByName := []
  vars := #[]
  constants := #[]
  groups := #[⟨some "Untitled_Group__0", none, [], [], []⟩,
    ⟨some "A_Untitled_Group__0", none, [], [], []⟩]
  interactions := #[]
  scripts := #[]

theorem markedGroups_share_name :
    markedGroups.titles.Nodup ∧
      markedGroups.groupName ⟨0⟩ = .ok "A_Untitled_Group__0" ∧
      markedGroups.groupName ⟨1⟩ = .ok "A_Untitled_Group__0" ∧
      ∃ files, (markedGroups.generate .standard).result = .ok files ∧
        files.map GeneratedFile.name =
          ["seqlib.csp", "A_Untitled_Group__0.csp", "A_Untitled_Group__0.csp"] := by
  have first : markedGroups.groupName ⟨0⟩ = .ok "A_Untitled_Group__0" := by
    rw [Specification.groupName_of_hasTitle ⟨_, rfl, rfl⟩,
      if_pos (String.startsWith_string_iff.mpr (by decide))]
    rfl
  have second : markedGroups.groupName ⟨1⟩ = .ok "A_Untitled_Group__0" := by
    rw [Specification.groupName_of_hasTitle ⟨_, rfl, rfl⟩,
      if_neg (mt String.startsWith_string_iff.mp (by decide))]
  refine ⟨by decide, first, second, ?_⟩
  obtain ⟨files, done⟩ : ∃ files, (markedGroups.generate .standard).result = .ok files :=
    ⟨_, rfl⟩
  obtain ⟨groupFiles, rfl, groupFilesDone⟩ := Specification.files_of_generate done
  have groups : markedGroups.groupIds = [⟨0⟩, ⟨1⟩] := rfl
  rw [groups] at groupFilesDone
  obtain _ | ⟨firstDone, _ | ⟨secondDone, _ | _⟩⟩ := groupFilesDone
  obtain ⟨_, firstNamed, firstFile⟩ := Specification.namesFile_of_result firstDone
  obtain ⟨_, secondNamed, secondFile⟩ := Specification.namesFile_of_result secondDone
  cases first.symm.trans firstNamed
  cases second.symm.trans secondNamed
  refine ⟨_, done, ?_⟩
  rw [List.map_cons, List.map_cons, List.map_singleton, firstFile, secondFile]
  rfl

end SequenceChart
