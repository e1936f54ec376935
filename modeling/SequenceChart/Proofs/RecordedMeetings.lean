import SequenceChart.Proofs.Landmarks
import SequenceChart.Proofs.Walks

/-!
The meetings of an interaction are recorded on the walk through its body.  The
number of a fragment is its last place in the record, so different fragments
have different numbers, and all numbers are in the range that the channel is
declared with.

The process that runs until bodies has a branch for each place in the record of
until fragments.  If no fragment is recorded twice, the branch at a place is the
one of the fragment with that number.
-/

namespace SequenceChart

/-- The item stands at the position, and at none behind it. -/
structure IsLastAt {α : Type} (items : List α) (position : Nat) (item : α) : Prop where
  here : items[position]? = some item
  last : ∀ later, position < later → items[later]? ≠ some item

theorem IsLastAt.unique {α : Type} {items : List α} {one other : Nat} {item : α}
    (oneLast : IsLastAt items one item) (otherLast : IsLastAt items other item) :
    one = other := by
  rcases Nat.lt_trichotomy one other with before | same | behind
  · exact absurd otherLast.here (oneLast.last other before)
  · exact same
  · exact absurd oneLast.here (otherLast.last one behind)

theorem IsLastAt.lt_length {α : Type} {items : List α} {position : Nat} {item : α}
    (last : IsLastAt items position item) : position < items.length :=
  (List.getElem?_eq_some_iff.mp last.here).1

private theorem isLastAt_of_lastPosition {α : Type} [DecidableEq α] {items : List α}
    {position : Nat}
    {item : α} (found : lastPosition item items = some position) :
    IsLastAt items position item := by
  induction items generalizing position with
  | nil =>
      cases found
  | cons head rest inductionHypothesis =>
      rw [lastPosition] at found
      cases ofRest : lastPosition item rest with
      | some place =>
          rw [ofRest] at found
          cases found
          obtain ⟨here, last⟩ := inductionHypothesis ofRest
          refine ⟨here, fun later behind => ?_⟩
          obtain ⟨earlier, rfl⟩ : ∃ earlier, later = earlier + 1 := ⟨later - 1, by omega⟩
          exact last earlier (by omega)
      | none =>
          by_cases same : head = item
          · rw [ofRest, if_pos same] at found
            cases found
            refine ⟨congrArg some same, fun later behind laterHere => ?_⟩
            obtain ⟨earlier, rfl⟩ : ∃ earlier, later = earlier + 1 := ⟨later - 1, by omega⟩
            have inRest : rest[earlier]? = some item := laterHere
            obtain ⟨place, known⟩ := exists_lastPosition (List.mem_of_getElem? inRest)
            rw [ofRest] at known
            cases known
          · rw [ofRest, if_neg same] at found
            cases found

theorem lastPosition_eq_some_iff {α : Type} [DecidableEq α] {items : List α} {position : Nat}
    {item : α} : lastPosition item items = some position ↔ IsLastAt items position item := by
  constructor
  · exact isLastAt_of_lastPosition
  · intro last
    obtain ⟨place, found⟩ := exists_lastPosition (List.mem_of_getElem? last.here)
    rw [found, (isLastAt_of_lastPosition found).unique last]

/-- Without repetitions, every place is a last one. -/
theorem isLastAt_of_nodup {α : Type} {items : List α} {position : Nat} {item : α}
    (distinct : items.Nodup) (here : items[position]? = some item) :
    IsLastAt items position item := by
  refine ⟨here, fun later behind laterHere => ?_⟩
  obtain ⟨inside, isItem⟩ := List.getElem?_eq_some_iff.mp here
  obtain ⟨laterInside, isItemToo⟩ := List.getElem?_eq_some_iff.mp laterHere
  have same := (distinct.getElem_inj_iff).mp (isItem.trans isItemToo.symm)
  omega

private theorem size_numberFrom (number : Nat) (recorded : List FragmentId)
    (table : Array (Option Nat)) : (numberFrom number recorded table).size = table.size := by
  induction recorded generalizing number table with
  | nil =>
      rfl
  | cons fragment rest inductionHypothesis =>
      rw [numberFrom, inductionHypothesis, Array.size_setIfInBounds]

namespace Synchronisation

variable {synchronisation : Synchronisation}

/-- The number of a fragment is its last place in the record, if that holds places of the
table only. -/
theorem numberOf_eq_ok_iff_isLastAt
    (inTable : ∀ place ∈ synchronisation.fragments, place.index < synchronisation.tableSize)
    {place : FragmentId} {number : Nat} :
    synchronisation.numberOf place = .ok number ↔
      IsLastAt synchronisation.fragments number place := by
  by_cases inside : place.index < synchronisation.tableSize
  · rw [numberOf_eq_ok_iff inside, lastPosition_eq_some_iff]
  · refine iff_of_false ?_ ?_
    · have size : synchronisation.numbers.size = synchronisation.tableSize := by
        rw [numbers_eq, numbering, size_numberFrom, Array.size_replicate]
      rw [numberOf, Array.getElem?_eq_none (by omega)]
      simp
    · intro last
      exact inside (inTable place (List.mem_of_getElem? last.here))

variable (synchronisation) in
/-- The fragments are numbered by their last places in the record, and the channel is
declared for all numbers. -/
structure IsNumbered : Prop where
  number_iff : ∀ place number, synchronisation.numberOf place = .ok number ↔
    IsLastAt synchronisation.fragments number place
  exists_number : ∀ place ∈ synchronisation.fragments,
    ∃ number, synchronisation.numberOf place = .ok number
  injective : ∀ one other number, synchronisation.numberOf one = .ok number →
    synchronisation.numberOf other = .ok number → one = other
  declared : synchronisation.isRequired = true →
    ∃ last, synchronisation.declaration = .ok (some (.channels [synchronisation.kind.channel]
        (some ("\x7b0.." ++ toString last ++ "\x7d.SyncDir")))) ∧
      ∀ place number, synchronisation.numberOf place = .ok number → number ≤ last
  undeclared : synchronisation.isRequired = false → synchronisation.declaration = .ok none

private theorem isNumbered_of_inTable
    (inTable : ∀ place ∈ synchronisation.fragments, place.index < synchronisation.tableSize) :
    synchronisation.IsNumbered where
  number_iff := fun _ _ => numberOf_eq_ok_iff_isLastAt inTable
  exists_number := by
    intro place recorded
    obtain ⟨number, found⟩ := exists_lastPosition recorded
    exact ⟨number, (numberOf_eq_ok_iff (inTable place recorded)).mpr found⟩
  injective := by
    intro one other number oneNumbered otherNumbered
    rw [numberOf_eq_ok_iff_isLastAt inTable] at oneNumbered otherNumbered
    exact Option.some.inj (oneNumbered.here.symm.trans otherNumbered.here)
  declared := by
    intro required
    have recorded : synchronisation.fragments ≠ [] := by
      intro none
      simp [isRequired, none] at required
    obtain ⟨last, length⟩ := Nat.exists_eq_succ_of_ne_zero
      (Nat.ne_of_gt (List.length_pos_iff.mpr recorded))
    refine ⟨last, ?_, ?_⟩
    · rw [declaration, if_pos required, length]
      rfl
    · intro place number numbered
      have inRange := ((numberOf_eq_ok_iff_isLastAt inTable).mp numbered).lt_length
      omega
  undeclared := by
    intro unneeded
    rw [declaration, unneeded]
    rfl

end Synchronisation

namespace Setting

variable {setting : Setting}

/-- One round of the until process: a fragment is entered and run, and then left. -/
def untilRound (internal : List String) (number : Nat) (intra : MessageSet)
    (inner : Option Behaviour) : Behaviour :=
  .grouped (.andThen
    (.perform (.handshake .until number .enter)
      ((untilHeader intra internal).around (inner.getD .skip)))
    (.perform (.handshake .until number .leave) (.named untilProcessName)))

private theorem result_untilBranch {internal : List String} {place : FragmentId}
    {branch : Behaviour}
    (done : (setting.untilBranch internal place).result = .ok branch) :
    ∃ intra body inner number,
      setting.interaction.fragments[place.index]? = some (.until intra body) ∧
      ((setting.interaction.fragment body).project setting .until).result = .ok inner ∧
      setting.untils.numberOf place = .ok number ∧
      branch = untilRound internal number intra inner := by
  obtain ⟨intra, body, inner, enter, leave, present, innerDone, entered, left, rfl⟩ :=
    exists_of_untilBranch done
  obtain ⟨number, numbered, isEnter⟩ := bind_eq_ok_iff.mp entered
  obtain ⟨again, numberedAgain, isLeave⟩ := bind_eq_ok_iff.mp left
  cases numbered.symm.trans numberedAgain
  have kind : setting.untils.kind = .until := by
    rw [setting.untils_eq]
    rfl
  rw [kind, pure_eq_ok_iff] at isEnter isLeave
  refine ⟨intra, body, inner, number, present, innerDone, numbered, ?_⟩
  rw [← isEnter, ← isLeave]
  rfl

variable (setting) in
/-- The declaration is the process that first offers to finish, and then a round for each
recorded until fragment, numbered by its place in the record. -/
def RunsUntils (declared : Option Declaration) : Prop :=
  ∃ internal branches, setting.internalChannels = .ok internal ∧
    declared = some (.process untilProcessName
      (.joinAll .externalChoice (.perform (.signal finish) .skip) branches)) ∧
    branches.length = setting.untils.fragments.length ∧
    ∀ number place, setting.untils.fragments[number]? = some place →
      ∃ intra body inner,
        setting.interaction.fragments[place.index]? = some (.until intra body) ∧
        ((setting.interaction.fragment body).project setting .until).result = .ok inner ∧
        branches[number]? = some (untilRound internal number intra inner)

/-- A process for until fragments that are recorded once runs them in their order. -/
theorem runsUntils_of_result {declared : Option Declaration}
    (numbered : setting.untils.IsNumbered) (required : setting.untils.isRequired = true)
    (distinct : setting.untils.fragments.Nodup)
    (done : setting.untilProcess.result = .ok declared) : setting.RunsUntils declared := by
  rw [untilProcess, if_pos required] at done
  obtain ⟨internal, internalDone, rest⟩ := Attempt.result_bind_eq_ok_iff.mp done
  obtain ⟨branches, branchesDone, last⟩ := Attempt.result_bind_eq_ok_iff.mp rest
  cases last
  rw [Attempt.result_mapM, mapM_eq_ok_iff] at branchesDone
  refine ⟨internal, branches, internalDone, rfl, branchesDone.length_eq.symm, ?_⟩
  intro number place here
  obtain ⟨inRecord, isPlace⟩ := List.getElem?_eq_some_iff.mp here
  have inBranches : number < branches.length := branchesDone.length_eq ▸ inRecord
  have branchDone := branchesDone.get inRecord inBranches
  rw [List.get_eq_getElem, List.get_eq_getElem, isPlace] at branchDone
  obtain ⟨intra, body, inner, found, present, innerDone, foundNumber, isRound⟩ :=
    result_untilBranch branchDone
  have same : found = number :=
    ((numbered.number_iff place found).mp foundNumber).unique (isLastAt_of_nodup distinct here)
  refine ⟨intra, body, inner, present, innerDone, ?_⟩
  rw [List.getElem?_eq_getElem inBranches, isRound, same]

end Setting

namespace Specification

/-- The until and par fragments on the walk are recorded in its order and numbered, and
the until process runs what is recorded. -/
theorem meetings_are_recorded_on_walk {specification : Specification} {id : InteractionId}
    {setting : Setting} (found : specification.setting id = .ok setting) :
    ∃ places,
      setting.interaction.toDiagram.Walk setting.interaction.body places ∧
      (∀ place, place ∈ places ↔ setting.interaction.toDiagram.Visited false place) ∧
      (∀ kind,
        (setting.synchronisation kind).fragments = places.filter (fun place =>
          setting.interaction.meetingKindAt place = some kind) ∧
        (setting.synchronisation kind).IsNumbered) ∧
      (setting.untils.fragments.Nodup → 2 ≤ setting.lifelines.length →
        setting.untils.fragments ≠ [] →
        (∀ declared, setting.untilProcess.result = .ok declared → setting.RunsUntils declared) ∧
        (setting.interaction.toDiagram.WellFormed specification → specification.OwnersKnown →
          ∃ declared, setting.untilProcess.result = .ok declared)) := by
  obtain ⟨interaction, meetings, placed, searched, rfl⟩ := setting_eq_ok_iff.mp found
  obtain ⟨places, walk, listed, _⟩ :=
    @Setting.exists_walk { specification, id, interaction, meetings } searched
  have numbered : ∀ kind, (Setting.synchronisation
      { specification, id, interaction, meetings } kind).IsNumbered := by
    intro kind
    apply Synchronisation.isNumbered_of_inTable
    intro place recorded
    rw [Setting.fragments_eq_filter listed, List.mem_filter] at recorded
    rw [Setting.synchronisation_eq]
    exact walk.lt_size recorded.1
  refine ⟨places, walk, fun _ => walk.mem_iff_visited, ?_, ?_⟩
  · intro kind
    exact ⟨Setting.fragments_eq_filter listed kind, numbered kind⟩
  · intro distinct several recorded
    constructor
    · intro declared done
      refine Setting.runsUntils_of_result (numbered .until) ?_ distinct done
      exact Bool.and_eq_true_iff.mpr ⟨decide_eq_true several, by simpa using recorded⟩
    · intro wellFormed ownersKnown
      have sound : Setting.Sound { specification, id, interaction, meetings } :=
        ⟨placed, wellFormed, ownersKnown, searched⟩
      obtain ⟨declared, done, _⟩ :=
        (sound.succeeds_untilProcess (Setting.admits_all _)).exists_result
      exact ⟨declared, done⟩

end Specification

/-- Two until fragments that lifelines come to, the second one in a par fragment that
is repeated, and one in the body of the first. -/
def vigil : Interaction where
  name := "Vigil"
  body := [⟨4⟩, ⟨9⟩]
  lifelines := [⟨0⟩, ⟨1⟩]
  locals := []
  fragments := #[.message ⟨⟨0⟩, ⟨1⟩, .event "call", []⟩, .operand none [⟨0⟩],
    .until .empty ⟨1⟩, .operand none [⟨2⟩], .until .every ⟨3⟩,
    .message ⟨⟨1⟩, ⟨0⟩, .event "answer", []⟩, .until (.topics [.event "call"]) ⟨5⟩,
    .operand none [⟨6⟩], .par [⟨7⟩], .loop none ⟨8⟩]
  expressions := #[]
  locations := []
  group := ⟨0⟩

def vigilSpecification : Specification :=
  { Specification.empty "Vigils" with
    actors := #[⟨"A", .component⟩, ⟨"B", .component⟩]
    actorsByName := [("B", ⟨1⟩), ("A", ⟨0⟩)]
    interactions := #[vigil] }

def vigilSetting : Setting where
  specification := vigilSpecification
  id := ⟨0⟩
  interaction := vigil
  meetings := [⟨.until, ⟨4⟩⟩, ⟨.par, ⟨8⟩⟩, ⟨.until, ⟨6⟩⟩]

private theorem wellFormed_vigil : vigil.toDiagram.WellFormed vigilSpecification :=
  Diagram.Closed.wellFormed (by decide) (by decide)

/-- The until process of the vigil has two rounds.  In the first one it runs the inner
until fragment, which has no number. -/
theorem meetings_are_recorded_on_walk_vigil :
    vigilSpecification.setting ⟨0⟩ = .ok vigilSetting ∧
      vigilSetting.untils.fragments = [⟨4⟩, ⟨6⟩] ∧ vigilSetting.untils.IsNumbered ∧
      vigilSetting.pars.fragments = [⟨8⟩] ∧ vigilSetting.pars.IsNumbered ∧
      (∃ declared, vigilSetting.untilProcess.result = .ok declared ∧
        vigilSetting.RunsUntils declared) ∧
      vigilSetting.untilProcess.result.map (Option.map Declaration.text) =
        .ok (some ("UntilSync = finish -> SKIP " ++
          "[] (until.0.enter -> " ++
          "AnyUntil(diff(Events, \x7b| tock, finish, terminate, until, par |\x7d))" ++
          "(AnyUntil(\x7b\x7d)(Idle(call.out -> SKIP))); until.0.leave -> UntilSync) " ++
          "[] (until.1.enter -> AnyUntil(\x7b| call |\x7d)(Idle(answer.out -> SKIP)); " ++
          "until.1.leave -> UntilSync)")) := by
  have found : vigilSpecification.setting ⟨0⟩ = .ok vigilSetting := rfl
  obtain ⟨places, _, _, numbered, run⟩ := Specification.meetings_are_recorded_on_walk found
  obtain ⟨runs, written⟩ := run (by decide) (by decide) (by decide)
  obtain ⟨declared, done⟩ := written wellFormed_vigil (by decide)
  exact ⟨found, rfl, (numbered .until).2, rfl, (numbered .par).2,
    ⟨declared, done, runs declared done⟩, by decide +kernel⟩

end SequenceChart
