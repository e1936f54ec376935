import SequenceChart.Memory
import SequenceChart.Proofs.UniqueReading

/-!
# The behaviour of stores

A store is printed as a recursive process.  Its parameters are the names of the variables,
and each branch calls it again with a list of names.  Names are read by scope: the parameters
stand for the current values, and the name that a value arrives under stands for this value
and hides a parameter of the same name.

So a store does what its variables ask for if and only if no variable has the name under
which the new value of another one arrives.  Then all of its runs are those of variables that
are read and written.
-/

namespace SequenceChart

/-- An alternative of a recursive process: a value is sent or received on a channel, and the
process goes on with arguments. -/
@[ext]
structure Alternative where
  channel : String
  /-- Whether a value is received. -/
  receives : Bool
  /-- The name whose value is sent, or that stands for the value that is received. -/
  subject : String
  arguments : List String
  deriving DecidableEq, Repr

def Alternative.text (alternative : Alternative) : String :=
  alternative.channel ++ (if alternative.receives then "?" else "!") ++ alternative.subject ++
    " -> " ++ Store.call alternative.arguments

/-- A value that goes over a channel. -/
structure Exchange (Value : Type) where
  channel : String
  value : Value

/-- One step by an alternative in the scope of the parameters of the process.  Of several
bindings of a name the first one counts, so what is received hides a parameter of the same
name. -/
inductive Alternative.Takes {Value : Type} (scope : List (String × Value)) :
    Alternative → Exchange Value → List Value → Prop
  | sends {channel subject : String} {arguments : List String} {value : Value}
      {next : List Value} :
      scope.lookup subject = some value →
      arguments.mapM (fun argument => scope.lookup argument) = some next →
      Takes scope ⟨channel, false, subject, arguments⟩ ⟨channel, value⟩ next
  | receives {channel subject : String} {arguments : List String} {next : List Value}
      (value : Value) :
      arguments.mapM (fun argument => List.lookup argument ((subject, value) :: scope)) =
        some next →
      Takes scope ⟨channel, true, subject, arguments⟩ ⟨channel, value⟩ next

def StoreBranch.alternative (branch : StoreBranch) : Alternative :=
  match branch.access with
  | .offer name => ⟨getChannel name, false, name, branch.arguments⟩
  | .accept name binder => ⟨setChannel name, true, binder, branch.arguments⟩

namespace Store

/-- The steps of a store between values of its parameters. -/
def Step (store : Store) {Value : Type} (values : List Value) (exchange : Exchange Value)
    (next : List Value) : Prop :=
  ∃ branch ∈ store.branches,
    branch.alternative.Takes (store.parameters.zip values) exchange next

/-- What is done to variables: one is read, or gets a new value. -/
inductive Accesses (names : List String) {Value : Type} :
    (String → Value) → Exchange Value → (String → Value) → Prop
  | get {name : String} (assigned : String → Value) :
      name ∈ names → Accesses names assigned ⟨getChannel name, assigned name⟩ assigned
  | set {name : String} (assigned : String → Value) (value : Value) :
      name ∈ names →
      Accesses names assigned ⟨setChannel name, value⟩ (Function.update assigned name value)

/-- Whatever the values of the variables are, the steps of the store are the accesses to
them. -/
def IsFaithful (store : Store) : Prop :=
  ∀ (Value : Type) (assigned : String → Value) (exchange : Exchange Value) (next : List Value),
    store.Step (store.parameters.map assigned) exchange next ↔
      ∃ later, Accesses store.parameters assigned exchange later ∧
        next = store.parameters.map later

/-- No variable has the name under which a new value of another one arrives. -/
def NothingHidden (store : Store) : Prop :=
  ∀ name ∈ store.parameters, arrival name ∉ store.parameters

instance (store : Store) : Decidable store.NothingHidden :=
  List.decidableBAll (fun name => arrival name ∉ store.parameters) store.parameters

theorem mem_branchesFrom_iff {parameters names : List String} {start : Nat}
    {branch : StoreBranch} :
    branch ∈ branchesFrom parameters start names ↔
      ∃ position name, names[position]? = some name ∧
        branch ∈ branchesAt parameters (start + position) name := by
  induction names generalizing start with
  | nil =>
      simp [branchesFrom]
  | cons first rest inductionHypothesis =>
      rw [branchesFrom, List.mem_append, inductionHypothesis]
      constructor
      · rintro (here | ⟨position, name, found, later⟩)
        · exact ⟨0, first, rfl, here⟩
        · exact ⟨position + 1, name, found, by rwa [← Nat.add_right_comm, Nat.add_assoc] at later⟩
      · rintro ⟨position, name, found, isBranch⟩
        cases position with
        | zero =>
            cases found
            exact .inl isBranch
        | succ position =>
            refine .inr ⟨position, name, found, ?_⟩
            rwa [Nat.add_right_comm, Nat.add_assoc]

/-- The branches of a store: for each variable one that offers and one that accepts. -/
theorem mem_branches_iff {store : Store} {branch : StoreBranch} :
    branch ∈ store.branches ↔ ∃ position name, store.parameters[position]? = some name ∧
      (branch = ⟨.offer name, store.parameters⟩ ∨
        branch = ⟨.accept name (arrival name),
          store.parameters.set position (arrival name)⟩) := by
  rw [branches, mem_branchesFrom_iff]
  simp [branchesAt]

variable {Value : Type}

private theorem lookup_zip_map {parameters : List String} (assigned : String → Value)
    {name : String}
    (member : name ∈ parameters) :
    (parameters.zip (parameters.map assigned)).lookup name = some (assigned name) := by
  induction parameters with
  | nil =>
      cases member
  | cons first rest inductionHypothesis =>
      rw [List.map_cons, List.zip_cons_cons, List.lookup_cons]
      by_cases same : name = first
      · simp [same]
      · rw [beq_false_of_ne same]
        exact inductionHypothesis (List.mem_of_ne_of_mem same member)

private theorem mapM_eq_some_map {arguments : List String} {find : String → Option Value}
    {read : String → Value} (each : ∀ argument ∈ arguments, find argument = some (read argument)) :
    arguments.mapM find = some (arguments.map read) := by
  induction arguments with
  | nil =>
      rfl
  | cons argument rest inductionHypothesis =>
      rw [List.forall_mem_cons] at each
      rw [List.mapM_cons, each.1, inductionHypothesis each.2]
      rfl

/-- The values of the parameters after a branch that changes none. -/
theorem mapM_lookup_parameters (parameters : List String) (assigned : String → Value) :
    parameters.mapM (fun argument =>
      (parameters.zip (parameters.map assigned)).lookup argument) =
        some (parameters.map assigned) :=
  mapM_eq_some_map fun _ member => lookup_zip_map assigned member

/-- A name in one place of a list stands for the value of a variable that is there only. -/
theorem map_update_set {parameters : List String} (distinct : parameters.Nodup)
    {assigned : String → Value} {position : Nat} {name binder : String} {value : Value}
    (found : parameters[position]? = some name) :
    (parameters.set position binder).map (Function.update assigned binder value) =
      parameters.map (Function.update (Function.update assigned name value) binder value) := by
  apply List.ext_getElem?
  intro place
  rw [List.map_set, List.getElem?_set, Function.update_self, List.getElem?_map, List.getElem?_map]
  obtain ⟨inside, _⟩ := List.getElem?_eq_some_iff.mp found
  by_cases here : position = place
  · subst here
    rw [if_pos rfl, List.length_map, if_pos inside, found, Option.map_some]
    by_cases same : name = binder <;> simp [same]
  · rw [if_neg here]
    cases there : parameters[place]? with
    | none =>
        rfl
    | some other =>
        have differs : other ≠ name := by
          rintro rfl
          exact here ((List.getElem?_inj inside distinct).mp (found.trans there.symm))
        by_cases same : other = binder <;> simp [same, differs]

/-- The values of the parameters after a branch that accepts one.  The name it arrives under
may be that of another parameter, which then gets the value, too. -/
theorem mapM_lookup_set {parameters : List String} (distinct : parameters.Nodup)
    (assigned : String → Value) {position : Nat} {name : String}
    (found : parameters[position]? = some name) (binder : String) (value : Value) :
    (parameters.set position binder).mapM (fun argument =>
      List.lookup argument ((binder, value) :: parameters.zip (parameters.map assigned))) =
        some (parameters.map
          (Function.update (Function.update assigned name value) binder value)) := by
  have each : ∀ argument ∈ parameters.set position binder,
      List.lookup argument ((binder, value) :: parameters.zip (parameters.map assigned)) =
        some (Function.update assigned binder value argument) := by
    intro argument member
    rw [List.lookup_cons]
    by_cases same : argument = binder
    · simp [same]
    · rw [beq_false_of_ne same, Function.update_of_ne same]
      rcases List.mem_or_eq_of_mem_set member with isParameter | isBinder
      · exact lookup_zip_map assigned isParameter
      · exact absurd isBinder same
  rw [mapM_eq_some_map each, map_update_set distinct found]

/-- One step of a store, for each way in which the surroundings may use it. -/
theorem step_iff {store : Store} (distinct : store.parameters.Nodup) (assigned : String → Value)
    {exchange : Exchange Value} {next : List Value} :
    store.Step (store.parameters.map assigned) exchange next ↔
      ∃ name ∈ store.parameters,
        (exchange = ⟨getChannel name, assigned name⟩ ∧ next = store.parameters.map assigned) ∨
        ∃ value, exchange = ⟨setChannel name, value⟩ ∧
          next = store.parameters.map
            (Function.update (Function.update assigned name value) (arrival name) value) := by
  constructor
  · rintro ⟨branch, member, takes⟩
    obtain ⟨position, name, found, rfl | rfl⟩ := mem_branches_iff.mp member
    · have isParameter := List.mem_of_getElem? found
      refine ⟨name, isParameter, .inl ?_⟩
      cases takes with
      | sends current called =>
          rw [lookup_zip_map assigned isParameter] at current
          rw [mapM_lookup_parameters] at called
          cases current
          cases called
          exact ⟨rfl, rfl⟩
    · refine ⟨name, List.mem_of_getElem? found, .inr ?_⟩
      cases takes with
      | receives value called =>
          rw [mapM_lookup_set distinct assigned found] at called
          cases called
          exact ⟨value, rfl, rfl⟩
  · rintro ⟨name, isParameter, ⟨rfl, rfl⟩ | ⟨value, rfl, rfl⟩⟩
    · obtain ⟨position, found⟩ := List.mem_iff_getElem?.mp isParameter
      refine ⟨_, mem_branches_iff.mpr ⟨position, name, found, .inl rfl⟩, ?_⟩
      exact .sends (lookup_zip_map assigned isParameter)
        (mapM_lookup_parameters store.parameters assigned)
    · obtain ⟨position, found⟩ := List.mem_iff_getElem?.mp isParameter
      refine ⟨_, mem_branches_iff.mpr ⟨position, name, found, .inr rfl⟩, ?_⟩
      exact .receives value (mapM_lookup_set distinct assigned found (arrival name) value)

private theorem arrival_ne (name : String) : arrival name ≠ name := by
  intro same
  have lengths := congrArg String.length same
  simp [arrival] at lengths

private theorem getChannel_ne_setChannel (name other : String) :
    getChannel name ≠ setChannel other := by
  intro same
  have characters := congrArg String.toList same
  simp [getChannel, setChannel] at characters

private theorem setChannel_injective {name other : String}
    (same : setChannel name = setChannel other) :
    name = other := by
  simpa [setChannel] using same

/-- A hidden parameter gets a value that is meant for another one. -/
theorem not_isFaithful {store : Store} (distinct : store.parameters.Nodup) {name : String}
    (isParameter : name ∈ store.parameters) (hidden : arrival name ∈ store.parameters) :
    ¬ store.IsFaithful := by
  intro faithful
  let assigned : String → Bool := fun _ => false
  have steps : store.Step (store.parameters.map assigned) ⟨setChannel name, true⟩
      (store.parameters.map
        (Function.update (Function.update assigned name true) (arrival name) true)) :=
    (step_iff distinct assigned).mpr ⟨name, isParameter, .inr ⟨true, rfl, rfl⟩⟩
  obtain ⟨later, accesses, same⟩ := (faithful Bool assigned _ _).mp steps
  have there := List.map_inj_left.mp same (arrival name) hidden
  rw [Function.update_self] at there
  -- Only a write to the same variable goes over this channel, and it leaves the other one.
  generalize exchanged : (⟨setChannel name, true⟩ : Exchange Bool) = exchange at accesses
  cases accesses with
  | get =>
      exact getChannel_ne_setChannel _ _ (congrArg Exchange.channel exchanged).symm
  | set =>
      have sameName := setChannel_injective (congrArg Exchange.channel exchanged)
      subst sameName
      rw [Function.update_of_ne (arrival_ne name)] at there
      cases there

/-- If nothing is hidden, a value that arrives changes no further parameter. -/
theorem NothingHidden.map_update {store : Store} (nothingHidden : store.NothingHidden)
    {name : String} (isParameter : name ∈ store.parameters) (assigned : String → Value)
    (value : Value) :
    store.parameters.map
        (Function.update (Function.update assigned name value) (arrival name) value) =
      store.parameters.map (Function.update assigned name value) := by
  apply List.map_congr_left
  intro other otherIsParameter
  apply Function.update_of_ne
  rintro rfl
  exact nothingHidden name isParameter otherIsParameter

/-- A store is faithful if and only if no value arrives under the name of a variable. -/
theorem isFaithful_iff {store : Store} (distinct : store.parameters.Nodup) :
    store.IsFaithful ↔ store.NothingHidden := by
  constructor
  · intro faithful name isParameter hidden
    exact not_isFaithful distinct isParameter hidden faithful
  · intro nothingHidden Value assigned exchange next
    rw [step_iff distinct]
    constructor
    · rintro ⟨name, isParameter, ⟨rfl, rfl⟩ | ⟨value, rfl, rfl⟩⟩
      · exact ⟨assigned, .get assigned isParameter, rfl⟩
      · exact ⟨_, .set assigned value isParameter,
          nothingHidden.map_update isParameter assigned value⟩
    · rintro ⟨later, accesses, rfl⟩
      cases accesses with
      | get _ isParameter =>
          exact ⟨_, isParameter, .inl ⟨rfl, rfl⟩⟩
      | set _ value isParameter =>
          have same := nothingHidden.map_update isParameter assigned value
          exact ⟨_, isParameter, .inr ⟨value, rfl, same.symm⟩⟩

/-- Steps one after the other, with what is exchanged on the way. -/
inductive Runs {State Label : Type} (step : State → Label → State → Prop) :
    State → List Label → State → Prop
  | refl (state : State) : Runs step state [] state
  | cons {state next final : State} {label : Label} {labels : List Label} :
      step state label next → Runs step next labels final →
      Runs step state (label :: labels) final

/-- The runs of a faithful store are those of its variables. -/
theorem IsFaithful.runs_iff {store : Store} (faithful : store.IsFaithful)
    (assigned : String → Value) {exchanges : List (Exchange Value)} {next : List Value} :
    Runs store.Step (store.parameters.map assigned) exchanges next ↔
      ∃ later, Runs (Accesses store.parameters) assigned exchanges later ∧
        next = store.parameters.map later := by
  induction exchanges generalizing assigned with
  | nil =>
      constructor
      · rintro ⟨⟩
        exact ⟨assigned, .refl assigned, rfl⟩
      · rintro ⟨later, ⟨⟩, rfl⟩
        exact .refl _
  | cons exchange rest inductionHypothesis =>
      constructor
      · intro run
        cases run with
        | cons step after =>
            obtain ⟨middle, accesses, rfl⟩ := (faithful Value assigned _ _).mp step
            obtain ⟨later, others, same⟩ := (inductionHypothesis middle).mp after
            exact ⟨later, .cons accesses others, same⟩
      · rintro ⟨later, run, rfl⟩
        cases run with
        | cons accesses others =>
            exact .cons ((faithful Value assigned _ _).mpr ⟨_, accesses, rfl⟩)
              ((inductionHypothesis _).mpr ⟨later, others, rfl⟩)

end Store

/-- What follows the first of several words with commas between them. -/
def behindFirst : List String → List Char
  | [] => []
  | next :: others => ',' :: ' ' :: (commaSeparated (next :: others)).toList

private theorem toList_commaSeparated (word : String) (rest : List String) :
    (commaSeparated (word :: rest)).toList = word.toList ++ behindFirst rest := by
  cases rest with
  | nil =>
      exact (List.append_nil word.toList).symm
  | cons next others =>
      rw [commaSeparated, joinWith_cons_cons]
      simp [behindFirst, commaSeparated]

private theorem isWordCharacter_behindFirst (rest : List String) :
    ∀ character ∈ (behindFirst rest).head?, isWordCharacter character = false := by
  cases rest with
  | nil =>
      simp [behindFirst]
  | cons next others =>
      rintro character ⟨⟩
      decide

/-- Words with commas between them can be told apart. -/
theorem words_eq_of_behindFirst_eq {first second : List String}
    (firstWords : ∀ word ∈ first, ConsistsOf isWordCharacter word)
    (secondWords : ∀ word ∈ second, ConsistsOf isWordCharacter word)
    (same : behindFirst first = behindFirst second) : first = second := by
  induction first generalizing second with
  | nil =>
      cases second with
      | nil =>
          rfl
      | cons other others =>
          cases same
  | cons word rest inductionHypothesis =>
      cases second with
      | nil =>
          cases same
      | cons other others =>
          rw [List.forall_mem_cons] at firstWords secondWords
          simp only [behindFirst, List.cons.injEq, true_and] at same
          rw [toList_commaSeparated, toList_commaSeparated] at same
          obtain ⟨words, rests⟩ := eq_and_eq_of_append_eq firstWords.1 secondWords.1
            (isWordCharacter_behindFirst rest) (isWordCharacter_behindFirst others) same
          rw [String.toList_inj.mp words, inductionHypothesis firstWords.2 secondWords.2 rests]

namespace Alternative

/-- All names in the alternative are words. -/
structure HasWords (alternative : Alternative) : Prop where
  channel : ConsistsOf isWordCharacter alternative.channel
  subject : ConsistsOf isWordCharacter alternative.subject
  arguments : ∀ argument ∈ alternative.arguments, ConsistsOf isWordCharacter argument

private theorem call_ne_nil_call (word : String) (rest : List String) :
    Store.call [] ≠ Store.call (word :: rest) := by
  intro same
  have characters := congrArg String.toList same
  simp [Store.call, application] at characters

private theorem call_injective {first second : List String}
    (firstWords : ∀ word ∈ first, ConsistsOf isWordCharacter word)
    (secondWords : ∀ word ∈ second, ConsistsOf isWordCharacter word)
    (same : Store.call first = Store.call second) : first = second := by
  cases first with
  | nil =>
      cases second with
      | nil =>
          rfl
      | cons other others =>
          exact absurd same (call_ne_nil_call other others)
  | cons word rest =>
      cases second with
      | nil =>
          exact absurd same.symm (call_ne_nil_call word rest)
      | cons other others =>
          have inside : commaSeparated (word :: rest) = commaSeparated (other :: others) := by
            simpa [Store.call, application] using same
          apply words_eq_of_behindFirst_eq firstWords secondWords
          rw [behindFirst, behindFirst, inside]

private theorem toList_text (alternative : Alternative) :
    alternative.text.toList = alternative.channel.toList ++
      (if alternative.receives then '?' else '!') ::
        (alternative.subject.toList ++
          ' ' :: ("-> " ++ Store.call alternative.arguments).toList) := by
  rw [text]
  cases alternative.receives <;> simp

/-- An alternative over words is read from its text in one way. -/
theorem eq_of_text_eq {alternative other : Alternative} (words : alternative.HasWords)
    (otherWords : other.HasWords) (same : alternative.text = other.text) :
    alternative = other := by
  have characters := congrArg String.toList same
  rw [toList_text, toList_text] at characters
  have marked : ∀ receives : Bool, ∀ rest : List Char,
      ∀ character ∈ ((if receives then '?' else '!') :: rest).head?,
        isWordCharacter character = false := by
    rintro receives rest character ⟨⟩
    cases receives <;> decide
  have blank : ∀ rest : List Char, ∀ character ∈ (' ' :: rest).head?,
      isWordCharacter character = false := by
    rintro rest character ⟨⟩
    decide
  obtain ⟨channels, behindChannels⟩ := eq_and_eq_of_append_eq words.channel otherWords.channel
    (marked _ _) (marked _ _) characters
  obtain ⟨subjects, behindSubjects⟩ := eq_and_eq_of_append_eq words.subject otherWords.subject
    (blank _) (blank _) (List.tail_eq_of_cons_eq behindChannels)
  have calls : Store.call alternative.arguments = Store.call other.arguments := by
    simpa [String.toList_inj] using behindSubjects
  have marks : alternative.receives = other.receives := by
    have same := List.head_eq_of_cons_eq behindChannels
    revert same
    cases alternative.receives <;> cases other.receives <;> decide
  exact Alternative.ext (String.toList_inj.mp channels) marks (String.toList_inj.mp subjects)
    (call_injective words.arguments otherWords.arguments calls)

end Alternative

/-! ## Memories -/

namespace Store

variable {Value : Type}

/-- The steps that are read from the printed branches of a store. -/
def PrintedStep (store : Store) (values : List Value) (exchange : Exchange Value)
    (next : List Value) : Prop :=
  ∃ text ∈ store.branches.map branchText, ∃ alternative : Alternative,
    alternative.HasWords ∧ alternative.text = text ∧
      alternative.Takes (store.parameters.zip values) exchange next

private theorem text_alternative (branch : StoreBranch) :
    branch.alternative.text = branchText branch := by
  obtain ⟨access, arguments⟩ := branch
  cases access <;> rfl

/-- If the variables are named by words, branches are written with words. -/
theorem hasWords_alternative {store : Store}
    (words : ∀ name ∈ store.parameters, ConsistsOf isWordCharacter name) {branch : StoreBranch}
    (member : branch ∈ store.branches) : branch.alternative.HasWords := by
  obtain ⟨position, name, found, rfl | rfl⟩ := mem_branches_iff.mp member
  · have ofName := words name (List.mem_of_getElem? found)
    exact ⟨ConsistsOf.append (by decide) ofName, ofName, words⟩
  · have ofName := words name (List.mem_of_getElem? found)
    have ofArrival : ConsistsOf isWordCharacter (arrival name) := ofName.append (by decide)
    refine ⟨ConsistsOf.append (by decide) ofName, ofArrival, fun argument inCall => ?_⟩
    rcases List.mem_or_eq_of_mem_set inCall with isParameter | rfl
    · exact words argument isParameter
    · exact ofArrival

/-- The printed branches are read as the branches of the store. -/
theorem printedStep_iff {store : Store}
    (words : ∀ name ∈ store.parameters, ConsistsOf isWordCharacter name) {values : List Value}
    {exchange : Exchange Value} {next : List Value} :
    store.PrintedStep values exchange next ↔ store.Step values exchange next := by
  constructor
  · rintro ⟨text, member, alternative, isRead, same, takes⟩
    obtain ⟨branch, isBranch, rfl⟩ := List.mem_map.mp member
    rw [← text_alternative] at same
    rw [Alternative.eq_of_text_eq isRead (hasWords_alternative words isBranch) same] at takes
    exact ⟨branch, isBranch, takes⟩
  · rintro ⟨branch, isBranch, takes⟩
    exact ⟨_, List.mem_map_of_mem isBranch, branch.alternative,
      hasWords_alternative words isBranch, text_alternative branch, takes⟩

/-- Every call of the store has an argument for each variable, in the order of its
parameters. -/
structure CallsInOrder (store : Store) : Prop where
  branches : ∀ branch ∈ store.branches, List.Forall₂
    (fun name argument => argument = name ∨ branch.access = .accept name argument)
    store.parameters branch.arguments
  start : List.Forall₂ (fun cell argument => argument = initialValue cell) store.cells
    store.initialArguments

private theorem callsInOrder (store : Store) : store.CallsInOrder where
  branches branch member := by
    obtain ⟨position, name, found, rfl | rfl⟩ := mem_branches_iff.mp member
    · exact List.forall₂_same.mpr fun _ _ => .inl rfl
    · refine List.forall₂_iff_get.mpr ⟨by simp, fun place inside _ => ?_⟩
      rw [List.get_eq_getElem, List.get_eq_getElem, List.getElem_set]
      by_cases here : position = place
      · subst here
        obtain ⟨_, isName⟩ := List.getElem?_eq_some_iff.mp found
        rw [if_pos rfl, isName]
        exact .inr rfl
      · rw [if_neg here]
        exact .inl rfl
  start := List.forall₂_map_right_iff.mpr (List.forall₂_same.mpr fun _ _ => rfl)

end Store

namespace Specification

variable {specification : Specification} {id : InteractionId} {interaction : Interaction}
  {kept : List Variable}

private theorem memoryModule_of_kept (placed : specification.interaction id = .ok interaction)
    (keptDone : interaction.locals.mapM specification.variableAt = .ok kept)
    (nonempty : interaction.locals ≠ []) :
    specification.memoryModule id = .ok (some (.module (memoryName interaction.name) []
      ((kept.map fun found => cellDeclaration ⟨found.name, found.type⟩) ++
        [.store ⟨kept.map fun found => ⟨found.name, found.type⟩⟩]))) := by
  refine bind_eq_ok_iff.mpr ⟨interaction, placed, bind_eq_ok_iff.mpr ⟨kept, keptDone, ?_⟩⟩
  have isKept : kept ≠ [] := by
    rintro rfl
    exact nonempty (List.forall₂_nil_right_iff.mp (mapM_eq_ok_iff.mp keptDone))
  simp [isKept, pure, Except.pure]

/-- The memory of an interaction with variables of distinct names behaves as a store if and
only if no variable has the name under which the new value of another one arrives.

Then whatever its values are, it can at each point be read and written, reading leaves it as
it is, and writing changes the one variable.  In any case each call has an argument for each
variable, and if the names are words, the printed branches are read in no other way. -/
theorem memory_is_faithful_iff_nothing_hidden
    (placed : specification.interaction id = .ok interaction)
    (keptDone : interaction.locals.mapM specification.variableAt = .ok kept)
    (nonempty : interaction.locals ≠ []) (distinct : (kept.map Variable.name).Nodup) :
    ∃ channels store,
      specification.memoryModule id = .ok (some (.module (memoryName interaction.name) []
        (channels ++ [.store store]))) ∧
      store.parameters = kept.map Variable.name ∧ store.CallsInOrder ∧
      (store.IsFaithful ↔ store.NothingHidden) ∧
      (store.NothingHidden → ∀ (Value : Type) (assigned : String → Value)
        (exchanges : List (Exchange Value)) (next : List Value),
        Store.Runs store.Step (store.parameters.map assigned) exchanges next ↔
          ∃ later, Store.Runs (Store.Accesses store.parameters) assigned exchanges later ∧
            next = store.parameters.map later) ∧
      ((∀ found ∈ kept, isIdentifier found.name = true) →
        ∀ (Value : Type) (values : List Value) (exchange : Exchange Value) (next : List Value),
          store.PrintedStep values exchange next ↔ store.Step values exchange next) := by
  have names : Store.parameters ⟨kept.map fun found => ⟨found.name, found.type⟩⟩ =
      kept.map Variable.name := by
    simp [Store.parameters]
  rw [← names] at distinct
  have faithfulIff := Store.isFaithful_iff distinct
  refine ⟨_, _, memoryModule_of_kept placed keptDone nonempty, names, Store.callsInOrder _,
    faithfulIff, ?_, ?_⟩
  · intro nothingHidden Value assigned exchanges next
    exact (faithfulIff.mpr nothingHidden).runs_iff assigned
  · intro identifiers Value values exchange next
    apply Store.printedStep_iff
    intro name member
    rw [names] at member
    obtain ⟨found, isKept, rfl⟩ := List.mem_map.mp member
    exact (isIdentifier_iff.mp (identifiers found isKept)).2.1

end Specification

/-- The variables of a tank: a level, a target of a type of its own, whether a valve is open,
and an earlier level. -/
def filling : Interaction where
  name := "Filling"
  body := []
  lifelines := []
  locals := [⟨0⟩, ⟨1⟩, ⟨2⟩, ⟨3⟩]
  fragments := #[]
  expressions := #[]
  locations := []
  group := ⟨0⟩

/-- The variables of another tank, in which the primed name stands for the level to reach. -/
def draining : Interaction where
  name := "Draining"
  body := []
  lifelines := []
  locals := [⟨4⟩, ⟨5⟩]
  fragments := #[]
  expressions := #[]
  locations := []
  group := ⟨0⟩

def tanks : Specification where
  name := "Tanks"
  actors := #[]
  actorsByName := []
  vars := #[⟨"level", .nat, some ⟨0⟩⟩, ⟨"target", .named "Level", some ⟨0⟩⟩,
    ⟨"valve", .bool, some ⟨0⟩⟩, ⟨"level''", .nat, some ⟨0⟩⟩, ⟨"level", .nat, some ⟨1⟩⟩,
    ⟨"level'", .nat, some ⟨1⟩⟩]
  constants := #[]
  groups := #[⟨some "Plant", none, [⟨0⟩, ⟨1⟩], [], []⟩]
  interactions := #[filling, draining]
  scripts := #[]

/-- The first tank can be filled: no name of a variable is that of another one with a
prime. -/
theorem memory_is_faithful_filling :
    ∃ kept, filling.locals.mapM tanks.variableAt = .ok kept ∧ (kept.map Variable.name).Nodup ∧
      ∃ channels store,
        tanks.memoryModule ⟨0⟩ = .ok (some (.module "Memory_Filling" []
          (channels ++ [.store store]))) ∧
        store.parameters = ["level", "target", "valve", "level''"] ∧ store.NothingHidden ∧
        store.IsFaithful := by
  obtain ⟨kept, keptDone, named⟩ : ∃ kept, filling.locals.mapM tanks.variableAt = .ok kept ∧
      kept.map Variable.name = ["level", "target", "valve", "level''"] := ⟨_, rfl, rfl⟩
  have distinct : (kept.map Variable.name).Nodup := by
    rw [named]
    decide
  obtain ⟨channels, store, done, parameters, _, faithfulIff, _, _⟩ :=
    @Specification.memory_is_faithful_iff_nothing_hidden tanks ⟨0⟩ filling kept rfl keptDone
      (by decide) distinct
  have nothingHidden : store.NothingHidden := by
    rw [Store.NothingHidden, parameters, named]
    decide
  exact ⟨kept, keptDone, distinct, channels, store, done, parameters.trans named, nothingHidden,
    faithfulIff.mpr nothingHidden⟩

def drainingStore : Store :=
  ⟨[⟨"level", .nat⟩, ⟨"level'", .nat⟩]⟩

/-- In the second tank a new level overwrites the level to reach. -/
theorem draining_is_not_faithful :
    ∃ channels, tanks.memoryModule ⟨1⟩ = .ok (some (.module "Memory_Draining" []
        (channels ++ [.store drainingStore]))) ∧ drainingStore.parameters.Nodup ∧
      "set_level?level' -> Memory(level', level')" ∈
        drainingStore.branches.map Store.branchText ∧
      drainingStore.Step [8, 2] ⟨"set_level", 7⟩ [7, 7] ∧
      ¬ drainingStore.Step [8, 2] ⟨"set_level", 7⟩ [7, 2] ∧ ¬ drainingStore.IsFaithful := by
  have distinct : drainingStore.parameters.Nodup := by decide
  refine ⟨_, rfl, distinct, by decide, ?_, ?_, ?_⟩
  · exact ⟨⟨.accept "level" "level'", ["level'", "level'"]⟩, by decide, .receives 7 rfl⟩
  · intro steps
    let assigned : String → Nat := fun name => if name = "level" then 8 else 2
    obtain ⟨name, isParameter, ⟨same, _⟩ | ⟨value, same, reached⟩⟩ :=
      (Store.step_iff distinct assigned).mp steps
    · exact Store.getChannel_ne_setChannel name "level" (congrArg Exchange.channel same).symm
    · have sameName : "level" = name :=
        Store.setChannel_injective (congrArg Exchange.channel same)
      subst sameName
      cases congrArg Exchange.value same
      exact absurd reached (by decide)
  · exact Store.not_isFaithful distinct (List.mem_cons_self) (by decide)

end SequenceChart
