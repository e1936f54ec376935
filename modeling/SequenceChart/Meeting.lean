import SequenceChart.Declaration
import SequenceChart.Fragment
import SequenceChart.Specification

/-!
The until and par fragments of an interaction are numbered once, in the order
of the diagram, and all parts of the model use these numbers.  The bodies of
until fragments are not searched: what is inside is run by one process alone
and needs no agreement.
-/

namespace SequenceChart

/-- A fragment that all lifelines enter and leave together. -/
structure Meeting where
  kind : HandshakeKind
  id : FragmentId
  deriving DecidableEq, Repr

mutual

def Fragment.meetings : Fragment → Except Fault (List Meeting)
  | .message _ => .ok []
  | .wait _ _ => .ok []
  | .deadlock _ => .ok []
  | .create _ _ _ => .ok []
  | .loop _ body => body.meetings
  | .branch _ operands => Fragment.listMeetings operands
  | .par id operands => do
      let inner ← Fragment.listMeetings operands
      return ⟨.par, id⟩ :: inner
  | .duration _ _ body => body.meetings
  | .deadline _ _ body => body.meetings
  | .until id _ _ => .ok [⟨.until, id⟩]
  | .critical _ body => body.meetings
  | .operand _ fragments => Fragment.listMeetings fragments
  | .deferred content => (content ()).meetings
  | .unresolved fault => .error fault

def Fragment.listMeetings : List Fragment → Except Fault (List Meeting)
  | [] => .ok []
  | fragment :: rest => do
      let first ← fragment.meetings
      let others ← Fragment.listMeetings rest
      return first ++ others

end

def lastPosition {α : Type} [DecidableEq α] (item : α) : List α → Option Nat
  | [] => none
  | head :: rest =>
      match lastPosition item rest with
      | some position => some (position + 1)
      | none => if head = item then some 0 else none

/-- Number fragments from a number on, in a table that has a place for each. -/
def numberFrom (number : Nat) : List FragmentId → Array (Option Nat) → Array (Option Nat)
  | [], table => table
  | fragment :: rest, table =>
      numberFrom (number + 1) rest (table.setIfInBounds fragment.index (some number))

/-- The numbers of recorded fragments, by their position in a table of the given
size.  A fragment that is recorded several times has the number of its last
place. -/
def numbering (size : Nat) (recorded : List FragmentId) : Array (Option Nat) :=
  numberFrom 0 recorded (Array.replicate size none)

private theorem getElem?_numberFrom (fragment : FragmentId) (recorded : List FragmentId)
    (number : Nat)
    (table : Array (Option Nat)) (entry : Option Nat)
    (present : table[fragment.index]? = some entry) :
    (numberFrom number recorded table)[fragment.index]? =
      some (match lastPosition fragment recorded with
        | some position => some (number + position)
        | none => entry) := by
  induction recorded generalizing number table entry with
  | nil =>
      exact present
  | cons head rest inductionHypothesis =>
      have inside : fragment.index < table.size := by
        rcases Nat.lt_or_ge fragment.index table.size with inside | outside
        · exact inside
        · simp [outside] at present
      by_cases same : head = fragment
      · have placed :
            (table.setIfInBounds head.index (some number))[fragment.index]? =
              some (some number) := by
          simp [same, inside]
        rw [numberFrom, inductionHypothesis (number + 1) _ _ placed, lastPosition]
        cases lastPosition fragment rest with
        | none =>
            simp [same]
        | some position =>
            simp only [Option.some.injEq]
            omega
      · have apart : head.index ≠ fragment.index := by
          intro equal
          apply same
          cases head
          cases fragment
          simp_all
        have kept :
            (table.setIfInBounds head.index (some number))[fragment.index]? = some entry := by
          rw [Array.getElem?_setIfInBounds_ne apart]
          exact present
        rw [numberFrom, inductionHypothesis (number + 1) _ _ kept, lastPosition]
        cases lastPosition fragment rest with
        | none =>
            simp [same]
        | some position =>
            simp only [Option.some.injEq]
            omega

/-- The number of a fragment of the table is its last place in the record. -/
theorem getElem?_numbering (size : Nat) (recorded : List FragmentId) (fragment : FragmentId)
    (inside : fragment.index < size) :
    (numbering size recorded)[fragment.index]? = some (lastPosition fragment recorded) := by
  have present : (Array.replicate size (none : Option Nat))[fragment.index]? = some none := by
    simp [inside]
  rw [numbering, getElem?_numberFrom fragment recorded 0 _ none present]
  cases lastPosition fragment recorded <;> simp

/-- The numbered fragments of one kind in an interaction, whose table of
fragments has the given size. -/
structure Synchronisation where
  kind : HandshakeKind
  fragments : List FragmentId
  lifelineCount : Nat
  tableSize : Nat
  /-- The numbers of the fragments, kept so that they are found at once. -/
  numbers : Array (Option Nat) := numbering tableSize fragments
  numbers_eq : numbers = numbering tableSize fragments := by rfl
  deriving DecidableEq, Repr

namespace Synchronisation

variable (synchronisation : Synchronisation)

/-- Whether there is anyone to agree with, and anything to agree on. -/
def isRequired : Bool :=
  2 ≤ synchronisation.lifelineCount && !synchronisation.fragments.isEmpty

def numberOf (fragment : FragmentId) : Except Fault Nat :=
  match synchronisation.numbers[fragment.index]? with
  | some (some number) => .ok number
  | _ => .error (.unrecorded fragment synchronisation.kind)

def event (phase : Phase) (fragment : FragmentId) : Except Fault Event := do
  let number ← synchronisation.numberOf fragment
  return .handshake synchronisation.kind number phase

/-- What a lifeline does at a fragment that another process runs. -/
def handshake (fragment : FragmentId) : Except Fault Behaviour := do
  let enter ← synchronisation.event .enter fragment
  let leave ← synchronisation.event .leave fragment
  return .idle (.performAll [enter, leave] .skip)

def declaration : Except Fault (Option Declaration) :=
  if synchronisation.isRequired then do
    let last ← oneLess synchronisation.fragments.length
    return some (.channels [synchronisation.kind.channel]
      (some ("\x7b0.." ++ toString last ++ "\x7d.SyncDir")))
  else
    return none

end Synchronisation

def Interaction.synchronisation (interaction : Interaction) (meetings : List Meeting)
    (kind : HandshakeKind) : Synchronisation where
  kind := kind
  fragments := (meetings.filter fun meeting => meeting.kind = kind).map Meeting.id
  lifelineCount := interaction.lifelines.length
  tableSize := interaction.fragments.size

/-- One interaction of a specification with its meetings. -/
structure Setting where
  specification : Specification
  id : InteractionId
  interaction : Interaction
  meetings : List Meeting
  /-- The numbered until fragments. -/
  untils : Synchronisation := interaction.synchronisation meetings .until
  /-- The numbered par fragments. -/
  pars : Synchronisation := interaction.synchronisation meetings .par
  untils_eq : untils = interaction.synchronisation meetings .until := by rfl
  pars_eq : pars = interaction.synchronisation meetings .par := by rfl

def Specification.setting (specification : Specification) (id : InteractionId) :
    Except Fault Setting := do
  let interaction ← specification.interaction id
  let meetings ← Fragment.listMeetings interaction.bodyFragments
  return { specification, id, interaction, meetings }

namespace Setting

variable (setting : Setting)

def lifelines : List ActorId :=
  setting.interaction.lifelines

def body : List Fragment :=
  setting.interaction.bodyFragments

def synchronisation : HandshakeKind → Synchronisation
  | .until => setting.untils
  | .par => setting.pars

def handshakeChannels : List String :=
  ([setting.untils, setting.pars].filter Synchronisation.isRequired).map
    fun synchronisation => synchronisation.kind.channel

/-- Whether the interaction is one process without lifelines to compose. -/
def isSequential : Bool :=
  setting.lifelines.length ≤ 1

end Setting

end SequenceChart
