import SequenceChart.Behaviour
import Mathlib.Data.List.Infix
import Mathlib.Data.Nat.Digits.Defs

/-!
# Handshakes in printed processes

A printed process is searched for handshake events from left to right.  What is
found are the handshakes that the process performs, in the order in which they
stand in it, if no other part of the text holds one of the words `enter` and
`leave`.  The parts of a process are set apart by characters that occur in no
handshake, so none is found across a border.
-/

namespace SequenceChart

/-- The kind of handshake whose channel the characters start with, and what comes
behind the dot. -/
def kindAt : List Char → Option (HandshakeKind × List Char)
  | 'u' :: 'n' :: 't' :: 'i' :: 'l' :: '.' :: rest => some (.until, rest)
  | 'p' :: 'a' :: 'r' :: '.' :: rest => some (.par, rest)
  | _ => none

def phaseAt : List Char → Option Phase
  | '.' :: 'e' :: 'n' :: 't' :: 'e' :: 'r' :: _ => some .enter
  | '.' :: 'l' :: 'e' :: 'a' :: 'v' :: 'e' :: _ => some .leave
  | _ => none

def handshakeText (kind : HandshakeKind) (digits : List Char) (phase : Phase) : String :=
  kind.channel ++ "." ++ String.ofList digits ++ "." ++ phase.text

def handshakeAt (characters : List Char) : Option String :=
  match kindAt characters with
  | none => none
  | some (kind, rest) =>
      match rest.takeWhile Char.isDigit, phaseAt (rest.dropWhile Char.isDigit) with
      | [], _ => none
      | _, none => none
      | digits, some phase => some (handshakeText kind digits phase)

def handshakesAmong : List Char → List String
  | [] => []
  | character :: rest => (handshakeAt (character :: rest)).toList ++ handshakesAmong rest

def handshakesIn (text : String) : List String :=
  handshakesAmong text.toList

theorem kindAt_eq_some_iff {characters rest : List Char} {kind : HandshakeKind} :
    kindAt characters = some (kind, rest) ↔
      characters = kind.channel.toList ++ '.' :: rest := by
  constructor
  · intro found
    unfold kindAt at found
    split at found
    · cases found
      rfl
    · cases found
      rfl
    · cases found
  · rintro rfl
    cases kind <;> rfl

theorem phaseAt_eq_some_iff {characters : List Char} {phase : Phase} :
    phaseAt characters = some phase ↔
      ∃ rest, characters = '.' :: (phase.text.toList ++ rest) := by
  constructor
  · intro found
    unfold phaseAt at found
    split at found
    · cases found
      exact ⟨_, rfl⟩
    · cases found
      exact ⟨_, rfl⟩
    · cases found
  · rintro ⟨rest, rfl⟩
    cases phase <;> rfl

private theorem toList_handshakeText (kind : HandshakeKind) (digits : List Char) (phase : Phase) :
    (handshakeText kind digits phase).toList =
      kind.channel.toList ++ '.' :: (digits ++ '.' :: phase.text.toList) := by
  simp [handshakeText]

/-- A handshake is found exactly where one stands. -/
theorem handshakeAt_eq_some_iff {characters : List Char} {found : String} :
    handshakeAt characters = some found ↔
      ∃ kind digits phase rest, digits ≠ [] ∧ (∀ digit ∈ digits, digit.isDigit = true) ∧
        characters = (handshakeText kind digits phase).toList ++ rest ∧
        found = handshakeText kind digits phase := by
  constructor
  · intro isFound
    rw [handshakeAt] at isFound
    split at isFound
    · cases isFound
    · rename_i kind rest atKind
      split at isFound
      · cases isFound
      · cases isFound
      · rename_i phase atPhase nonempty
        cases isFound
        obtain ⟨later, behind⟩ := phaseAt_eq_some_iff.mp atPhase
        refine ⟨kind, rest.takeWhile Char.isDigit, phase, later, nonempty, ?_, ?_, rfl⟩
        · intro digit member
          exact List.all_eq_true.mp List.all_takeWhile digit member
        · rw [kindAt_eq_some_iff.mp atKind, toList_handshakeText]
          nth_rewrite 1 [← rest.takeWhile_append_dropWhile (p := Char.isDigit)]
          rw [behind]
          simp
  · rintro ⟨kind, digits, phase, rest, nonempty, areDigits, rfl, rfl⟩
    have atKind : kindAt ((handshakeText kind digits phase).toList ++ rest) =
        some (kind, digits ++ '.' :: (phase.text.toList ++ rest)) := by
      rw [kindAt_eq_some_iff, toList_handshakeText]
      simp
    have number : (digits ++ '.' :: (phase.text.toList ++ rest)).takeWhile Char.isDigit =
        digits := by
      rw [List.takeWhile_append_of_pos areDigits, List.takeWhile_cons_of_neg (by decide),
        List.append_nil]
    have behind : phaseAt
        ((digits ++ '.' :: (phase.text.toList ++ rest)).dropWhile Char.isDigit) =
          some phase := by
      rw [List.dropWhile_append_of_pos areDigits, List.dropWhile_cons_of_neg (by decide)]
      exact phaseAt_eq_some_iff.mpr ⟨rest, rfl⟩
    rw [handshakeAt, atKind]
    simp only [number, behind]

/-- The characters of which handshakes consist. -/
def inHandshake (character : Char) : Bool :=
  character.isDigit || "until.parenterleave".toList.contains character

/-- The text is not empty and holds no character of a class. -/
def clearOf (isInside : Char → Bool) (text : String) : Bool :=
  !text.toList.isEmpty && !text.toList.any isInside

theorem clearOf_iff {isInside : Char → Bool} {text : String} :
    clearOf isInside text = true ↔
      text.toList ≠ [] ∧ ∀ character ∈ text.toList, isInside character = false := by
  simp [clearOf]

private theorem inHandshake_of_mem (kind : HandshakeKind) {digits : List Char} (phase : Phase)
    (areDigits : ∀ digit ∈ digits, digit.isDigit = true) :
    ∀ character ∈ (handshakeText kind digits phase).toList, inHandshake character = true := by
  have ofChannel : kind.channel.toList.all inHandshake = true := by
    cases kind <;> decide
  have ofPhase : phase.text.toList.all inHandshake = true := by
    cases phase <;> decide
  intro character member
  rw [toList_handshakeText] at member
  simp only [List.mem_append, List.mem_cons] at member
  rcases member with inChannel | rfl | inDigits | rfl | inPhase
  · exact List.all_eq_true.mp ofChannel character inChannel
  · decide
  · simp [inHandshake, areDigits character inDigits]
  · decide
  · exact List.all_eq_true.mp ofPhase character inPhase

/-- A character that is in no handshake ends the search for one. -/
theorem handshakeAt_append (characters rest : List Char) {border : Char}
    (apart : inHandshake border = false) :
    handshakeAt (characters ++ border :: rest) = handshakeAt characters := by
  ext found
  rw [handshakeAt_eq_some_iff, handshakeAt_eq_some_iff]
  constructor
  · rintro ⟨kind, digits, phase, later, nonempty, areDigits, shape, rfl⟩
    rcases List.append_eq_append_iff.mp shape with
      ⟨beyond, whole, follows⟩ | ⟨between, whole, _⟩
    · cases beyond with
      | nil =>
          exact ⟨kind, digits, phase, [], nonempty, areDigits, by simpa using whole.symm, rfl⟩
      | cons head tail =>
          -- the handshake would have to go across the border
          have inside := inHandshake_of_mem kind phase areDigits head (by simp [whole])
          obtain ⟨rfl, _⟩ := List.cons.inj follows
          rw [apart] at inside
          cases inside
    · exact ⟨kind, digits, phase, between, nonempty, areDigits, whole, rfl⟩
  · rintro ⟨kind, digits, phase, later, nonempty, areDigits, rfl, rfl⟩
    exact ⟨kind, digits, phase, later ++ border :: rest, nonempty, areDigits, by simp, rfl⟩

/-- No handshake is found across a character that is in none. -/
theorem handshakesAmong_append (characters rest : List Char) {border : Char}
    (apart : inHandshake border = false) :
    handshakesAmong (characters ++ border :: rest) =
      handshakesAmong characters ++ handshakesAmong rest := by
  induction characters with
  | nil =>
      change (handshakeAt ([] ++ border :: rest)).toList ++ handshakesAmong rest = _
      rw [handshakeAt_append [] rest apart]
      rfl
  | cons head tail inductionHypothesis =>
      rw [List.cons_append, handshakesAmong, inductionHypothesis, ← List.cons_append,
        handshakeAt_append _ rest apart, handshakesAmong, List.append_assoc]

/-- Texts with a separator between them have their handshakes side by side. -/
theorem handshakesIn_separated {separator : String} (before after : String)
    (clear : clearOf inHandshake separator = true) :
    handshakesIn (before ++ separator ++ after) =
      handshakesIn before ++ handshakesIn after := by
  obtain ⟨nonempty, apart⟩ := clearOf_iff.mp clear
  have skipped : ∀ borders : List Char,
      (∀ character ∈ borders, inHandshake character = false) →
      handshakesAmong (borders ++ after.toList) = handshakesAmong after.toList := by
    intro borders bordersApart
    induction borders with
    | nil =>
        rfl
    | cons border others inductionHypothesis =>
        rw [List.cons_append, ← List.nil_append (border :: _),
          handshakesAmong_append [] _ (bordersApart border List.mem_cons_self),
          inductionHypothesis fun character member =>
            bordersApart character (List.mem_cons_of_mem border member)]
        rfl
  rw [handshakesIn, String.toList_append, String.toList_append, List.append_assoc]
  cases borders : separator.toList with
  | nil =>
      exact absurd borders nonempty
  | cons border others =>
      rw [borders] at apart
      rw [List.cons_append, handshakesAmong_append _ _ (apart border List.mem_cons_self),
        skipped others fun character member =>
          apart character (List.mem_cons_of_mem border member)]
      rfl

private theorem handshakesIn_append_border {separator : String} (text : String)
    (clear : clearOf inHandshake separator = true) :
    handshakesIn (text ++ separator) = handshakesIn text := by
  have behind := handshakesIn_separated text "" clear
  rwa [String.append_empty, show handshakesIn "" = [] from rfl, List.append_nil] at behind

theorem handshakesIn_border_append {separator : String} (text : String)
    (clear : clearOf inHandshake separator = true) :
    handshakesIn (separator ++ text) = handshakesIn text := by
  have before := handshakesIn_separated "" text clear
  rwa [String.empty_append, show handshakesIn "" = [] from rfl, List.nil_append] at before

/-- The text holds neither of the words that end a handshake. -/
def IsQuiet (text : String) : Prop :=
  ∀ phase : Phase, ¬ phase.text.toList <:+: text.toList

theorem isQuiet_iff {text : String} :
    IsQuiet text ↔
      ¬ "enter".toList <:+: text.toList ∧ ¬ "leave".toList <:+: text.toList := by
  constructor
  · intro quiet
    exact ⟨quiet .enter, quiet .leave⟩
  · rintro ⟨noEnter, noLeave⟩ (_ | _)
    · exact noEnter
    · exact noLeave

instance (text : String) : Decidable (IsQuiet text) :=
  decidable_of_iff _ isQuiet_iff.symm

/-- A quiet text holds no handshake. -/
theorem handshakesIn_of_isQuiet {text : String} (quiet : IsQuiet text) :
    handshakesIn text = [] := by
  rw [handshakesIn]
  unfold IsQuiet at quiet
  generalize text.toList = characters at quiet
  induction characters with
  | nil =>
      rfl
  | cons head tail inductionHypothesis =>
      have tailQuiet := inductionHypothesis fun phase inside =>
        quiet phase (inside.trans (List.suffix_cons head tail).isInfix)
      rw [handshakesAmong, tailQuiet, List.append_nil]
      cases found : handshakeAt (head :: tail) with
      | none =>
          rfl
      | some text =>
          obtain ⟨kind, digits, phase, rest, _, _, shape, _⟩ := handshakeAt_eq_some_iff.mp found
          refine absurd ?_ (quiet phase)
          rw [shape, toList_handshakeText]
          exact ⟨kind.channel.toList ++ '.' :: (digits ++ ['.']), rest, by simp⟩

/-- A word that does not hold a character is on one side of it. -/
private theorem infix_append_cons {word : List Char} (before after : List Char)
    {border : Char} (absent : border ∉ word) (inside : word <:+: before ++ border :: after) :
    word <:+: before ∨ word <:+: after := by
  obtain ⟨front, back, shape⟩ := inside
  rw [List.append_assoc] at shape
  rcases List.append_eq_append_iff.mp shape with
    ⟨between, rfl, follows⟩ | ⟨between, rfl, follows⟩
  · rcases List.append_eq_append_iff.mp follows with
      ⟨later, rfl, _⟩ | ⟨beyond, rfl, crossing⟩
    · exact Or.inl ⟨front, later, by simp⟩
    · cases beyond with
      | nil =>
          exact Or.inl ⟨front, [], by simp⟩
      | cons head tail =>
          obtain ⟨rfl, _⟩ := List.cons.inj crossing
          exact absurd (by simp) absent
  · cases between with
    | nil =>
        cases word with
        | nil =>
            exact Or.inl (List.nil_infix)
        | cons head tail =>
            obtain ⟨rfl, _⟩ := List.cons.inj follows
            exact absurd List.mem_cons_self absent
    | cons head tail =>
        obtain ⟨_, rfl⟩ := List.cons.inj follows
        exact Or.inr ⟨tail, back, by simp⟩

def inPhase (character : Char) : Bool :=
  "enterleave".toList.contains character

/-- Quiet texts with a separator between them are quiet. -/
theorem IsQuiet.separated {separator before after : String} (beforeQuiet : IsQuiet before)
    (afterQuiet : IsQuiet after) (clear : clearOf inPhase separator = true) :
    IsQuiet (before ++ separator ++ after) := by
  obtain ⟨nonempty, apart⟩ := clearOf_iff.mp clear
  have absent : ∀ (phase : Phase) (border : Char), inPhase border = false →
      border ∉ phase.text.toList := by
    intro phase border notInPhase member
    have inside : phase.text.toList.all inPhase = true := by
      cases phase <;> decide
    rw [List.all_eq_true.mp inside border member] at notInPhase
    cases notInPhase
  have skipped : ∀ (phase : Phase) (borders : List Char),
      (∀ character ∈ borders, inPhase character = false) →
      phase.text.toList <:+: borders ++ after.toList →
      phase.text.toList <:+: after.toList := by
    intro phase borders bordersApart inside
    induction borders with
    | nil =>
        exact inside
    | cons border others inductionHypothesis =>
        have notHere := absent phase border (bordersApart border List.mem_cons_self)
        rcases infix_append_cons [] _ notHere inside with empty | later
        · cases phase <;> simp [Phase.text] at empty
        · exact inductionHypothesis
            (fun character member => bordersApart character (List.mem_cons_of_mem _ member))
            later
  intro phase inside
  rw [String.toList_append, String.toList_append, List.append_assoc] at inside
  cases borders : separator.toList with
  | nil =>
      exact nonempty borders
  | cons border others =>
      rw [borders] at apart inside
      have notHere := absent phase border (apart border List.mem_cons_self)
      rcases infix_append_cons _ _ notHere inside with early | late
      · exact beforeQuiet phase early
      · exact afterQuiet phase (skipped phase others
          (fun character member => apart character (List.mem_cons_of_mem _ member)) late)

/-- A text without the letter that both words have is quiet. -/
theorem isQuiet_of_not_mem {text : String} (absent : 'e' ∉ text.toList) : IsQuiet text := by
  intro phase inside
  apply absent
  apply inside.subset
  cases phase <;> decide

def Event.isHandshake : Event → Bool
  | .handshake _ _ _ => true
  | _ => false

theorem Event.text_handshake (kind : HandshakeKind) (number : Nat) (phase : Phase) :
    (Event.handshake kind number phase).text =
      handshakeText kind (Nat.toDigits 10 number) phase := by
  rw [← String.toList_inj, toList_handshakeText]
  simp [text]

/-- The first letters of the channels of handshakes. -/
private def opensHandshake (character : Char) : Bool :=
  character = 'u' || character = 'p'

private theorem handshakesAmong_eq_nil {characters : List Char}
    (noStart : ∀ character ∈ characters, opensHandshake character = false) :
    handshakesAmong characters = [] := by
  induction characters with
  | nil =>
      rfl
  | cons head tail inductionHypothesis =>
      have tailFree := inductionHypothesis fun character member =>
        noStart character (List.mem_cons_of_mem head member)
      have notOpened := noStart head List.mem_cons_self
      rw [handshakesAmong, tailFree, List.append_nil]
      cases found : handshakeAt (head :: tail) with
      | none =>
          rfl
      | some text =>
          obtain ⟨kind, digits, phase, rest, _, _, shape, _⟩ := handshakeAt_eq_some_iff.mp found
          rw [toList_handshakeText] at shape
          cases kind with
          | «until» | par =>
              rw [(List.cons.inj shape).1] at notOpened
              cases notOpened

/-- A printed handshake holds itself and no other one. -/
@[simp]
theorem handshakesIn_handshake (kind : HandshakeKind) (number : Nat) (phase : Phase) :
    handshakesIn (Event.handshake kind number phase).text =
      [(Event.handshake kind number phase).text] := by
  rw [Event.text_handshake]
  generalize writtenNumber : Nat.toDigits 10 number = digits
  have nonempty : digits ≠ [] := writtenNumber ▸ Nat.toDigits_ne_nil
  have areDigits : ∀ digit ∈ digits, digit.isDigit = true := by
    subst writtenNumber
    exact fun digit member => Nat.isDigit_of_mem_toDigits (by decide) (by decide) member
  have found : handshakeAt (handshakeText kind digits phase).toList =
      some (handshakeText kind digits phase) :=
    handshakeAt_eq_some_iff.mpr
      ⟨kind, digits, phase, [], nonempty, areDigits, (List.append_nil _).symm, rfl⟩
  have tailFree : ∀ character ∈
      kind.channel.toList.tail ++ '.' :: (digits ++ '.' :: phase.text.toList),
      opensHandshake character = false := by
    have ofChannel : kind.channel.toList.tail.any opensHandshake = false := by
      cases kind <;> decide
    have ofPhase : phase.text.toList.any opensHandshake = false := by
      cases phase <;> decide
    rw [List.any_eq_false] at ofChannel ofPhase
    intro character member
    simp only [List.mem_append, List.mem_cons] at member
    rcases member with inChannel | rfl | inDigits | rfl | inPhase
    · exact Bool.eq_false_iff.mpr (ofChannel character inChannel)
    · decide
    · have isDigit := areDigits character inDigits
      rw [opensHandshake, Bool.or_eq_false_iff, decide_eq_false_iff_not, decide_eq_false_iff_not]
      constructor
      · rintro rfl
        cases isDigit
      · rintro rfl
        cases isDigit
    · decide
    · exact Bool.eq_false_iff.mpr (ofPhase character inPhase)
  rw [handshakesIn]
  rw [toList_handshakeText] at found ⊢
  cases kind with
  | «until» =>
      exact congrArg₂ (fun first others => first.toList ++ others) found
        (handshakesAmong_eq_nil tailFree)
  | par =>
      exact congrArg₂ (fun first others => first.toList ++ others) found
        (handshakesAmong_eq_nil tailFree)

/-! ## Printed processes -/

namespace Behaviour

def events : Behaviour → List Event
  | .perform event next => event :: next.events
  | .andThen first second => first.events ++ second.events
  | .join _ left right => left.events ++ right.events
  | .guarded _ body => body.events
  | .grouped body => body.events
  | .wrapped _ _ body => body.events
  | .remarked _ body => body.events
  | .annotated body _ => body.events
  | .synchronised left _ right => left.events ++ right.events
  | .hiding body _ => body.events
  | .interrupted left right => left.events ++ right.events
  | .conditional _ positive negative => positive.events ++ negative.events
  | _ => []

def handshakes (behaviour : Behaviour) : List Event :=
  behaviour.events.filter Event.isHandshake

def HasQuietParts : Behaviour → Prop
  | .skip => True
  | .stop => True
  | .named name => IsQuiet name
  | .verbatim text => IsQuiet text
  | .perform event next =>
      (event.isHandshake = true ∨ IsQuiet event.text) ∧ next.HasQuietParts
  | .andThen first second => first.HasQuietParts ∧ second.HasQuietParts
  | .join _ left right => left.HasQuietParts ∧ right.HasQuietParts
  | .guarded condition body => IsQuiet condition.text ∧ body.HasQuietParts
  | .grouped body => body.HasQuietParts
  | .applied function arguments =>
      IsQuiet (application function (arguments.map Operand.text))
  | .wrapped function arguments body =>
      IsQuiet (application function (arguments.map Operand.text)) ∧ body.HasQuietParts
  | .remarked remark body => IsQuiet (comment remark) ∧ body.HasQuietParts
  | .annotated body remark => body.HasQuietParts ∧ IsQuiet (comment remark)
  | .synchronised left events right =>
      left.HasQuietParts ∧ IsQuiet events.text ∧ right.HasQuietParts
  | .hiding body events => body.HasQuietParts ∧ IsQuiet events.text
  | .interrupted left right => left.HasQuietParts ∧ right.HasQuietParts
  | .conditional _ _ _ => False

private theorem handshakesIn_event {event : Event}
    (quiet : event.isHandshake = true ∨ IsQuiet event.text) :
    handshakesIn event.text = ([event].filter Event.isHandshake).map Event.text := by
  cases event with
  | handshake kind number phase =>
      exact handshakesIn_handshake kind number phase
  | _ =>
      exact handshakesIn_of_isQuiet (quiet.resolve_left (by simp [Event.isHandshake]))

/-- The handshakes found in a printed process are those that stand in it. -/
theorem handshakesIn_text {behaviour : Behaviour} (quiet : behaviour.HasQuietParts) :
    handshakesIn behaviour.text = behaviour.handshakes.map Event.text := by
  induction behaviour with
  | skip | stop =>
      rfl
  | named name =>
      exact handshakesIn_of_isQuiet quiet
  | verbatim text =>
      exact handshakesIn_of_isQuiet quiet
  | perform event next inductionHypothesis =>
      rw [text, handshakesIn_separated _ _ (by decide),
        handshakesIn_event quiet.1, inductionHypothesis quiet.2, ← List.map_append,
        handshakes, ← List.filter_append]
      rfl
  | andThen first second firstHypothesis secondHypothesis =>
      rw [text, handshakesIn_separated _ _ (by decide), firstHypothesis quiet.1,
        secondHypothesis quiet.2, ← List.map_append, handshakes, handshakes, ← List.filter_append]
      rfl
  | join operator left right leftHypothesis rightHypothesis =>
      have symbolQuiet : handshakesIn operator.symbol = [] := by
        cases operator <;> rfl
      rw [text, handshakesIn_separated _ _ (by decide),
        handshakesIn_separated _ _ (by decide), leftHypothesis quiet.1,
        rightHypothesis quiet.2, symbolQuiet, List.append_nil, ← List.map_append, handshakes,
        handshakes, ← List.filter_append]
      rfl
  | guarded condition body inductionHypothesis =>
      rw [text, handshakesIn_separated _ _ (by decide),
        handshakesIn_of_isQuiet quiet.1, inductionHypothesis quiet.2]
      rfl
  | grouped body inductionHypothesis =>
      rw [text, handshakesIn_append_border _ (by decide),
        handshakesIn_border_append _ (by decide), inductionHypothesis quiet]
      rfl
  | applied function arguments =>
      exact handshakesIn_of_isQuiet quiet
  | wrapped function arguments body inductionHypothesis =>
      rw [text, handshakesIn_append_border _ (by decide),
        handshakesIn_separated _ _ (by decide), handshakesIn_of_isQuiet quiet.1,
        inductionHypothesis quiet.2]
      rfl
  | remarked remark body inductionHypothesis =>
      rw [text, handshakesIn_separated _ _ (by decide),
        handshakesIn_of_isQuiet quiet.1, inductionHypothesis quiet.2]
      rfl
  | annotated body remark inductionHypothesis =>
      rw [text, handshakesIn_separated _ _ (by decide),
        inductionHypothesis quiet.1, handshakesIn_of_isQuiet quiet.2, List.append_nil]
      rfl
  | synchronised left shared right leftHypothesis rightHypothesis =>
      rw [text, handshakesIn_separated _ _ (by decide),
        handshakesIn_separated _ _ (by decide), leftHypothesis quiet.1,
        handshakesIn_of_isQuiet quiet.2.1, rightHypothesis quiet.2.2, List.append_nil,
        ← List.map_append, handshakes, handshakes, ← List.filter_append]
      rfl
  | «hiding» body hidden inductionHypothesis =>
      rw [text, handshakesIn_separated _ _ (by decide),
        inductionHypothesis quiet.1, handshakesIn_of_isQuiet quiet.2, List.append_nil]
      rfl
  | interrupted left right leftHypothesis rightHypothesis =>
      rw [text, handshakesIn_separated _ _ (by decide), leftHypothesis quiet.1,
        rightHypothesis quiet.2, ← List.map_append, handshakes, handshakes, ← List.filter_append]
      rfl
  | conditional condition positive negative =>
      exact quiet.elim

end Behaviour

end SequenceChart
