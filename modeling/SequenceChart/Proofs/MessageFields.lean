import SequenceChart.Proofs.Nesting
import SequenceChart.Proofs.UniqueReading

/-!
# Fields of messages

An event is a channel with fields, each behind a mark.  A question mark starts an input,
whose pattern takes in all fields behind dots that follow, up to the next question or
exclamation mark.  So what stands behind a dot is sent only if no input precedes it, or if
an exclamation mark stands in between.

`readEvent` reads the printed event in this way.  A message puts a dot in front of every
value it sends.  So the reader finds its arguments if and only if no value stands behind a
variable that receives one, or behind an ignored place.
-/

namespace SequenceChart

inductive FieldMark where
  | dot
  | question
  | exclamation
  deriving DecidableEq, Repr

def FieldMark.ofCharacter : Char → Option FieldMark
  | '.' => some .dot
  | '?' => some .question
  | '!' => some .exclamation
  | _ => none

/-- A text that is cut at marks: what stands in front of the first one, and each mark with
what stands behind it. -/
structure CutText where
  front : List Char
  fields : List (FieldMark × List Char)
  deriving DecidableEq, Repr

def CutText.behind (characters : List Char) (cut : CutText) : CutText :=
  { cut with front := characters ++ cut.front }

def depthAfter (depth : Nat) (character : Char) : Nat :=
  if character = '(' then
    depth + 1
  else if character = ')' then
    depth - 1
  else
    depth

/-- Cut a text at the marks that stand in no parenthesis. -/
def cutAtMarks : Nat → List Char → CutText
  | _, [] => ⟨[], []⟩
  | depth, character :: rest =>
      match depth, FieldMark.ofCharacter character with
      | 0, some mark =>
          let cut := cutAtMarks 0 rest
          ⟨[], (mark, cut.front) :: cut.fields⟩
      | _, _ => (cutAtMarks (depthAfter depth character) rest).behind [character]

/-- What a process does at a field of an event. -/
inductive Communication where
  /-- Send the value of the text. -/
  | sent (value : String)
  /-- Receive values, which are matched against the parts of a pattern. -/
  | received (pattern : List String)
  deriving DecidableEq, Repr

/-- Fields that are read from the right: the contents of leading fields behind dots, whose
meaning depends on what precedes them, and the communications behind these. -/
structure FieldReading where
  dotted : List String
  behind : List Communication
  deriving DecidableEq, Repr

/-- The communications, if no input precedes the fields. -/
def FieldReading.communications (reading : FieldReading) : List Communication :=
  reading.dotted.map .sent ++ reading.behind

def readFields : List (FieldMark × List Char) → FieldReading
  | [] => ⟨[], []⟩
  | (.dot, content) :: rest =>
      let reading := readFields rest
      { reading with dotted := String.ofList content :: reading.dotted }
  | (.question, content) :: rest =>
      let reading := readFields rest
      ⟨[], .received (String.ofList content :: reading.dotted) :: reading.behind⟩
  | (.exclamation, content) :: rest =>
      ⟨[], .sent (String.ofList content) :: (readFields rest).communications⟩

def readEvent (text : String) : String × List Communication :=
  let cut := cutAtMarks 0 text.toList
  (String.ofList cut.front, (readFields cut.fields).communications)

@[simp]
theorem CutText.behind_behind (first second : List Char) (cut : CutText) :
    (cut.behind second).behind first = cut.behind (first ++ second) := by
  simp [behind]

/-- Nothing is cut inside of a parenthesis. -/
@[simp]
theorem cutAtMarks_inside (depth : Nat) (character : Char) (rest : List Char) :
    cutAtMarks (depth + 1) (character :: rest) =
      (cutAtMarks (depthAfter (depth + 1) character) rest).behind [character] := by
  rw [cutAtMarks]
  simp

private theorem cutAtMarks_of_noMark {character : Char}
    (noMark : FieldMark.ofCharacter character = none) (depth : Nat) (rest : List Char) :
    cutAtMarks depth (character :: rest) =
      (cutAtMarks (depthAfter depth character) rest).behind [character] := by
  rw [cutAtMarks]
  simp [noMark]

private theorem cutAtMarks_of_mark {character : Char} {mark : FieldMark}
    (isMark : FieldMark.ofCharacter character = some mark) (rest : List Char) :
    cutAtMarks 0 (character :: rest) =
      ⟨[], (mark, (cutAtMarks 0 rest).front) :: (cutAtMarks 0 rest).fields⟩ := by
  conv_lhs => unfold cutAtMarks
  rw [isMark]
  rfl

/-- Words hold no marks and no parentheses. -/
theorem cutAtMarks_word {word : List Char}
    (isWord : ∀ character ∈ word, isWordCharacter character = true) (rest : List Char) :
    cutAtMarks 0 (word ++ rest) = (cutAtMarks 0 rest).behind word := by
  induction word with
  | nil =>
      rfl
  | cons character others inductionHypothesis =>
      rw [List.forall_mem_cons] at isWord
      have noMark : FieldMark.ofCharacter character = none := by
        unfold FieldMark.ofCharacter
        split <;> first | rfl | exact absurd isWord.1 (by decide)
      have sameDepth : depthAfter 0 character = 0 := by
        rw [depthAfter, if_neg, ite_self]
        rintro rfl
        exact absurd isWord.1 (by decide)
      rw [List.cons_append, cutAtMarks_of_noMark noMark, sameDepth, inductionHypothesis isWord.2,
        CutText.behind_behind]
      rfl

theorem depthAfter_of_step {nesting next : Nesting} {character : Char}
    (steps : nesting.step character = some next) :
    depthAfter (nesting.depth + 1) character = next.depth + 1 := by
  -- A step behind an arrow never closes the parenthesis that stands around the arrow.
  unfold Nesting.step at steps
  split at steps
  · cases steps
    rfl
  · cases steps
  · cases steps
    rfl
  · cases steps
  · next depth _ notOpening notOutermost notClosing _ =>
      cases steps
      refine (if_neg notOpening).trans (if_neg ?_)
      rintro rfl
      cases depth with
      | zero =>
          exact notOutermost rfl rfl
      | succ limit =>
          exact notClosing limit rfl rfl

/-- Behind an opening parenthesis nothing is cut up to the one that closes it. -/
theorem cutAtMarks_of_after {characters rest : List Char} {nesting reached : Nesting}
    (reaches : characters.foldlM Nesting.step nesting = some reached) :
    cutAtMarks (nesting.depth + 1) (characters ++ rest) =
      (cutAtMarks (reached.depth + 1) rest).behind characters := by
  induction characters generalizing nesting with
  | nil =>
      cases reaches
      rfl
  | cons character others inductionHypothesis =>
      rw [List.foldlM_cons] at reaches
      obtain ⟨next, steps, goesOn⟩ := Option.bind_eq_some_iff.mp reaches
      rw [List.cons_append, cutAtMarks_inside, depthAfter_of_step steps,
        inductionHypothesis goesOn, CutText.behind_behind]
      rfl

/-- A text with all its parentheses closed is not cut inside of a further one. -/
theorem cutAtMarks_parenthesis {text : String} (flat : IsFlat text) (rest : List Char) :
    cutAtMarks 0 (("(" ++ text ++ ")").toList ++ rest) =
      (cutAtMarks 0 rest).behind ("(" ++ text ++ ")").toList := by
  have opened : ("(" ++ text ++ ")").toList ++ rest = '(' :: (text.toList ++ ')' :: rest) := by
    simp
  rw [opened, cutAtMarks_of_noMark rfl]
  change (cutAtMarks (0 + 1) (text.toList ++ ')' :: rest)).behind ['('] = _
  rw [cutAtMarks_of_after (flat 0), cutAtMarks_inside, CutText.behind_behind,
    CutText.behind_behind]
  simp [depthAfter]

private theorem isPlain_of_isWordCharacter {character : Char}
    (isWord : isWordCharacter character = true) : isPlain character = true := by
  rw [isPlain, Bool.and_eq_true, Bool.and_eq_true, decide_eq_true_iff, decide_eq_true_iff,
    decide_eq_true_iff]
  refine ⟨⟨?_, ?_⟩, ?_⟩ <;> rintro rfl <;> cases isWord

/-- A term that stands as a field is not cut. -/
theorem Term.cutAtMarks_enclosed {term : Term} (identifiers : term.HasIdentifiers)
    (rest : List Char) :
    cutAtMarks 0 (term.enclosed.toList ++ rest) =
      (cutAtMarks 0 rest).behind term.enclosed.toList := by
  rw [enclosed]
  split
  · refine cutAtMarks_parenthesis (textLaw_flat.render (fun name member => ?_) false) rest
    obtain ⟨_, isWord, _⟩ := isIdentifier_iff.mp (identifiers name member)
    exact fun character inside => isPlain_of_isWordCharacter (isWord character inside)
  · next isLeaf =>
      exact cutAtMarks_word
        (isWord_of_leaf (Bool.eq_false_of_not_eq_true isLeaf) identifiers false).2 rest

namespace Field

def HasIdentifiers : Field → Prop
  | .output value => value.HasIdentifiers
  | .input name => isIdentifier name = true
  | .ignored => True

def marked : Field → FieldMark × List Char
  | .output value => (.dot, value.enclosed.toList)
  | .input name => (.question, name.toList)
  | .ignored => (.question, ['_'])

def communication : Field → Communication
  | .output value => .sent value.enclosed
  | .input name => .received [name]
  | .ignored => .received ["_"]

def isOutput : Field → Bool
  | .output _ => true
  | _ => false

private theorem text_output (value : Term) : (output value).text = "." ++ value.enclosed := by
  rw [text, Term.enclosed]
  split
  · simp only [← String.append_assoc]
    rfl
  · rfl

private theorem cutAtMarks_text {field : Field} (identifiers : field.HasIdentifiers)
    {rest : List Char} {fields : List (FieldMark × List Char)}
    (cut : cutAtMarks 0 rest = ⟨[], fields⟩) :
    cutAtMarks 0 (field.text.toList ++ rest) = ⟨[], field.marked :: fields⟩ := by
  cases field with
  | output value =>
      rw [text_output, String.toList_append, List.append_assoc]
      refine (cutAtMarks_of_mark rfl (value.enclosed.toList ++ rest)).trans ?_
      rw [value.cutAtMarks_enclosed identifiers, cut]
      simp [CutText.behind, marked]
  | input name =>
      obtain ⟨_, isWord, _⟩ := isIdentifier_iff.mp identifiers
      rw [text, String.toList_append, List.append_assoc]
      refine (cutAtMarks_of_mark rfl (name.toList ++ rest)).trans ?_
      rw [cutAtMarks_word isWord, cut]
      simp [CutText.behind, marked]
  | ignored =>
      have isWord : ConsistsOf isWordCharacter "_" := by decide
      refine (cutAtMarks_of_mark rfl ("_".toList ++ rest)).trans ?_
      rw [cutAtMarks_word isWord, cut]
      rfl

private theorem cutAtMarks_concatenate {fields : List Field}
    (identifiers : ∀ field ∈ fields, field.HasIdentifiers) :
    cutAtMarks 0 (concatenate (fields.map text)).toList = ⟨[], fields.map marked⟩ := by
  induction fields with
  | nil =>
      rfl
  | cons field rest inductionHypothesis =>
      rw [List.forall_mem_cons] at identifiers
      rw [List.map_cons, concatenate_cons, String.toList_append]
      exact cutAtMarks_text identifiers.1 (inductionHypothesis identifiers.2)

private theorem isOutput_or_question (field : Field) :
    (∃ value, field = .output value) ∨ field.isOutput = false ∧
      ∃ content, field.marked = (.question, content) ∧
        field.communication = .received [String.ofList content] := by
  cases field with
  | output value =>
      exact .inl ⟨value, rfl⟩
  | input name =>
      exact .inr ⟨rfl, name.toList, rfl, by rw [String.ofList_toList, communication]⟩
  | ignored =>
      exact .inr ⟨rfl, ['_'], rfl, rfl⟩

/-- No field has an exclamation mark, so behind the first input nothing is sent. -/
theorem received_of_mem_behind {fields : List Field} {found : Communication}
    (member : found ∈ (readFields (fields.map marked)).behind) :
    ∃ pattern, found = .received pattern := by
  induction fields with
  | nil =>
      cases member
  | cons field rest inductionHypothesis =>
      rw [List.map_cons] at member
      rcases field.isOutput_or_question with ⟨value, rfl⟩ | ⟨_, content, isMarked, _⟩
      · exact inductionHypothesis member
      · rw [isMarked] at member
        rcases List.mem_cons.mp member with rfl | behind
        · exact ⟨_, rfl⟩
        · exact inductionHypothesis behind

/-- Fields none of which sends a value are read one by one. -/
theorem readFields_inputs {fields : List Field}
    (inputs : ∀ field ∈ fields, field.isOutput = false) :
    readFields (fields.map marked) = ⟨[], fields.map communication⟩ := by
  induction fields with
  | nil =>
      rfl
  | cons field rest inductionHypothesis =>
      rw [List.forall_mem_cons] at inputs
      rcases field.isOutput_or_question with ⟨value, rfl⟩ | ⟨_, content, isMarked, receives⟩
      · cases inputs.1
      · rw [List.map_cons, isMarked, readFields, inductionHypothesis inputs.2, List.map_cons,
          receives]

private theorem inputs_of_behind_eq {fields : List Field}
    (same : (readFields (fields.map marked)).behind = fields.map communication) :
    ∀ field ∈ fields, field.isOutput = false := by
  intro field member
  have read := List.mem_map_of_mem (f := communication) member
  rw [← same] at read
  obtain ⟨pattern, received⟩ := received_of_mem_behind read
  cases field with
  | output value =>
      cases received
  | input | ignored =>
      rfl

/-- Fields are read as what they are for if and only if those that send a value stand in
front of all others. -/
theorem communications_eq_iff (fields : List Field) :
    (readFields (fields.map marked)).communications = fields.map communication ↔
      fields.Pairwise fun earlier later => later.isOutput = true → earlier.isOutput = true := by
  induction fields with
  | nil =>
      exact ⟨fun _ => .nil, fun _ => rfl⟩
  | cons field rest inductionHypothesis =>
      rw [List.pairwise_cons, List.map_cons, List.map_cons]
      rcases field.isOutput_or_question with ⟨value, rfl⟩ | ⟨input, content, isMarked, receives⟩
      · have headed : (readFields ((output value).marked :: rest.map marked)).communications =
            (output value).communication :: (readFields (rest.map marked)).communications := by
          simp [FieldReading.communications, readFields, marked, communication]
        rw [headed, List.cons.injEq, inductionHypothesis]
        exact ⟨fun order => ⟨fun _ _ _ => rfl, order.2⟩, fun order => ⟨rfl, order.2⟩⟩
      · -- An input is read alone if and only if nothing behind it is sent.
        rw [isMarked, receives, input, readFields]
        constructor
        · intro same
          have inputs := inputs_of_behind_eq (List.tail_eq_of_cons_eq same)
          have notSent : ∀ later ∈ rest, later.isOutput = true → False := by
            intro later member sends
            rw [inputs later member] at sends
            cases sends
          exact ⟨fun later member sends => (notSent later member sends).elim,
            List.pairwise_of_forall_mem_list fun _ _ later member sends =>
              (notSent later member sends).elim⟩
        · rintro ⟨noneSent, _⟩
          have inputs : ∀ later ∈ rest, later.isOutput = false := by
            intro later member
            rw [← Bool.not_eq_true]
            exact fun sends => Bool.false_ne_true (noneSent later member sends)
          rw [readFields_inputs inputs]
          rfl

end Field

/-! ## Messages -/

def Argument.isValue : Argument → Bool
  | .value _ => true
  | _ => false

/-- The values that a message sends stand in front of its other arguments. -/
def Message.ValuesLead (message : Message) : Prop :=
  message.arguments.Pairwise fun earlier later => later.isValue = true → earlier.isValue = true

instance (message : Message) : Decidable message.ValuesLead :=
  inferInstanceAs (Decidable (List.Pairwise _ _))

/-- Fields send values where the arguments of the message are values. -/
theorem Message.valuesLead_iff {message : Message} {fields : List Field}
    (kinds : fields.map Field.isOutput = message.arguments.map Argument.isValue) :
    message.ValuesLead ↔
      fields.Pairwise fun earlier later => later.isOutput = true → earlier.isOutput = true := by
  rw [ValuesLead, ← List.pairwise_map (f := Argument.isValue)
    (R := fun earlier later => later = true → earlier = true), ← kinds, List.pairwise_map]

/-- The text is read as the term, and as no other term over identifiers. -/
def Term.IsMeantBy (text : String) (term : Term) : Prop :=
  term.enclosed = text ∧ ∀ other : Term, other.HasIdentifiers → other.enclosed = text →
    other = term

theorem Term.isMeantBy_enclosed {term : Term} (identifiers : term.HasIdentifiers) :
    term.IsMeantBy term.enclosed := by
  refine ⟨rfl, fun other otherIdentifiers same => ?_⟩
  have nothing : EndsAt [' ', ')'] [] := by simp [EndsAt]
  have read := isReadBy_enclosed identifiers (isReadBy identifiers).1
  exact ((read other [] [] otherIdentifiers nothing nothing (by rw [same])).1).symm

/-- What a message does for each of its arguments. -/
inductive Setting.Communicates (setting : Setting) : Argument → Communication → Prop
  | value {expression : ExpressionId} {term : Term} {text : String} :
      setting.termOf expression = .ok term → term.IsMeantBy text →
      Communicates setting (.value expression) (.sent text)
  | bind {id : VariableId} {found : Variable} :
      setting.specification.variableAt id = .ok found →
      Communicates setting (.bind id) (.received [found.name])
  | ignored : Communicates setting .ignored (.received ["_"])

/-- All variables and constants are named by identifiers. -/
structure Specification.NamesIdentifiers (specification : Specification) : Prop where
  vars : ∀ found ∈ specification.vars, isIdentifier found.name = true
  constants : ∀ found ∈ specification.constants, isIdentifier found.qualifiedName = true

theorem Specification.NamesIdentifiers.termOf {specification : Specification}
    (names : specification.NamesIdentifiers) {diagram : Diagram} {id : ExpressionId}
    {term : Term} (done : specification.termOf diagram id = .ok term) : term.HasIdentifiers :=
  Specification.names_term (fun _ found foundDone => names.vars found (mem_of_entryAt foundDone))
    (fun _ found foundDone => names.constants found (mem_of_entryAt foundDone)) done

namespace Setting

variable {setting : Setting} {message : Message}

private theorem communicates_of_fieldOf (names : setting.specification.NamesIdentifiers)
    {argument : Argument} {field : Field} (done : setting.fieldOf argument = .ok field) :
    field.HasIdentifiers ∧ field.isOutput = argument.isValue ∧
      setting.Communicates argument field.communication := by
  cases argument with
  | value expression =>
      obtain ⟨term, termDone, last⟩ := bind_eq_ok_iff.mp done
      cases last
      have identifiers := names.termOf termDone
      exact ⟨identifiers, rfl, .value termDone (Term.isMeantBy_enclosed identifiers)⟩
  | bind id =>
      obtain ⟨found, foundDone, last⟩ := bind_eq_ok_iff.mp done
      cases last
      exact ⟨names.vars found (mem_of_entryAt foundDone), rfl, .bind foundDone⟩
  | ignored =>
      cases done
      exact ⟨trivial, rfl, .ignored⟩

private theorem isWord_channel {topic : Topic} (identifier : isIdentifier topic.name = true) :
    ConsistsOf isWordCharacter topic.channel := by
  obtain ⟨_, isWord, _⟩ := isIdentifier_iff.mp identifier
  cases topic with
  | event channel =>
      exact isWord
  | operation name =>
      exact isWord.append (by decide : ConsistsOf isWordCharacter "Call")

/-- The event of a message is read as its channel, its direction and its fields. -/
theorem readEvent_message {direction : Direction} {fields : List Field}
    (topic : isIdentifier message.topic.name = true)
    (identifiers : ∀ field ∈ fields, field.HasIdentifiers) :
    readEvent (Event.message message direction fields).text =
      (message.topic.channel, .sent direction.text ::
        (readFields (fields.map Field.marked)).communications) := by
  have isWord : ConsistsOf isWordCharacter direction.text := by
    cases direction <;> decide
  have characters : (Event.message message direction fields).text.toList =
      message.topic.channel.toList ++
        '.' :: (direction.text.toList ++ (concatenate (fields.map Field.text)).toList) := by
    simp [Event.text, Message.eventName]
  have cut : cutAtMarks 0 (Event.message message direction fields).text.toList =
      ⟨message.topic.channel.toList,
        (.dot, direction.text.toList) :: fields.map Field.marked⟩ := by
    rw [characters, cutAtMarks_word (isWord_channel topic),
      @cutAtMarks_of_mark '.' .dot rfl, cutAtMarks_word isWord,
      Field.cutAtMarks_concatenate identifiers]
    simp [CutText.behind]
  rw [readEvent, cut]
  simp [readFields, FieldReading.communications]

/-- The printed event of a message is read as its channel, its direction and what it does
for each argument, in order, if and only if the values that it sends stand in front of its
other arguments.  A value behind a variable or an ignored place is taken for a part of the
pattern of that input. -/
theorem message_is_read_iff_values_lead {view : Viewpoint} {behaviour : Behaviour}
    (done : (setting.projectMessage view message).result = .ok behaviour)
    (names : setting.specification.NamesIdentifiers)
    (topic : isIdentifier message.topic.name = true) :
    ∃ loads direction fields stores communications,
      behaviour = .performAll loads (.idle (.perform (.message message direction fields)
        (.performAll stores .skip))) ∧
      setting.specification.directionOf message = .ok direction ∧
      List.Forall₂ setting.Communicates message.arguments communications ∧
      (readEvent (Event.message message direction fields).text =
        (message.topic.channel, .sent direction.text :: communications) ↔
          message.ValuesLead) := by
  obtain ⟨event, _, stores, loads, eventDone, _, _, _, rfl⟩ :=
    Fragment.projectMessage_eq_ok done
  obtain ⟨fields, fieldsDone, afterFields⟩ := bind_eq_ok_iff.mp eventDone
  obtain ⟨direction, directionDone, last⟩ := bind_eq_ok_iff.mp afterFields
  cases last
  have each : List.Forall₂ (fun argument field => field.HasIdentifiers ∧
      field.isOutput = argument.isValue ∧ setting.Communicates argument field.communication)
      message.arguments fields :=
    (mapM_eq_ok_iff.mp fieldsDone).imp fun _ _ fieldDone => communicates_of_fieldOf names fieldDone
  refine ⟨loads, direction, fields, stores, fields.map Field.communication, rfl, directionDone,
    ?_, ?_⟩
  · exact List.forall₂_map_right_iff.mpr (each.imp fun _ _ facts => facts.2.2)
  · have identifiers : ∀ field ∈ fields, field.HasIdentifiers := by
      intro field member
      obtain ⟨_, _, facts⟩ := exists_left_of_mem each member
      exact facts.1
    have kinds : fields.map Field.isOutput = message.arguments.map Argument.isValue := by
      rw [← List.forall₂_eq_eq_eq, List.forall₂_map_left_iff, List.forall₂_map_right_iff]
      exact each.flip.imp fun _ _ facts => facts.2.1
    rw [readEvent_message topic identifiers, Prod.mk.injEq, List.cons.injEq,
      Field.communications_eq_iff, Message.valuesLead_iff kinds]
    simp

end Setting

/-- A bidder raises the price by a step and learns what the auctioneer answers. -/
def raised : Message where
  sender := ⟨0⟩
  receiver := ⟨1⟩
  topic := .operation "Auction::bid"
  arguments := [.value ⟨2⟩, .value ⟨1⟩, .ignored, .bind ⟨0⟩]

/-- A bidder learns the price and names a step, in this order. -/
def countered : Message where
  sender := ⟨0⟩
  receiver := ⟨1⟩
  topic := .event "counter"
  arguments := [.bind ⟨0⟩, .value ⟨1⟩]

def bidding : Interaction where
  name := "Bidding"
  body := [⟨0⟩, ⟨1⟩]
  lifelines := [⟨0⟩, ⟨1⟩]
  locals := [⟨0⟩]
  fragments := #[.message raised, .message countered]
  expressions := #[.var ⟨0⟩, .const ⟨0⟩, .binary .add ⟨0⟩ ⟨1⟩]
  locations := []
  group := ⟨0⟩

def auctions : Specification where
  name := "Auctions"
  actors := #[⟨"Bidder", .component⟩, ⟨"Auctioneer", .component⟩]
  actorsByName := [("Auctioneer", ⟨1⟩), ("Bidder", ⟨0⟩)]
  vars := #[⟨"price", .nat, some ⟨0⟩⟩]
  constants := #[⟨"step", "Auction::step"⟩]
  groups := #[⟨some "Sales", none, [⟨0⟩], [], []⟩]
  interactions := #[bidding]
  scripts := #[]

def biddingSetting : Setting where
  specification := auctions
  id := ⟨0⟩
  interaction := bidding
  meetings := []

private theorem namesIdentifiers_auctions : auctions.NamesIdentifiers :=
  ⟨by decide, by decide⟩

/-- The bid is read as it is meant, since both values stand in front. -/
theorem message_is_read_iff_values_lead_raised :
    auctions.setting ⟨0⟩ = .ok biddingSetting ∧ auctions.NamesIdentifiers ∧ raised.ValuesLead ∧
      isIdentifier raised.topic.name = true ∧
      ∃ behaviour, (biddingSetting.projectMessage (.lifeline ⟨0⟩) raised).result = .ok behaviour ∧
        ∃ loads direction fields stores communications,
          behaviour = .performAll loads (.idle (.perform (.message raised direction fields)
            (.performAll stores .skip))) ∧
          List.Forall₂ biddingSetting.Communicates raised.arguments communications ∧
          readEvent (Event.message raised direction fields).text =
            ("Auction::bidCall", .sent direction.text :: communications) := by
  have valuesLead : raised.ValuesLead := by decide
  have topic : isIdentifier raised.topic.name = true := by decide
  obtain ⟨behaviour, done⟩ : ∃ behaviour,
      (biddingSetting.projectMessage (.lifeline ⟨0⟩) raised).result = .ok behaviour := ⟨_, rfl⟩
  refine ⟨rfl, namesIdentifiers_auctions, valuesLead, topic, behaviour, done, ?_⟩
  obtain ⟨loads, direction, fields, stores, communications, shape, _, each, readIff⟩ :=
    Setting.message_is_read_iff_values_lead done namesIdentifiers_auctions topic
  exact ⟨loads, direction, fields, stores, communications, shape, each, readIff.mpr valuesLead⟩

/-- The step in the second message is not sent: it becomes a part of the pattern that
receives the price. -/
theorem countered_is_not_read :
    auctions.setting ⟨0⟩ = .ok biddingSetting ∧ auctions.NamesIdentifiers ∧
      isIdentifier countered.topic.name = true ∧
      ∃ loads fields stores,
        (biddingSetting.projectMessage (.lifeline ⟨0⟩) countered).result =
          .ok (.performAll loads (.idle (.perform (.message countered .outgoing fields)
            (.performAll stores .skip)))) ∧
        (Event.message countered .outgoing fields).text = "counter.out?price.Auction::step" ∧
        readEvent (Event.message countered .outgoing fields).text =
          ("counter", [.sent "out", .received ["price", "Auction::step"]]) ∧
        ¬ ∃ communications,
          List.Forall₂ biddingSetting.Communicates countered.arguments communications ∧
          readEvent (Event.message countered .outgoing fields).text =
            ("counter", .sent "out" :: communications) := by
  let fields : List Field := [.input "price", .output (.name "Auction::step")]
  have found : readEvent (Event.message countered .outgoing fields).text =
      ("counter", [.sent "out", .received ["price", "Auction::step"]]) := by decide
  refine ⟨rfl, namesIdentifiers_auctions, by decide, _, fields, _, rfl, by decide, found, ?_⟩
  rintro ⟨communications, each, read⟩
  have together := List.tail_eq_of_cons_eq (Prod.mk.inj (found.symm.trans read)).2
  subst together
  cases each with
  | cons _ rest =>
      cases rest

end SequenceChart
