import SequenceChart.Proofs.Landmarks

/-!
# Writing received values to memory

What a message binds is written to memory once for every visit.  Outside of until
bodies the receiver of the message writes it, or the sender if the message goes to the
world, and no other lifeline.  In the bodies of until fragments the process that runs
them writes it.  A variable that is bound twice by one message is written once.

Summed up over all processes of an interaction, the stores are as many as there are
pairs of a visited message and a variable that it binds.
-/

namespace SequenceChart

def Piece.store? : Reading Event
  | .event (.store memory name) => some (.store memory name)
  | _ => none

theorem Piece.selective_store? : Reading.Selective store? where
  layout _ := rfl
  remark _ := rfl
  load _ _ := rfl
  handshake _ _ _ := rfl
  call _ _ _ _ := rfl

def Behaviour.stores (behaviour : Behaviour) : List Event :=
  behaviour.pieces.filterMap Piece.store?

def Declaration.stores : Declaration → List Event
  | .definition content => content.body.stores
  | _ => []

/-- Whether an actor stands for everything outside of the system. -/
def Specification.representsWorld (specification : Specification) (id : ActorId) : Bool :=
  match specification.actor id with
  | .ok found => found.isWorld
  | .error _ => false

def Specification.writerOf (specification : Specification) (message : Message) : ActorId :=
  if specification.representsWorld message.receiver then message.sender else message.receiver

/-- Both ends of the message are lifelines or the world, and one is not the world. -/
def Specification.Connects (specification : Specification) (lifelines : List ActorId)
    (message : Message) : Prop :=
  (∀ actor ∈ [message.sender, message.receiver],
    actor ∈ lifelines ∨ specification.representsWorld actor = true) ∧
  ¬ (specification.representsWorld message.sender = true ∧
    specification.representsWorld message.receiver = true)

instance (specification : Specification) (lifelines : List ActorId) (message : Message) :
    Decidable (specification.Connects lifelines message) :=
  inferInstanceAs (Decidable (_ ∧ _))

/-- The writer of a message between lifelines or with the world is a lifeline. -/
theorem Specification.Connects.writerOf_mem {specification : Specification}
    {lifelines : List ActorId} {message : Message}
    (connects : specification.Connects lifelines message) :
    specification.writerOf message ∈ lifelines := by
  obtain ⟨ends, notBoth⟩ := connects
  rw [writerOf]
  by_cases outwards : specification.representsWorld message.receiver = true
  · rw [if_pos outwards]
    have sender := ends message.sender List.mem_cons_self
    exact sender.resolve_right fun world => notBoth ⟨world, outwards⟩
  · rw [if_neg outwards]
    have receiver := ends message.receiver (by simp)
    exact receiver.resolve_right outwards

/-- A lifeline stores for the messages of which it is the writer. -/
theorem Viewpoint.storing_eq_writer {specification : Specification} {message : Message}
    {actor : ActorId} {storing : Bool}
    (done : (Viewpoint.lifeline actor).storesFor specification message = .ok storing) :
    storing = decide (specification.writerOf message = actor) := by
  obtain ⟨receiver, known, last⟩ := bind_eq_ok_iff.mp done
  cases last
  have world : specification.representsWorld message.receiver = receiver.isWorld := by
    rw [Specification.representsWorld, known]
  rw [Specification.writerOf, world]
  by_cases outwards : receiver.isWorld = true
  · rw [if_pos outwards, if_pos outwards]
    exact decide_eq_decide.mpr eq_comm
  · rw [if_neg outwards, if_neg outwards]
    exact decide_eq_decide.mpr eq_comm

namespace Setting

variable {setting : Setting}

/-- The events write every variable that the message binds, and each of them once. -/
def Records (setting : Setting) (message : Message) (events : List Event) : Prop :=
  ∃ ids : List VariableId, ids.Nodup ∧ (∀ id, id ∈ ids ↔ id ∈ message.bindings) ∧
    List.Forall₂ (fun id event => ∃ found memory,
      setting.specification.variableAt id = .ok found ∧
      (setting.specification.memoryOf id).result = .ok memory ∧
      event = .store memory found.name) ids events

/-- The events are what a lifeline writes of what the message binds: everything if it is
the writer, and nothing otherwise. -/
def WritesFor (setting : Setting) (actor : ActorId) (message : Message)
    (events : List Event) : Prop :=
  if setting.specification.writerOf message = actor then setting.Records message events
  else events = []

end Setting

private theorem nodup_unseenOccurrences {α : Type} [DecidableEq α] (seen items : List α) :
    (unseenOccurrences seen items).Nodup := by
  induction items generalizing seen with
  | nil =>
      exact List.nodup_nil
  | cons item rest inductionHypothesis =>
      rw [unseenOccurrences]
      split
      · exact inductionHypothesis seen
      · refine List.nodup_cons.mpr ⟨?_, inductionHypothesis (item :: seen)⟩
        intro again
        exact (mem_unseenOccurrences.mp again).2 List.mem_cons_self

namespace Setting

variable {setting : Setting}

/-- The stores of a message record it. -/
theorem records_stores {message : Message} {events : List Event}
    (done : (setting.specification.stores message.bindings).result = .ok events) :
    setting.Records message events := by
  refine ⟨firstOccurrences message.bindings, nodup_unseenOccurrences [] _,
    fun _ => mem_firstOccurrences, ?_⟩
  rw [Specification.stores, Attempt.result_mapM, mapM_eq_ok_iff] at done
  refine done.imp ?_
  intro id event eventDone
  obtain ⟨found, foundDone, rest⟩ := Attempt.result_bind_eq_ok_iff.mp eventDone
  obtain ⟨memory, memoryDone, last⟩ := Attempt.result_bind_eq_ok_iff.mp rest
  cases last
  exact ⟨found, memory, foundDone, memoryDone, rfl⟩

/-- There are as many records as variables that the message binds. -/
theorem Records.length_eq {message : Message} {events : List Event}
    (records : setting.Records message events) :
    events.length = message.bindings.toFinset.card := by
  obtain ⟨ids, distinct, sameMembers, written⟩ := records
  have sameSet : ids.toFinset = message.bindings.toFinset := by
    ext id
    rw [List.mem_toFinset, List.mem_toFinset, sameMembers]
  rw [← written.length_eq, ← List.toFinset_card_of_nodup distinct, sameSet]

/-- Only the stores are read out of a message. -/
private theorem filterMap_store_message {content : Message} {event : Event}
    {ids : List VariableId} {stores : List Event}
    (eventDone : setting.messageEvent content = .ok event)
    (storesDone : (setting.specification.stores ids).result = .ok stores) :
    (event :: stores).filterMap (fun performed => Piece.store? (.event performed)) = stores :=
  @filterMap_message _ Piece.store? false true (fun _ _ _ => rfl) (fun _ _ => rfl) _ _ _ _
    eventDone storesDone

/-- A message in which a lifeline has no part has another writer. -/
private theorem writerOf_ne {message : Message} {actor : ActorId}
    (uninvolved : ((Viewpoint.lifeline actor).isFor message.sender ||
      (Viewpoint.lifeline actor).isFor message.receiver) = false) :
    setting.specification.writerOf message ≠ actor := by
  obtain ⟨notSender, notReceiver⟩ := Bool.or_eq_false_iff.mp uninvolved
  rw [Specification.writerOf]
  split
  · exact fun same => of_decide_eq_false notSender same.symm
  · exact fun same => of_decide_eq_false notReceiver same.symm

private theorem readBy_store_header (header : Header) (body : Behaviour) :
    header.readBy Piece.store? body = none := by
  cases header <;> rfl

/-- A lifeline writes what is bound by the messages of which it is the writer. -/
theorem Shows.writes {actor : ActorId} {landmarks : List Landmark} {items : List Event}
    (shows : setting.Shows Piece.store? (.lifeline actor) landmarks items) :
    ∃ parts, List.Forall₂ (setting.WritesFor actor)
      (landmarks.filterMap Landmark.message?) parts ∧ parts.flatten = items := by
  obtain ⟨parts, shown, rfl⟩ := shows
  induction shown with
  | nil =>
      exact ⟨[], .nil, rfl⟩
  | cons first _ inductionHypothesis =>
      obtain ⟨writes, written, same⟩ := inductionHypothesis
      cases first with
      | @message content event storing stores _ eventDone storingDone storesDone =>
          refine ⟨stores :: writes, .cons ?_ written, ?_⟩
          · rw [WritesFor]
            rw [Viewpoint.storing_eq_writer storingDone] at storesDone
            by_cases own : setting.specification.writerOf content = actor
            · rw [if_pos own]
              rw [if_pos (decide_eq_true own)] at storesDone
              exact records_stores storesDone
            · rw [if_neg own]
              rw [if_neg (by simp [own])] at storesDone
              cases storesDone
              rfl
          · rw [filterMap_store_message eventDone storesDone, List.flatten_cons,
              List.flatten_cons, same]
      | @otherMessage content uninvolved =>
          refine ⟨[] :: writes, .cons ?_ written, same⟩
          exact (if_neg (writerOf_ne uninvolved)).mpr rfl
      | @timer timer inner header _ _ _ =>
          rw [readBy_store_header header]
          exact ⟨writes, written, same⟩
      | otherTimer _ =>
          exact ⟨writes, written, same⟩

/-- In the body of an until fragment everything that is bound is written. -/
theorem Shows.records {landmarks : List Landmark} {items : List Event}
    (shows : setting.Shows Piece.store? .until landmarks items) :
    ∃ parts, List.Forall₂ setting.Records (landmarks.filterMap Landmark.message?) parts ∧
      parts.flatten = items := by
  obtain ⟨parts, shown, rfl⟩ := shows
  induction shown with
  | nil =>
      exact ⟨[], .nil, rfl⟩
  | cons first _ inductionHypothesis =>
      obtain ⟨writes, written, same⟩ := inductionHypothesis
      cases first with
      | @message content event storing stores _ eventDone storingDone storesDone =>
          cases storingDone
          refine ⟨stores :: writes, .cons (records_stores storesDone) written, ?_⟩
          rw [filterMap_store_message eventDone storesDone, List.flatten_cons,
            List.flatten_cons, same]
      | otherMessage uninvolved =>
          cases uninvolved
      | @timer timer inner header _ _ _ =>
          rw [readBy_store_header header]
          exact ⟨writes, written, same⟩
      | otherTimer other =>
          cases other

/-- The definition of a lifeline has the stores of its projection. -/
theorem stores_of_lifelineDefinition {actor : ActorId} {definition : Declaration}
    (done : (setting.lifelineDefinition actor).result = .ok definition) :
    ∃ seen, (setting.projectSequence (.lifeline actor) setting.body).result = .ok seen ∧
      definition.stores = Fragment.readSeen Piece.store? seen := by
  obtain ⟨seen, seenDone, rest⟩ := Attempt.result_bind_eq_ok_iff.mp done
  obtain ⟨name, _, last⟩ := Attempt.result_bind_eq_ok_iff.mp rest
  cases last
  refine ⟨seen, seenDone, ?_⟩
  cases seen with
  | none =>
      rfl
  | some behaviour =>
      have both := Behaviour.readBy_andThen Piece.selective_store? behaviour .finished
      rwa [show Behaviour.finished.readBy Piece.store? = [] from rfl, List.append_nil] at both

def outsideMessages (setting : Setting) : List Message :=
  (Fragment.listVisits false setting.body).filterMap Fragment.message?

/-- The messages that are visited in the body of the until fragment at a place. -/
def untilMessagesAt (setting : Setting) (id : FragmentId) : List Message :=
  match setting.interaction.fragments[id.index]? with
  | some (.until _ child) =>
      ((setting.interaction.fragment child).visits true).filterMap Fragment.message?
  | _ => []

/-- The messages that are visited when the bodies of all recorded until fragments are
run. -/
def untilMessages (setting : Setting) : List Message :=
  setting.untils.fragments.flatMap setting.untilMessagesAt

/-- The branch of the until process for a fragment has the stores of its body. -/
theorem stores_of_untilBranch {internal : List String} {id : FragmentId}
    {branch : Behaviour}
    (done : (setting.untilBranch internal id).result = .ok branch) :
    ∃ intra child inner, setting.interaction.fragments[id.index]? = some (.until intra child) ∧
      ((setting.interaction.fragment child).project setting .until).result = .ok inner ∧
      branch.stores = Fragment.readSeen Piece.store? inner := by
  obtain ⟨intra, child, inner, enter, leave, present, innerDone, entered, left, rfl⟩ :=
    exists_of_untilBranch done
  refine ⟨intra, child, inner, present, innerDone, ?_⟩
  have selective := Piece.selective_store?
  change Behaviour.readBy Piece.store? _ = _
  rw [Behaviour.readBy_grouped selective, Behaviour.readBy_andThen selective,
    Behaviour.readBy_perform selective, Behaviour.readBy_perform selective,
    Header.readBy_around selective, readBy_store_header,
    Synchronisation.reading_event selective entered,
    Synchronisation.reading_event selective left]
  exact List.append_nil _

/-- A recorded until fragment is visited by lifelines. -/
theorem visited_of_recorded
    (searched : Fragment.listMeetings setting.body = .ok setting.meetings)
    {id : FragmentId} (recorded : ⟨.until, id⟩ ∈ setting.meetings) :
    setting.interaction.toDiagram.Visited false id := by
  rw [Fragment.listMeetings_eq] at searched
  have found := Fragment.filterMap_listVisits
    (fun _ _ _ => Fragment.filterMap_meeting_visits) searched
  rw [← found] at recorded
  obtain ⟨visit, isVisit, isMeeting⟩ := List.mem_filterMap.mp recorded
  obtain ⟨place, depth, visited, rfl⟩ := Diagram.exists_visited_of_mem isVisit
  obtain ⟨same, _⟩ := Diagram.until_of_unfoldFragment isMeeting
  rw [same]
  exact visited

/-- The branch of the until process for a fragment writes what is bound in its body. -/
theorem records_of_untilBranch (several : 2 ≤ setting.lifelines.length)
    (searched : Fragment.listMeetings setting.body = .ok setting.meetings)
    (avoids : setting.interaction.toDiagram.AvoidsCritical true) {internal : List String}
    {id : FragmentId} (member : id ∈ setting.untils.fragments) {branch : Behaviour}
    (done : (setting.untilBranch internal id).result = .ok branch) :
    ∃ parts, List.Forall₂ setting.Records (setting.untilMessagesAt id) parts ∧
      parts.flatten = branch.stores := by
  obtain ⟨intra, child, inner, present, innerDone, stores⟩ := stores_of_untilBranch done
  obtain ⟨start, inBody, path⟩ :=
    (visited_of_recorded searched (mem_fragments .until member)).fully
  have childVisited : setting.interaction.toDiagram.Visited true child :=
    ⟨start, inBody, path.tail ⟨_, present, List.mem_cons_self⟩⟩
  have free : (setting.interaction.fragment child).AvoidsCritical true :=
    fun visit isVisit => avoids.isCritical_eq (childVisited.exists_of_mem isVisit)
  have shows := (Fragment.sees_of_result innerDone).shows Piece.selective_store? several
    (by simp) (fun synchronises => by cases synchronises) free
  obtain ⟨parts, records, same⟩ := shows.records
  refine ⟨parts, ?_, same.trans stores.symm⟩
  rw [untilMessagesAt, present]
  rwa [Fragment.filterMap_message_landmarks] at records

/-- The branches of the until process write what is bound in the bodies of their
fragments. -/
private theorem records_of_untilBranches (several : 2 ≤ setting.lifelines.length)
    (searched : Fragment.listMeetings setting.body = .ok setting.meetings)
    (avoids : setting.interaction.toDiagram.AvoidsCritical true) {internal : List String}
    {ids : List FragmentId} (known : ∀ id ∈ ids, id ∈ setting.untils.fragments)
    {branches : List Behaviour}
    (done : List.Forall₂ (fun id branch => (setting.untilBranch internal id).result = .ok branch)
      ids branches) :
    ∃ parts, List.Forall₂ setting.Records (ids.flatMap setting.untilMessagesAt) parts ∧
      parts.flatten = branches.flatMap Behaviour.stores := by
  induction done with
  | nil =>
      exact ⟨[], .nil, rfl⟩
  | @cons id branch ids branches branchDone _ inductionHypothesis =>
      obtain ⟨later, laterRecords, laterSame⟩ := inductionHypothesis fun other member =>
        known other (List.mem_cons_of_mem id member)
      obtain ⟨parts, records, same⟩ :=
        records_of_untilBranch several searched avoids (known id List.mem_cons_self) branchDone
      refine ⟨parts ++ later, ?_, ?_⟩
      · rw [List.flatMap_cons]
        exact List.rel_append records laterRecords
      · rw [List.flatten_append, same, laterSame, List.flatMap_cons]

/-- Where several lifelines need no until process, no until fragment is recorded. -/
private theorem untils_eq_nil (several : 2 ≤ setting.lifelines.length)
    (unrequired : ¬ setting.untils.isRequired = true) : setting.untils.fragments = [] := by
  have enough : 2 ≤ setting.untils.lifelineCount := by
    rw [setting.untils_eq]
    exact several
  rw [Synchronisation.isRequired] at unrequired
  simpa [enough] using unrequired

/-- The until process writes what is bound in the bodies of all recorded fragments. -/
theorem records_of_untilProcess (several : 2 ≤ setting.lifelines.length)
    (searched : Fragment.listMeetings setting.body = .ok setting.meetings)
    (avoids : setting.interaction.toDiagram.AvoidsCritical true)
    {runner : Option Declaration} (done : setting.untilProcess.result = .ok runner) :
    ∃ parts, List.Forall₂ setting.Records setting.untilMessages parts ∧
      parts.flatten = runner.toList.flatMap Declaration.stores := by
  rw [untilProcess] at done
  split at done
  · obtain ⟨internal, _, rest⟩ := Attempt.result_bind_eq_ok_iff.mp done
    obtain ⟨branches, branchesDone, last⟩ := Attempt.result_bind_eq_ok_iff.mp rest
    cases last
    rw [Attempt.result_mapM, mapM_eq_ok_iff] at branchesDone
    rw [Option.toList_some, List.flatMap_singleton]
    have ofRunner : (Declaration.process untilProcessName
        (.joinAll .externalChoice (.perform (.signal finish) .skip) branches)).stores =
          branches.flatMap Behaviour.stores :=
      Behaviour.readBy_joinAll Piece.selective_store? _ _ branches
    rw [ofRunner]
    exact records_of_untilBranches several searched avoids (fun _ member => member) branchesDone
  · rename_i unrequired
    cases done
    refine ⟨[], ?_, rfl⟩
    rw [untilMessages, untils_eq_nil several unrequired]
    exact .nil

/-! ## Counting -/

/-- What a lifeline writes, counted by the variables of its messages. -/
theorem length_of_writes {actor : ActorId} {messages : List Message}
    {parts : List (List Event)} (writes : List.Forall₂ (setting.WritesFor actor) messages parts) :
    parts.flatten.length =
      ((messages.filter fun message => setting.specification.writerOf message = actor).map
        fun message => message.bindings.toFinset.card).sum := by
  induction writes with
  | nil =>
      rfl
  | @cons message part messages parts first _ inductionHypothesis =>
      rw [List.flatten_cons, List.length_append, inductionHypothesis, List.filter_cons]
      rw [WritesFor] at first
      by_cases own : setting.specification.writerOf message = actor
      · rw [if_pos own] at first
        rw [if_pos (decide_eq_true own), List.map_cons, List.sum_cons, first.length_eq]
      · rw [if_neg own] at first
        rw [if_neg (by simp [own]), first, List.length_nil, Nat.zero_add]

private theorem length_of_records {messages : List Message} {parts : List (List Event)}
    (records : List.Forall₂ setting.Records messages parts) :
    parts.flatten.length =
      (messages.map fun message => message.bindings.toFinset.card).sum := by
  induction records with
  | nil =>
      rfl
  | cons first _ inductionHypothesis =>
      rw [List.flatten_cons, List.length_append, inductionHypothesis, List.map_cons,
        List.sum_cons, first.length_eq]

/-- Distinct lifelines together write as much as is bound, if every writer is one of
them. -/
theorem sum_over_writers {messages : List Message} {lifelines : List ActorId}
    (distinct : lifelines.Nodup)
    (writers : ∀ message ∈ messages, setting.specification.writerOf message ∈ lifelines) :
    (lifelines.map fun actor =>
      ((messages.filter fun message => setting.specification.writerOf message = actor).map
        fun message => message.bindings.toFinset.card).sum).sum =
      (messages.map fun message => message.bindings.toFinset.card).sum := by
  have perm := flatMap_filter_owner_perm setting.specification.writerOf messages distinct
  have all : (messages.filter fun message =>
      setting.specification.writerOf message ∈ lifelines) = messages := by
    rw [List.filter_eq_self]
    intro message member
    exact decide_eq_true (writers message member)
  rw [all] at perm
  have counted := (perm.map fun message => message.bindings.toFinset.card).sum_nat
  rw [List.map_flatMap, List.flatMap, List.sum_flatten, List.map_map] at counted
  exact counted

/-- The lifelines write what is bound by the messages of which they are the writers. -/
theorem writes_of_lifelineDefinition (several : 2 ≤ setting.lifelines.length)
    (searched : Fragment.listMeetings setting.body = .ok setting.meetings)
    (avoids : setting.interaction.toDiagram.AvoidsCritical false) {actor : ActorId}
    {definition : Declaration}
    (done : (setting.lifelineDefinition actor).result = .ok definition) :
    ∃ parts, List.Forall₂ (setting.WritesFor actor) setting.outsideMessages parts ∧
      parts.flatten = definition.stores := by
  obtain ⟨seen, seenDone, stores⟩ := stores_of_lifelineDefinition done
  obtain ⟨parts, writes, same⟩ := (shows_of_projectSequence Piece.selective_store? several
    searched avoids seenDone).writes
  rw [Fragment.filterMap_message_listLandmarks] at writes
  exact ⟨parts, writes, same.trans stores.symm⟩

/-- The stores of all lifelines, counted by the variables of their messages. -/
theorem length_of_definitions {actors : List ActorId} {definitions : List Declaration}
    (writes : List.Forall₂ (fun actor definition => ∃ parts,
      List.Forall₂ (setting.WritesFor actor) setting.outsideMessages parts ∧
        parts.flatten = definition.stores) actors definitions) :
    (definitions.flatMap Declaration.stores).length =
      (actors.map fun actor => ((setting.outsideMessages.filter fun message =>
        setting.specification.writerOf message = actor).map
          fun message => message.bindings.toFinset.card).sum).sum := by
  induction writes with
  | nil =>
      rfl
  | cons first _ inductionHypothesis =>
      obtain ⟨parts, written, same⟩ := first
      rw [List.flatMap_cons, List.length_append, inductionHypothesis, ← same,
        length_of_writes written, List.map_cons, List.sum_cons]

/-- A message that lifelines visit has the ends that the table gives it. -/
theorem connects_of_mem
    (ends : ∀ place message, setting.interaction.toDiagram.Visited false place →
      setting.interaction.fragments[place.index]? = some (.message message) →
      setting.specification.Connects setting.lifelines message)
    {message : Message} (member : message ∈ setting.outsideMessages) :
    setting.specification.Connects setting.lifelines message := by
  obtain ⟨visit, isVisit, isMessage⟩ := List.mem_filterMap.mp member
  obtain ⟨place, depth, visited, rfl⟩ := Diagram.exists_visited_of_mem isVisit
  exact ends place message visited (Diagram.message_of_unfoldFragment isMessage)

end Setting

/-- The setting of an interaction is about this interaction, with its meetings. -/
theorem Specification.setting_facts {specification : Specification} {id : InteractionId}
    {interaction : Interaction} {setting : Setting}
    (placed : specification.interaction id = .ok interaction)
    (found : specification.setting id = .ok setting) :
    setting.specification = specification ∧ setting.interaction = interaction ∧
      Fragment.listMeetings setting.body = .ok setting.meetings := by
  obtain ⟨other, meetings, placedThere, searched, rfl⟩ := setting_eq_ok_iff.mp found
  cases placed.symm.trans placedThere
  exact ⟨rfl, rfl, searched⟩

/-- What a visited message binds is stored once.  The definition of a lifeline stores the
variables of the messages of which it is the writer, message by message, and every
message outside of until bodies has a lifeline as its writer.  The until process stores
the variables of the messages in the bodies that it runs.  All in all there are as many
stores as pairs of a visited message and a variable that it binds.

The definitions exist if the interaction is well formed, with a side to every bound of a
loop. -/
theorem Specification.bindings_are_stored_once {specification : Specification}
    {id : InteractionId} {interaction : Interaction}
    (placed : specification.interaction id = .ok interaction)
    (several : 2 ≤ interaction.lifelines.length)
    (distinct : interaction.lifelines.Nodup)
    (ends : ∀ place message, interaction.toDiagram.Visited false place →
      interaction.fragments[place.index]? = some (.message message) →
      specification.Connects interaction.lifelines message)
    (avoids : interaction.toDiagram.AvoidsCritical true) :
    (∀ setting definitions runner, specification.setting id = .ok setting →
      (setting.lifelines.mapM setting.lifelineDefinition).result = .ok definitions →
      setting.untilProcess.result = .ok runner →
      List.Forall₂ (fun actor definition => ∃ parts,
        List.Forall₂ (setting.WritesFor actor) setting.outsideMessages parts ∧
          parts.flatten = definition.stores) interaction.lifelines definitions ∧
      (∀ message ∈ setting.outsideMessages,
        specification.writerOf message ∈ interaction.lifelines) ∧
      (∃ parts, List.Forall₂ setting.Records setting.untilMessages parts ∧
        parts.flatten = runner.toList.flatMap Declaration.stores) ∧
      ((definitions ++ runner.toList).flatMap Declaration.stores).length =
        ((setting.outsideMessages ++ setting.untilMessages).map fun message =>
          message.bindings.toFinset.card).sum) ∧
    (interaction.toDiagram.WellFormed specification → specification.OwnersKnown →
      ∃ setting definitions runner composed, specification.setting id = .ok setting ∧
        (setting.lifelines.mapM setting.lifelineDefinition).result = .ok definitions ∧
        setting.untilProcess.result = .ok runner ∧
        setting.lifelineDefinitions.result = .ok (definitions ++ runner.toList ++
          [.process Setting.lifelinesName composed])) := by
  constructor
  · intro setting definitions runner found definitionsDone runnerDone
    obtain ⟨rfl, rfl, searched⟩ := setting_facts placed found
    rw [Attempt.result_mapM, mapM_eq_ok_iff] at definitionsDone
    have written := definitionsDone.imp fun actor definition done =>
      Setting.writes_of_lifelineDefinition several searched avoids.outside done
    have writers : ∀ message ∈ setting.outsideMessages,
        setting.specification.writerOf message ∈ setting.lifelines :=
      fun _ member => (Setting.connects_of_mem ends member).writerOf_mem
    obtain ⟨parts, records, same⟩ :=
      Setting.records_of_untilProcess several searched avoids runnerDone
    refine ⟨written, writers, ⟨parts, records, same⟩, ?_⟩
    rw [List.flatMap_append, List.length_append, List.map_append, List.sum_append, ← same,
      Setting.length_of_records records, Setting.length_of_definitions written]
    congr 1
    exact Setting.sum_over_writers distinct writers
  · intro wellFormed ownersKnown
    obtain ⟨setting, found, sound, rfl, rfl⟩ :=
      exists_sound_setting placed wellFormed ownersKnown
    have admits : setting.Admits fun _ => True := ⟨fun _ _ => trivial, fun _ _ => trivial⟩
    obtain ⟨declarations, done, _⟩ := (sound.succeeds_lifelineDefinitions admits).exists_result
    have parallel : ¬ setting.isSequential = true := by
      have many : ¬ setting.lifelines.length ≤ 1 := Nat.not_le.mpr several
      simpa [Setting.isSequential] using many
    have whole := done
    rw [Setting.lifelineDefinitions, if_neg parallel] at done
    obtain ⟨definitions, definitionsDone, rest⟩ := Attempt.result_bind_eq_ok_iff.mp done
    obtain ⟨runner, runnerDone, rest⟩ := Attempt.result_bind_eq_ok_iff.mp rest
    obtain ⟨composed, _, last⟩ := Attempt.result_bind_eq_ok_iff.mp rest
    cases last
    exact ⟨setting, definitions, runner, composed, found, definitionsDone, runnerDone, whole⟩

/-- The errand has four stores outside of its until body, although a message binds the
variable twice, and one inside. -/
theorem bindings_are_stored_once_errand :
    errandSpecification.interaction ⟨0⟩ = .ok errand ∧
      2 ≤ errand.lifelines.length ∧
      errand.lifelines.Nodup ∧
      (∀ place message, errand.toDiagram.Visited false place →
        errand.fragments[place.index]? = some (.message message) →
        errandSpecification.Connects errand.lifelines message) ∧
      errand.toDiagram.AvoidsCritical true ∧
      ∃ setting definitions runner, errandSpecification.setting ⟨0⟩ = .ok setting ∧
        (setting.lifelines.mapM setting.lifelineDefinition).result = .ok definitions ∧
        setting.untilProcess.result = .ok runner ∧
        ((definitions ++ runner.toList).flatMap Declaration.stores).length = 5 := by
  have placed : errandSpecification.interaction ⟨0⟩ = .ok errand := rfl
  have ends : ∀ place message, errand.toDiagram.Visited false place →
      errand.fragments[place.index]? = some (.message message) →
      errandSpecification.Connects errand.lifelines message := by
    intro place message _ present
    have member := Array.mem_of_getElem? present
    simp only [errand, List.mem_toArray, List.mem_cons, List.not_mem_nil, reduceCtorEq,
      FragmentEntry.message.injEq, false_or, or_false] at member
    rcases member with rfl | rfl | rfl <;> decide
  refine ⟨placed, by decide, by decide, ends, avoidsCritical_errand, ?_⟩
  obtain ⟨law, succeeds⟩ := Specification.bindings_are_stored_once placed (by decide)
    (by decide) ends avoidsCritical_errand
  obtain ⟨setting, definitions, runner, _, found, definitionsDone, runnerDone, _⟩ :=
    succeeds wellFormed_errand ownersKnown_errand
  obtain ⟨_, _, _, counted⟩ := law setting definitions runner found definitionsDone runnerDone
  refine ⟨setting, definitions, runner, found, definitionsDone, runnerDone, ?_⟩
  rw [counted]
  obtain ⟨interaction, meetings, placedThere, searched, rfl⟩ :=
    Specification.setting_eq_ok_iff.mp found
  cases placed.symm.trans placedThere
  cases searched
  rfl

end SequenceChart
