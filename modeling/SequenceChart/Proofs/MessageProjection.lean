import SequenceChart.Proofs.Landmarks
import SequenceChart.Proofs.MessageExchange

/-!
# Messages of projections

The lifelines of an interaction synchronise on links, which are found by going
through the messages of the diagram, and each of them performs messages that a
projection finds by itself.  The two agree: the process of a lifeline prints the
messages of the links that have it at one end, in the same order and as often.
A message in the body of an until fragment is on neither side.
-/

namespace SequenceChart

def Piece.exchange? : Reading Event
  | .event (.message content direction fields) => some (.message content direction fields)
  | _ => none

def Behaviour.exchanges (behaviour : Behaviour) : List Event :=
  behaviour.pieces.filterMap Piece.exchange?

theorem Piece.selective_exchange? : Reading.Selective exchange? where
  layout _ := rfl
  remark _ := rfl
  load _ _ := rfl
  handshake _ _ _ := rfl
  call _ _ _ _ := rfl

theorem Message.isFor_lifeline (message : Message) (actor : ActorId) :
    ((Viewpoint.lifeline actor).isFor message.sender ||
      (Viewpoint.lifeline actor).isFor message.receiver) = message.involves actor := by
  simp [Viewpoint.isFor, Message.involves, eq_comm]

namespace Setting

variable {setting : Setting}

/-- The events are the exchanges of the messages, one for one. -/
def Exchanges (setting : Setting) : List Message → List Event → Prop :=
  List.Forall₂ fun message event => setting.messageEvent message = .ok event

/-- Of a message that it takes part in, a lifeline prints one exchange. -/
private theorem filterMap_exchange_message {content : Message} {event : Event}
    {ids : List VariableId} {stores : List Event}
    (eventDone : setting.messageEvent content = .ok event)
    (storesDone : (setting.specification.stores ids).result = .ok stores) :
    (event :: stores).filterMap (fun performed => Piece.exchange? (.event performed)) = [event] :=
  @filterMap_message _ Piece.exchange? true false (fun _ _ _ => rfl) (fun _ _ => rfl) _ _ _ _
    eventDone storesDone

/-- A lifeline prints the exchanges of the messages that involve it. -/
theorem Shows.exchanges {actor : ActorId} {landmarks : List Landmark} {items : List Event}
    (shows : setting.Shows Piece.exchange? (.lifeline actor) landmarks items) :
    setting.Exchanges
      ((landmarks.filterMap Landmark.message?).filter fun message => message.involves actor)
      items := by
  obtain ⟨parts, shown, rfl⟩ := shows
  induction shown with
  | nil =>
      exact .nil
  | cons first _ inductionHypothesis =>
      cases first with
      | @message content event _ _ involved eventDone _ storesDone =>
          rw [Message.isFor_lifeline] at involved
          rw [List.filterMap_cons, Landmark.message?, List.flatten_cons,
            filterMap_exchange_message eventDone storesDone]
          change setting.Exchanges (List.filter _ (content :: _)) _
          rw [List.filter_cons, if_pos involved]
          exact .cons eventDone inductionHypothesis
      | @otherMessage content uninvolved =>
          rw [Message.isFor_lifeline] at uninvolved
          change setting.Exchanges (List.filter _ (content :: _)) _
          rw [List.filter_cons, if_neg (by simp [uninvolved])]
          exact inductionHypothesis
      | @timer timer inner header _ _ _ =>
          have silent : header.readBy Piece.exchange? (inner.getD .skip) = none := by
            cases header <;> rfl
          rw [silent]
          exact inductionHypothesis
      | otherTimer _ =>
          exact inductionHypothesis

end Setting

/-- The process of every lifeline prints the messages of the links that have it at
one end, in the order of the links and as often as they are listed.  None of them
stands in the body of an until fragment only. -/
theorem Specification.lifelines_print_linked_messages {specification : Specification}
    {id : InteractionId} {interaction : Interaction}
    (placed : specification.interaction id = .ok interaction)
    (several : 2 ≤ interaction.lifelines.length)
    (wellFormed : interaction.toDiagram.WellFormed specification)
    (ownersKnown : specification.OwnersKnown)
    (free : interaction.toDiagram.Uncritical) :
    ∃ setting messages links, specification.setting id = .ok setting ∧
      Fragment.listMessages setting.body = .ok messages ∧
      setting.links = .ok links ∧
      List.Forall₂ (fun message link => specification.linkOf message = .ok link)
        messages links ∧
      (∀ actor, ∃ process, (setting.projectBody (.lifeline actor)).result = .ok process ∧
        concatenate (process.pieces.map Piece.text) = process.text ∧
        setting.Exchanges (messages.filter fun message => message.involves actor)
          process.exchanges) ∧
      ∀ message ∈ messages, ∃ place, interaction.toDiagram.Visited false place ∧
        interaction.fragments[place.index]? = some (.message message) := by
  obtain ⟨setting, found, sound, rfl, rfl⟩ := exists_sound_setting placed wellFormed ownersKnown
  obtain ⟨links, linked⟩ := sound.exists_links
  obtain ⟨messages, listed, related⟩ := bind_eq_ok_iff.mp linked
  obtain ⟨visits, visited⟩ := Setting.visited_of_mem_messages listed
  refine ⟨setting, messages, links, found, listed, linked, mapM_eq_ok_iff.mp related, ?_,
    visited⟩
  intro actor
  obtain ⟨seen, done⟩ := sound.exists_projectSequence (.lifeline actor)
  have whole : (setting.projectBody (.lifeline actor)).result = .ok (seen.getD .skip) :=
    Attempt.result_bind_eq_ok_iff.mpr ⟨seen, done, rfl⟩
  have printed := (Setting.shows_of_projectSequence Piece.selective_exchange? several
    sound.searched (Diagram.uncritical_iff.mp free) done).exchanges
  rw [Fragment.filterMap_message_listLandmarks, visits] at printed
  exact ⟨seen.getD .skip, whole, Behaviour.concatenate_pieces _, printed⟩

/-- The giver of the errand prints both gifts and the report, and not what is given
in the until body.  The watcher prints what is passed on to it. -/
theorem lifelines_print_linked_messages_errand :
    errandSpecification.interaction ⟨0⟩ = .ok errand ∧
      2 ≤ errand.lifelines.length ∧
      errand.toDiagram.WellFormed errandSpecification ∧
      errandSpecification.OwnersKnown ∧
      errand.toDiagram.Uncritical ∧
      ∃ setting giver watcher, errandSpecification.setting ⟨0⟩ = .ok setting ∧
        (setting.projectBody (.lifeline ⟨0⟩)).result = .ok giver ∧
        giver.exchanges.length = 3 ∧
        (setting.projectBody (.lifeline ⟨2⟩)).result = .ok watcher ∧
        watcher.exchanges.length = 1 := by
  have placed : errandSpecification.interaction ⟨0⟩ = .ok errand := rfl
  have free : errand.toDiagram.Uncritical :=
    Diagram.uncritical_iff.mpr avoidsCritical_errand.outside
  refine ⟨placed, by decide, wellFormed_errand, ownersKnown_errand, free, ?_⟩
  obtain ⟨setting, messages, links, found, listed, _, _, printed, _⟩ :=
    Specification.lifelines_print_linked_messages placed (by decide) wellFormed_errand
      ownersKnown_errand free
  obtain ⟨interaction, _, placedThere, _, rfl⟩ := Specification.setting_eq_ok_iff.mp found
  cases placed.symm.trans placedThere
  obtain ⟨giver, giverDone, _, ofGiver⟩ := printed ⟨0⟩
  obtain ⟨watcher, watcherDone, _, ofWatcher⟩ := printed ⟨2⟩
  have same : Fragment.listMessages errand.bodyFragments = .ok messages := listed
  cases same
  exact ⟨_, giver, watcher, found, giverDone, ofGiver.length_eq.symm, watcherDone,
    ofWatcher.length_eq.symm⟩

end SequenceChart
