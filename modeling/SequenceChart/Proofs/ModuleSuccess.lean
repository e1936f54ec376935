import SequenceChart.InteractionModule
import SequenceChart.Proofs.ProjectionSuccess

/-!
# Modules of sound interactions

In a sound setting the module of the interaction can be written: its lifelines
are projected and composed, the until process finds an until fragment at every
place that was recorded as one, and the channels of handshakes have numbers.
Nothing is asked of the lifelines beyond that they are actors; there may be
none, and one may be listed twice.
-/

namespace SequenceChart

namespace Fragment

/-- The messages of a list are those of its fragments. -/
theorem listMessages_eq (fragments : List Fragment) :
    listMessages fragments =
      (do let parts ← fragments.mapM messages; return parts.flatten) := by
  induction fragments with
  | nil =>
      rfl
  | cons fragment rest inductionHypothesis =>
      simp [listMessages, inductionHypothesis]

private theorem exists_listMessages {fragments : List Fragment} {good : Message → Prop}
    (each : ∀ fragment ∈ fragments,
      ∃ found, fragment.messages = .ok found ∧ ∀ message ∈ found, good message) :
    ∃ found, listMessages fragments = .ok found ∧ ∀ message ∈ found, good message := by
  rw [listMessages_eq]
  exact exists_mapM_flatten each

/-- The messages of a sound fragment are sent by actors that exist. -/
theorem Sound.exists_messages {specification : Specification} {diagram : Diagram}
    {fragment : Fragment} (sound : fragment.Sound specification diagram) :
    ∃ found, fragment.messages = .ok found ∧
      ∀ message ∈ found, message.sender.index < specification.actors.size := by
  induction sound with
  | @message content _ actorsKnown _ _ =>
      refine ⟨[content], rfl, ?_⟩
      intro message member
      cases List.mem_singleton.mp member
      exact actorsKnown content.sender List.mem_cons_self
  | wait | deadlock | create | «until» =>
      exact ⟨[], rfl, by simp⟩
  | branch _ _ inductionHypothesis | par _ _ inductionHypothesis
  | operand _ _ inductionHypothesis =>
      exact exists_listMessages inductionHypothesis
  | loop _ _ _ inductionHypothesis | duration _ _ _ inductionHypothesis
  | deadline _ _ _ inductionHypothesis | critical _ _ inductionHypothesis
  | deferred _ inductionHypothesis =>
      exact inductionHypothesis

end Fragment

namespace Setting

variable {setting : Setting} {allowed : Notice → Prop}

namespace Sound

/-- What was recorded as a meeting is one. -/
theorem standsIn (sound : setting.Sound) :
    ∀ meeting ∈ setting.meetings, meeting.StandsIn setting.interaction.toDiagram := by
  obtain ⟨found, done, stand⟩ := Fragment.exists_listMeetings fun fragment member =>
    (sound.sound_body fragment member).exists_meetings
  cases done.symm.trans sound.searched
  exact stand

theorem exists_links (sound : setting.Sound) : ∃ links, setting.links = .ok links := by
  obtain ⟨messages, done, sendersKnown⟩ := Fragment.exists_listMessages fun fragment member =>
    (sound.sound_body fragment member).exists_messages
  refine exists_bind_eq_ok ⟨messages, done⟩ ?_
  intro found same
  cases same.symm.trans done
  refine exists_mapM_eq_ok fun message member => ?_
  exact exists_bind_eq_ok (Specification.exists_directionOf (sendersKnown message member))
    fun _ _ => ⟨_, rfl⟩

private theorem exists_participantProcess (sound : setting.Sound) {participant : Participant}
    (member : participant ∈ setting.participants) :
    ∃ process, setting.participantProcess participant = .ok process := by
  cases participant with
  | untilProcess =>
      exact ⟨_, rfl⟩
  | lifeline actor =>
      have isLifeline : actor ∈ setting.lifelines := by
        rcases List.mem_append.mp member with isMapped | isUntil
        · obtain ⟨other, isOther, same⟩ := List.mem_map.mp isMapped
          cases same
          exact isOther
        · split at isUntil <;> simp at isUntil
      have known := sound.wellFormed.lifelinesKnown actor isLifeline
      exact exists_bind_eq_ok
        (exists_bind_eq_ok (Specification.exists_actor known) fun _ _ => ⟨_, rfl⟩)
        fun _ _ => ⟨_, rfl⟩

end Sound

/-- A step behind a lifeline has a label, if there are lifelines at all. -/
theorem exists_stepLabel (links : List Link) (current : ActorId) {next : Participant}
    (rest : List Participant) (nonempty : setting.lifelines ≠ []) :
    ∃ events, setting.stepLabel links (.lifeline current) (next :: rest) = .ok events := by
  cases next with
  | untilProcess =>
      exact ⟨_, rfl⟩
  | lifeline actor =>
      have last : ∃ last, oneLess setting.lifelines.length = .ok last := by
        cases shape : setting.lifelines with
        | nil =>
            exact absurd shape nonempty
        | cons first others =>
            exact ⟨others.length, rfl⟩
      exact exists_bind_eq_ok (exists_bind_eq_ok last fun _ _ => ⟨_, rfl⟩) fun _ _ => ⟨_, rfl⟩

/-- The steps behind lifelines exist, with the until process behind the last. -/
theorem exists_parallelSteps (links : List Link) (nonempty : setting.lifelines ≠ [])
    {actors : List ActorId} {last : List Participant} (atMostOne : last.length ≤ 1)
    (named : ∀ participant ∈ actors.map .lifeline ++ last,
      ∃ process, setting.participantProcess participant = .ok process) :
    ∃ steps, Behaviour.parallelSteps setting.participantProcess (setting.stepLabel links)
      (actors.map .lifeline ++ last) = .ok steps := by
  induction actors with
  | nil =>
      match last with
      | [] =>
          exact ⟨[], rfl⟩
      | [_] =>
          exact ⟨[], rfl⟩
  | cons current actors inductionHypothesis =>
      have later := inductionHypothesis fun participant member =>
        named participant (List.mem_cons_of_mem _ member)
      rw [List.map_cons, List.cons_append] at named ⊢
      generalize actors.map Participant.lifeline ++ last = others at later named ⊢
      match others with
      | [] =>
          exact ⟨[], rfl⟩
      | next :: rest =>
          exact exists_bind_eq_ok (exists_stepLabel links current rest nonempty) fun _ _ =>
            exists_bind_eq_ok (named next (by simp)) fun _ _ =>
              exists_bind_eq_ok later fun _ _ => ⟨_, rfl⟩

theorem Sound.exists_composition (sound : setting.Sound) (nonempty : setting.lifelines ≠ []) :
    ∃ composed, setting.composition = .ok composed := by
  refine exists_bind_eq_ok sound.exists_links fun links _ => ?_
  have named := fun participant (member : participant ∈ setting.participants) =>
    sound.exists_participantProcess member
  have atMostOne :
      (if setting.untils.isRequired then [Participant.untilProcess] else []).length ≤ 1 := by
    split <;> simp
  obtain ⟨steps, stepsDone⟩ := exists_parallelSteps links nonempty atMostOne named
  change ∃ composed, Behaviour.parallel _ _ setting.participants = .ok composed
  rw [participants]
  rw [participants] at named
  cases shape : setting.lifelines with
  | nil =>
      exact absurd shape nonempty
  | cons first rest =>
      rw [shape, List.map_cons, List.cons_append] at named stepsDone
      rw [List.map_cons, List.cons_append]
      exact exists_bind_eq_ok (named _ List.mem_cons_self) fun _ _ =>
        exists_bind_eq_ok ⟨steps, stepsDone⟩ fun _ _ => ⟨_, rfl⟩

/-- The fragments numbered for a kind are the meetings of that kind. -/
theorem mem_fragments (kind : HandshakeKind) {id : FragmentId}
    (member : id ∈ (setting.synchronisation kind).fragments) :
    ⟨kind, id⟩ ∈ setting.meetings := by
  rw [synchronisation_eq] at member
  obtain ⟨meeting, isMeeting, rfl⟩ := List.mem_map.mp member
  obtain ⟨recorded, sameKind⟩ := List.mem_filter.mp isMeeting
  cases of_decide_eq_true sameKind
  exact recorded

/-- A branch of the until process runs the body of an until fragment between two
handshakes. -/
theorem exists_of_untilBranch {internal : List String} {id : FragmentId} {branch : Behaviour}
    (done : (setting.untilBranch internal id).result = .ok branch) :
    ∃ intra body inner enter leave,
      setting.interaction.fragments[id.index]? = some (.until intra body) ∧
      ((setting.interaction.fragment body).project setting .until).result = .ok inner ∧
      setting.untils.event .enter id = .ok enter ∧ setting.untils.event .leave id = .ok leave ∧
      branch = .grouped (.andThen
        (.perform enter ((untilHeader intra internal).around (inner.getD .skip)))
        (.perform leave (.named untilProcessName))) := by
  obtain ⟨entry, entryDone, rest⟩ := Attempt.result_bind_eq_ok_iff.mp done
  cases entry with
  | «until» intra body =>
      obtain ⟨inner, innerDone, rest⟩ := Attempt.result_bind_eq_ok_iff.mp rest
      obtain ⟨enter, entered, rest⟩ := Attempt.result_bind_eq_ok_iff.mp rest
      obtain ⟨leave, left, last⟩ := Attempt.result_bind_eq_ok_iff.mp rest
      cases last
      exact ⟨intra, body, inner, enter, leave, entryAt_eq_ok_iff.mp entryDone, innerDone, entered,
        left, rfl⟩
  | _ =>
      cases rest

namespace Sound

private theorem succeeds_untilBranch (sound : setting.Sound) (admits : setting.Admits allowed)
    (internal : List String) {id : FragmentId} (member : id ∈ setting.untils.fragments) :
    (setting.untilBranch internal id).Succeeds allowed := by
  have recorded : ⟨.until, id⟩ ∈ setting.meetings := mem_fragments .until member
  obtain ⟨inside, isUntil⟩ := sound.standsIn _ recorded
  obtain ⟨intra, body, present⟩ := isUntil rfl
  have event := exists_event recorded inside
  have bodyKnown : body.index < setting.interaction.fragments.size :=
    sound.wellFormed.childrenKnown _ (Array.mem_of_getElem? present) body List.mem_cons_self
  have bodySound := sound.wellFormed.sound_fragment sound.wellFormed.fragmentsAcyclic bodyKnown
  refine Attempt.completes_lift_bind ⟨_, entryAt_eq_ok_iff.mpr present⟩ fun entry same => ?_
  cases same.symm.trans (entryAt_eq_ok_iff.mpr present)
  -- the process does not take part in handshakes inside of the body
  refine (sound.succeeds_project admits bodySound fun synchronises => by
    cases synchronises).bind fun inner => ?_
  exact Attempt.completes_lift_bind (event .enter) fun _ _ =>
    Attempt.completes_lift_bind (event .leave) fun _ _ => trivial

theorem succeeds_untilProcess (sound : setting.Sound) (admits : setting.Admits allowed) :
    setting.untilProcess.Succeeds allowed := by
  rw [untilProcess]
  split
  · refine Attempt.completes_lift_bind sound.exists_internalChannels fun internal _ => ?_
    exact (Attempt.succeeds_mapM fun id member =>
      sound.succeeds_untilBranch admits internal member).bind fun _ => trivial
  · exact trivial

private theorem succeeds_lifelineDefinition (sound : setting.Sound)
    (admits : setting.Admits allowed)
    {actor : ActorId} (member : actor ∈ setting.lifelines) :
    (setting.lifelineDefinition actor).Succeeds allowed := by
  have known := sound.wellFormed.lifelinesKnown actor member
  refine (sound.succeeds_projectSequence admits (.lifeline actor)).bind fun _ => ?_
  exact Attempt.completes_lift_bind
    (exists_bind_eq_ok (Specification.exists_actor known) fun _ _ => ⟨_, rfl⟩) fun _ _ => trivial

theorem succeeds_lifelineDefinitions (sound : setting.Sound) (admits : setting.Admits allowed) :
    setting.lifelineDefinitions.Succeeds allowed := by
  rw [lifelineDefinitions]
  split
  · exact ⟨admits.logs _ _, (sound.succeeds_projectBody admits _).bind fun _ => trivial⟩
  · rename_i several
    have nonempty : setting.lifelines ≠ [] := by
      rintro none
      exact several (by simp [isSequential, none])
    refine (Attempt.succeeds_mapM fun actor member =>
      sound.succeeds_lifelineDefinition admits member).bind fun _ => ?_
    refine (sound.succeeds_untilProcess admits).bind fun _ => ?_
    exact Attempt.completes_lift_bind (sound.exists_composition nonempty) fun _ _ => trivial

end Sound

end Setting

/-- The channel of handshakes is declared for at least one fragment. -/
theorem Synchronisation.exists_declaration (synchronisation : Synchronisation) :
    ∃ declared, synchronisation.declaration = .ok declared := by
  rw [declaration]
  split
  · rename_i required
    rw [isRequired, Bool.and_eq_true] at required
    cases shape : synchronisation.fragments with
    | nil =>
        simp [shape] at required
    | cons first rest =>
        exact ⟨_, rfl⟩
  · exact ⟨none, rfl⟩

/-- The module of an interaction with a sound setting can be written. -/
theorem Setting.Sound.succeeds_interactionModule {setting : Setting} {allowed : Notice → Prop}
    (sound : setting.Sound) (admits : setting.Admits allowed)
    (found : setting.specification.setting setting.id = .ok setting) :
    (setting.specification.interactionModule setting.id).Succeeds allowed := by
  refine Attempt.completes_lift_bind ⟨setting, found⟩ fun other same => ?_
  cases same.symm.trans found
  refine (sound.succeeds_lifelineDefinitions admits).bind fun _ => ?_
  exact Attempt.completes_lift_bind setting.untils.exists_declaration fun _ _ =>
    Attempt.completes_lift_bind setting.pars.exists_declaration fun _ _ =>
      Attempt.completes_lift_bind sound.exists_memoryChannels fun _ _ => trivial

end SequenceChart
