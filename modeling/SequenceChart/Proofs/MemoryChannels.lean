import SequenceChart.Proofs.GenerationSuccess
import SequenceChart.Proofs.Loads
import SequenceChart.Proofs.MemoryWrites
import SequenceChart.Proofs.Ownership
import SequenceChart.Proofs.Renderings

/-!
# Channels to the memory

Loads and stores name the memory of the interaction that owns the variable, while
an interaction synchronises with its own memory, hides its own memory channels,
and keeps them away from until fragments.  If an interaction uses no variables but
those it lists, and no other interaction lists them, the two agree: every access
goes to a channel that is shared with the memory, hidden, and internal.
-/

namespace SequenceChart

namespace Diagram

def Meets (diagram : Diagram) (entry : FragmentEntry) : Prop :=
  ∃ place, diagram.Visited true place ∧ diagram.fragments[place.index]? = some entry

/-- An entry that the body comes to binds the variable, or has an expression that
mentions it. -/
def Uses (diagram : Diagram) (id : VariableId) : Prop :=
  ∃ entry, diagram.Meets entry ∧
    (id ∈ entry.bindings ∨ ∃ expression ∈ entry.expressions, diagram.Mentions expression id)

/-- No variables are used but those that entries of the tables bind or read. -/
theorem Uses.of_tables {diagram : Diagram} {good : VariableId → Prop}
    (bindings : ∀ entry ∈ diagram.fragments, ∀ id ∈ entry.bindings, good id)
    (reads : ∀ entry ∈ diagram.expressions, ∀ id ∈ entry.reads, good id) {id : VariableId}
    (uses : diagram.Uses id) : good id := by
  obtain ⟨entry, ⟨place, _, present⟩, isBound | ⟨expression, _, mentioned⟩⟩ := uses
  · exact bindings entry (Array.mem_of_getElem? present) id isBound
  · obtain ⟨reached, last, _, lastPresent, isRead⟩ := mentioned
    exact reads last (Array.mem_of_getElem? lastPresent) id isRead

end Diagram

def Event.memoryChannel : Event → Option String
  | .load memory name => some (qualified memory (getChannel name))
  | .store memory name => some (qualified memory (setChannel name))
  | _ => none

/-- An access is to a memory channel of the list, and an until fragment of the
diagram runs the events of its messages outside of the internal channels. -/
def Piece.IsConfined (diagram : Diagram) (memory internal : List String) : Piece → Prop
  | .event performed => ∀ channel ∈ performed.memoryChannel, channel ∈ memory
  | .call function arguments _ => function = "AnyUntil" →
      ∃ intra child, diagram.Meets (.until intra child) ∧
        arguments = [.events (intra.events internal)]
  | _ => True

namespace Behaviour

def Confined (diagram : Diagram) (memory internal : List String) (behaviour : Behaviour) :
    Prop :=
  ∀ piece ∈ behaviour.pieces, piece.IsConfined diagram memory internal

variable {diagram : Diagram} {memory internal : List String}

private theorem confined_perform {event : Event} {next : Behaviour}
    (kept : ∀ channel ∈ event.memoryChannel, channel ∈ memory)
    (ofNext : next.Confined diagram memory internal) :
    (perform event next).Confined diagram memory internal :=
  List.forall_mem_cons.mpr ⟨kept, List.forall_mem_cons.mpr ⟨trivial, ofNext⟩⟩

private theorem confined_performAll {events : List Event} {next : Behaviour}
    (kept : ∀ event ∈ events, ∀ channel ∈ event.memoryChannel, channel ∈ memory)
    (ofNext : next.Confined diagram memory internal) :
    (performAll events next).Confined diagram memory internal := by
  induction events with
  | nil =>
      exact ofNext
  | cons event rest inductionHypothesis =>
      rw [List.forall_mem_cons] at kept
      exact confined_perform kept.1 (inductionHypothesis kept.2)

private theorem confined_grouped {body : Behaviour}
    (ofBody : body.Confined diagram memory internal) :
    body.grouped.Confined diagram memory internal := by
  refine List.forall_mem_cons.mpr ⟨trivial, List.forall_mem_append.mpr ⟨ofBody, ?_⟩⟩
  simp [Piece.IsConfined]

private theorem confined_wrapped {function : String} {arguments : List Operand} {body : Behaviour}
    (kept : (Piece.call function arguments body).IsConfined diagram memory internal)
    (ofBody : body.Confined diagram memory internal) :
    (wrapped function arguments body).Confined diagram memory internal :=
  List.forall_mem_cons.mpr ⟨kept, confined_grouped ofBody⟩

private theorem confined_idle {body : Behaviour} (ofBody : body.Confined diagram memory internal) :
    body.idle.Confined diagram memory internal :=
  confined_wrapped (fun isUntil => absurd isUntil (by decide)) ofBody

private theorem confined_andThen {first second : Behaviour}
    (ofFirst : first.Confined diagram memory internal)
    (ofSecond : second.Confined diagram memory internal) :
    (andThen first second).Confined diagram memory internal :=
  List.forall_mem_append.mpr ⟨ofFirst, List.forall_mem_cons.mpr ⟨trivial, ofSecond⟩⟩

private theorem composable_confined :
    Composable fun _ behaviour => behaviour.Confined diagram memory internal where
  skip := by simp [Confined, pieces, Piece.IsConfined]
  stop := by simp [Confined, pieces, Piece.IsConfined]
  andThen := confined_andThen
  join ofLeft ofRight :=
    List.forall_mem_append.mpr ⟨ofLeft, List.forall_mem_cons.mpr ⟨trivial, ofRight⟩⟩
  grouped := confined_grouped

end Behaviour

section

variable {setting : Setting} {memory internal : List String}

/-- A variable that only one interaction lists is kept in the memory of that
interaction, which has channels for it. -/
theorem Specification.Built.mem_memoryChannels {specification : Specification}
    (built : specification.Built) {owner : InteractionId} {interaction : Interaction}
    (placed : specification.interaction owner = .ok interaction)
    (memoryDone : specification.memoryChannels owner = .ok memory) {id : VariableId}
    (listed : id ∈ interaction.locals)
    (once : ∀ other, specification.Lists other id → other = owner)
    {access : String → String → Event} {event : Event}
    (isAccess : specification.IsAccess access id event)
    (concerns : ∀ space name, ∀ channel ∈ (access space name).memoryChannel,
      channel ∈ Specification.cellChannels space name) :
    ∀ channel ∈ event.memoryChannel, channel ∈ memory := by
  obtain ⟨found, space, foundDone, spaceDone, rfl⟩ := isAccess
  have isListed : specification.Lists owner id :=
    ⟨interaction, entryAt_eq_ok_iff.mp placed, listed⟩
  obtain ⟨same, sameDone, owned⟩ := built.owner_eq isListed once
  cases foundDone.symm.trans sameDone
  have ownSpace : space = memoryName interaction.name := by
    obtain ⟨again, againDone, rest⟩ := Attempt.result_bind_eq_ok_iff.mp spaceDone
    cases againDone.symm.trans foundDone
    rw [owned] at rest
    obtain ⟨there, thereDone, last⟩ := Attempt.result_bind_eq_ok_iff.mp rest
    cases thereDone.symm.trans placed
    cases last
    rfl
  obtain ⟨there, thereDone, rest⟩ := bind_eq_ok_iff.mp memoryDone
  cases thereDone.symm.trans placed
  obtain ⟨kept, keptDone, last⟩ := bind_eq_ok_iff.mp rest
  cases last
  obtain ⟨cell, isCell, cellDone⟩ := exists_right_of_mem (mapM_eq_ok_iff.mp keptDone) listed
  cases foundDone.symm.trans cellDone
  intro channel isChannel
  refine List.mem_flatMap.mpr ⟨found, isCell, ?_⟩
  rw [← ownSpace]
  exact concerns space found.name channel isChannel

/-- All accesses to variables that the diagram uses are to channels of the list. -/
structure Setting.Owns (setting : Setting) (memory : List String) : Prop where
  loads : ∀ id event, setting.interaction.toDiagram.Uses id →
    setting.specification.IsAccess .load id event →
    ∀ channel ∈ event.memoryChannel, channel ∈ memory
  stores : ∀ id event, setting.interaction.toDiagram.Uses id →
    setting.specification.IsAccess .store id event →
    ∀ channel ∈ event.memoryChannel, channel ∈ memory

namespace Setting.Owns

private theorem loadsOf (owns : setting.Owns memory) {ids : List ExpressionId} {loads : List Event}
    (known : ∀ id ∈ ids, ∃ entry, setting.interaction.toDiagram.Meets entry ∧
      id ∈ entry.expressions)
    (done : (setting.loadsOf ids).result = .ok loads) :
    ∀ event ∈ loads, ∀ channel ∈ event.memoryChannel, channel ∈ memory := by
  intro event member
  obtain ⟨expression, isGiven, id, mentioned, isAccess⟩ :=
    Setting.exists_mentioned done member
  obtain ⟨entry, isMet, isOwn⟩ := known expression isGiven
  exact owns.loads id event ⟨entry, isMet, Or.inr ⟨expression, isOwn, mentioned⟩⟩ isAccess

private theorem storesOf (owns : setting.Owns memory) {content : Message}
    (isMet : setting.interaction.toDiagram.Meets (.message content))
    {bound : List VariableId} (known : ∀ id ∈ bound, id ∈ content.bindings)
    {stores : List Event} (done : (setting.specification.stores bound).result = .ok stores) :
    ∀ event ∈ stores, ∀ channel ∈ event.memoryChannel, channel ∈ memory := by
  intro event member
  obtain ⟨id, isBound, isAccess⟩ := Specification.exists_accessed done member
  exact owns.stores id event ⟨_, isMet, Or.inl (known id isBound)⟩ isAccess

end Setting.Owns

/-- Handshakes are no accesses to memory. -/
theorem Synchronisation.memoryChannel_event {synchronisation : Synchronisation}
    {phase : Phase} {id : FragmentId} {event : Event}
    (done : synchronisation.event phase id = .ok event) :
    ∀ channel ∈ event.memoryChannel, channel ∈ memory := by
  obtain ⟨number, _, last⟩ := bind_eq_ok_iff.mp done
  cases last
  simp [Event.memoryChannel]

theorem Setting.memoryChannel_messageEvent {content : Message} {event : Event}
    (done : setting.messageEvent content = .ok event) :
    ∀ channel ∈ event.memoryChannel, channel ∈ memory := by
  obtain ⟨fields, _, rest⟩ := bind_eq_ok_iff.mp done
  obtain ⟨direction, _, last⟩ := bind_eq_ok_iff.mp rest
  cases last
  simp [Event.memoryChannel]

theorem ChoiceArm.IsGuarded.confined {diagram : Diagram} {arm : ChoiceArm}
    (isGuarded : arm.IsGuarded setting) (ofBody : arm.body.Confined diagram memory internal) :
    arm.whole.Confined diagram memory internal := by
  rw [IsGuarded] at isGuarded
  split at isGuarded
  · rw [isGuarded]
    exact ofBody
  · obtain ⟨term, _, whole⟩ := isGuarded
    have enclosed : arm.body.enclose.Confined diagram memory internal :=
      @Composable.enclose _ Behaviour.composable_confined [] _ ofBody
    rw [whole]
    exact List.forall_mem_cons.mpr ⟨trivial, enclosed⟩

/-- What is rendered of the body accesses the channels of the list only. -/
theorem Behaviour.Rendered.confined (owns : setting.Owns memory)
    (internalDone : setting.internalChannels = .ok internal) {shown : List ExpressionId}
    {behaviour : Behaviour}
    (rendered : behaviour.Rendered setting setting.interaction.toDiagram.Meets shown) :
    behaviour.Confined setting.interaction.toDiagram memory internal := by
  have composable : Composable fun _ behaviour =>
      behaviour.Confined setting.interaction.toDiagram memory internal :=
    Behaviour.composable_confined
  have onSkip := composable.skip
  induction rendered with
  | skip =>
      exact onSkip
  | stop =>
      exact composable.stop
  | unsupported _ =>
      simp [Behaviour.Confined, Behaviour.pieces, Piece.IsConfined]
  | message isMet eventDone boundKnown storesDone loadsDone =>
      refine Behaviour.confined_performAll
        (owns.loadsOf (fun id member => ⟨_, isMet, member⟩) loadsDone) ?_
      refine Behaviour.confined_idle
        (Behaviour.confined_perform (Setting.memoryChannel_messageEvent eventDone) ?_)
      exact Behaviour.confined_performAll (owns.storesOf isMet boundKnown storesDone) onSkip
  | wait known loadsDone _ =>
      refine Behaviour.confined_performAll (owns.loadsOf (by simpa using known) loadsDone) ?_
      simp [Behaviour.Confined, Behaviour.pieces, Piece.IsConfined]
  | call known given _ loadsDone _ _ inductionHypothesis =>
      refine Behaviour.confined_performAll (owns.loadsOf given loadsDone)
        (Behaviour.confined_wrapped ?_ inductionHypothesis)
      rintro rfl
      exact absurd known (by decide)
  | remark _ _ inductionHypothesis | deadlineRemark _ _ inductionHypothesis =>
      exact List.forall_mem_cons.mpr
        ⟨trivial, List.forall_mem_cons.mpr ⟨trivial, inductionHypothesis⟩⟩
  | «until» isMet done _ inductionHypothesis =>
      cases internalDone.symm.trans done
      obtain ⟨child, isMet⟩ := isMet
      exact Behaviour.confined_wrapped (fun _ => ⟨_, child, isMet, rfl⟩) inductionHypothesis
  | metUntil entered left =>
      exact Behaviour.confined_idle (Behaviour.confined_perform
        (Synchronisation.memoryChannel_event entered) (Behaviour.confined_perform
          (Synchronisation.memoryChannel_event left) onSkip))
  | choice kind _ areGuarded known loadsDone inductionHypothesis =>
      refine Behaviour.confined_performAll (owns.loadsOf ?_ loadsDone)
        (composable.choice kind ?_)
      · intro id member
        obtain ⟨arm, isArm, guarded⟩ := List.mem_filterMap.mp member
        exact known arm isArm id guarded
      · intro arm member
        exact (areGuarded arm member).confined (inductionHypothesis arm member)
  | sequence _ inductionHypothesis =>
      exact composable.sequence inductionHypothesis
  | interleaving _ inductionHypothesis =>
      exact composable.combine .interleaving inductionHypothesis
  | metPar entered left _ inductionHypothesis =>
      refine composable.metArms ?_ ?_ inductionHypothesis
      · exact fun _ _ ofBody => Behaviour.confined_idle
          (Behaviour.confined_perform (Synchronisation.memoryChannel_event entered) ofBody)
      · exact Behaviour.confined_idle
          (Behaviour.confined_perform (Synchronisation.memoryChannel_event left) onSkip)

end

namespace Setting

variable {setting : Setting} {memory internal : List String}

/-- The processes that an interaction prints: what any viewpoint sees of its body,
the definition of a lifeline, and the process that runs until fragments. -/
inductive HasProcess (setting : Setting) : Behaviour → Prop
  | body {view : Viewpoint} {behaviour : Behaviour} :
      (setting.projectBody view).result = .ok behaviour → HasProcess setting behaviour
  | lifeline {actor : ActorId} {name : String} {behaviour : Behaviour} :
      (setting.lifelineDefinition actor).result = .ok (.process name behaviour) →
      HasProcess setting behaviour
  | until {name : String} {behaviour : Behaviour} :
      setting.untilProcess.result = .ok (some (.process name behaviour)) →
      HasProcess setting behaviour

theorem Owns.confined_projectSequence (owns : setting.Owns memory)
    (internalDone : setting.internalChannels = .ok internal) {view : Viewpoint}
    {seen : Option Behaviour}
    (done : (setting.projectSequence view setting.body).result = .ok seen) :
    (seen.getD .skip).Confined setting.interaction.toDiagram memory internal := by
  have seenAs := seenAs_projectSequence done fun place entry visited present =>
    (⟨place, visited, present⟩ : setting.interaction.toDiagram.Meets entry)
  exact seenAs.getD.confined owns internalDone

/-- The branch of the until process for a fragment that is visited. -/
theorem Owns.confined_untilBranch (owns : setting.Owns memory)
    (internalDone : setting.internalChannels = .ok internal) {id : FragmentId}
    (visited : setting.interaction.toDiagram.Visited true id) {branch : Behaviour}
    (done : (setting.untilBranch internal id).result = .ok branch) :
    branch.Confined setting.interaction.toDiagram memory internal := by
  obtain ⟨intra, child, inner, enter, leave, present, innerDone, entered, left, rfl⟩ :=
    exists_of_untilBranch done
  obtain ⟨start, inBody, path⟩ := visited
  have seenAs := seenAs_project innerDone fun place entry further found =>
    (⟨place, ⟨start, inBody, (path.tail ⟨_, present, List.mem_cons_self⟩).trans further⟩,
      found⟩ : setting.interaction.toDiagram.Meets entry)
  have isMet : setting.interaction.toDiagram.Meets (.until intra child) :=
    ⟨id, ⟨start, inBody, path⟩, present⟩
  have run : ((untilHeader intra internal).around (inner.getD .skip)).Confined
      setting.interaction.toDiagram memory internal :=
    Behaviour.confined_wrapped (fun _ => ⟨intra, child, isMet, rfl⟩)
      (seenAs.getD.confined owns internalDone)
  refine Behaviour.confined_grouped (Behaviour.confined_andThen
    (Behaviour.confined_perform (Synchronisation.memoryChannel_event entered) run)
    (Behaviour.confined_perform (Synchronisation.memoryChannel_event left) ?_))
  simp [Behaviour.Confined, Behaviour.pieces, Piece.IsConfined]

/-- Every process that the interaction prints is confined. -/
theorem Owns.confined (owns : setting.Owns memory)
    (internalDone : setting.internalChannels = .ok internal)
    (searched : Fragment.listMeetings setting.body = .ok setting.meetings)
    {process : Behaviour} (isProcess : setting.HasProcess process) :
    process.Confined setting.interaction.toDiagram memory internal := by
  have onFinished : Behaviour.finished.Confined setting.interaction.toDiagram memory internal := by
    simp [Behaviour.Confined, Behaviour.finished, Behaviour.pieces, Piece.IsConfined]
  have composable := @Behaviour.composable_confined setting.interaction.toDiagram memory internal
  cases isProcess with
  | body done =>
      obtain ⟨seen, seenDone, last⟩ := Attempt.result_bind_eq_ok_iff.mp done
      cases last
      exact owns.confined_projectSequence internalDone seenDone
  | lifeline done =>
      obtain ⟨seen, seenDone, rest⟩ := Attempt.result_bind_eq_ok_iff.mp done
      obtain ⟨name, _, last⟩ := Attempt.result_bind_eq_ok_iff.mp rest
      cases last
      have ofSeen := owns.confined_projectSequence internalDone seenDone
      cases seen with
      | none =>
          exact onFinished
      | some behaviour =>
          exact Behaviour.confined_andThen ofSeen onFinished
  | «until» done =>
      rw [untilProcess] at done
      split at done
      · obtain ⟨channels, channelsDone, rest⟩ := Attempt.result_bind_eq_ok_iff.mp done
        cases internalDone.symm.trans channelsDone
        obtain ⟨branches, branchesDone, last⟩ := Attempt.result_bind_eq_ok_iff.mp rest
        cases last
        rw [Attempt.result_mapM, mapM_eq_ok_iff] at branchesDone
        have each : ∀ part ∈ branches.map fun branch => (([] : List ExpressionId), branch),
            part.2.Confined setting.interaction.toDiagram memory internal := by
          intro part member
          obtain ⟨branch, isBranch, rfl⟩ := List.mem_map.mp member
          obtain ⟨id, isRecorded, branchDone⟩ := exists_left_of_mem branchesDone isBranch
          exact owns.confined_untilBranch internalDone
            (visited_of_recorded searched (mem_fragments .until isRecorded)).fully branchDone
        have start : (Behaviour.perform (.signal finish) .skip).Confined
            setting.interaction.toDiagram memory internal :=
          Behaviour.confined_perform (by simp [Event.memoryChannel]) composable.skip
        have whole := @Composable.joinAll _ composable .externalChoice
          ([], .perform (.signal finish) .skip) _ start each
        simpa [Function.comp_def] using whole
      · cases done

end Setting

/-! ## The main process -/

def Behaviour.hiddenChannels : Behaviour → List String
  | .hiding _ (.productions channels) => channels
  | _ => []

/-- The process has another one at its side, with which it shares channels. -/
def Behaviour.SharesWith (partner : String) (shared : List String) (behaviour : Behaviour) :
    Prop :=
  ∃ left ending hidden, behaviour = .hiding (.grouped (.synchronised left (.productions shared)
    (.grouped (.interrupted (.named partner) ending)))) hidden

def EventSet.LeavesOut (channel : String) (set : EventSet) : Prop :=
  ∃ removed, set = .without (.productions removed) ∧ channel ∈ removed

namespace Setting

variable {setting : Setting} {memory internal : List String}

/-- The channel belongs to the memory, which the main process shares it with, and it
is hidden and internal. -/
structure Encloses (setting : Setting) (memory internal : List String) (channel : String) :
    Prop where
  kept : channel ∈ memory
  shared : ∃ shared, (setting.mainBehaviour memory).SharesWith
    (qualified (memoryName setting.interaction.name) "Init") shared ∧ channel ∈ shared
  hidden : channel ∈ (setting.mainBehaviour memory).hiddenChannels
  internal : channel ∈ internal

theorem mem_internalChannels_iff
    (memoryDone : setting.specification.memoryChannels setting.id = .ok memory)
    (internalDone : setting.internalChannels = .ok internal) {channel : String} :
    channel ∈ internal ↔ channel ∈ [tock, finish, terminate] ∨
      channel ∈ setting.handshakeChannels ∨ channel ∈ memory := by
  obtain ⟨kept, keptDone, last⟩ := bind_eq_ok_iff.mp internalDone
  cases memoryDone.symm.trans keptDone
  cases last
  simp only [List.mem_append, or_assoc]

/-- Every channel that the main process hides is internal. -/
theorem mem_internal_of_hidden
    (memoryDone : setting.specification.memoryChannels setting.id = .ok memory)
    (internalDone : setting.internalChannels = .ok internal) {channel : String}
    (hidden : channel ∈ (setting.mainBehaviour memory).hiddenChannels) :
    channel ∈ internal := by
  have ofSignals : channel ∈ setting.hiddenSignals → channel ∈ internal := by
    intro isSignal
    rw [mem_internalChannels_iff memoryDone internalDone]
    rcases List.mem_append.mp isSignal with isHandshake | isFinish
    · exact Or.inr (Or.inl isHandshake)
    · split at isFinish
      · cases isFinish
      · exact Or.inl (List.mem_cons_of_mem _ (by simpa using Or.inl isFinish))
  rw [mainBehaviour] at hidden
  split at hidden
  · split at hidden
    · cases hidden
    · exact ofSignals hidden
  · rcases List.mem_append.mp hidden with isSignal | isShared
    · exact ofSignals isSignal
    · rw [mem_internalChannels_iff memoryDone internalDone]
      rcases List.mem_append.mp isShared with isKept | isTerminate
      · exact Or.inr (Or.inr isKept)
      · exact Or.inl (by simpa using Or.inr (Or.inr isTerminate))

/-- With a memory channel, the main process has the memory at its side. -/
theorem encloses_of_mem
    (memoryDone : setting.specification.memoryChannels setting.id = .ok memory)
    (internalDone : setting.internalChannels = .ok internal) {channel : String}
    (kept : channel ∈ memory) : setting.Encloses memory internal channel := by
  have nonempty : ¬ memory.isEmpty = true := by
    rw [List.isEmpty_iff]
    exact List.ne_nil_of_mem kept
  obtain ⟨left, ending, main⟩ : ∃ left ending, setting.mainBehaviour memory =
      .hiding (.grouped (.synchronised left (.productions (memory ++ [terminate]))
        (.grouped (.interrupted
          (.named (qualified (memoryName setting.interaction.name) "Init")) ending))))
        (.productions (setting.hiddenSignals ++ (memory ++ [terminate]))) :=
    ⟨_, _, if_neg nonempty⟩
  have hidden : channel ∈ (setting.mainBehaviour memory).hiddenChannels := by
    rw [main]
    exact List.mem_append_right _ (List.mem_append_left _ kept)
  exact ⟨kept, ⟨_, ⟨left, ending, _, main⟩, List.mem_append_left _ kept⟩, hidden,
    mem_internal_of_hidden memoryDone internalDone hidden⟩

end Setting

namespace Specification

variable {specification : Specification} {id : InteractionId} {setting : Setting}
  {memory : List String}

private theorem setting_id (found : specification.setting id = .ok setting) : setting.id = id := by
  obtain ⟨_, _, _, _, rfl⟩ := setting_eq_ok_iff.mp found
  rfl

/-- The module of an interaction exports its main process last. -/
theorem exists_main_of_interactionModule {declared : Declaration}
    (done : (specification.interactionModule id).result = .ok declared) :
    ∃ setting memory definitions channels, specification.setting id = .ok setting ∧
      specification.memoryChannels id = .ok memory ∧
      declared = .module setting.interaction.name definitions
        (channels ++ [.process Setting.mainName (setting.mainBehaviour memory)]) := by
  obtain ⟨setting, found, rest⟩ := Attempt.result_bind_eq_ok_iff.mp done
  obtain ⟨definitions, _, rest⟩ := Attempt.result_bind_eq_ok_iff.mp rest
  obtain ⟨untilChannel, _, rest⟩ := Attempt.result_bind_eq_ok_iff.mp rest
  obtain ⟨parChannel, _, rest⟩ := Attempt.result_bind_eq_ok_iff.mp rest
  obtain ⟨memory, memoryDone, last⟩ := Attempt.result_bind_eq_ok_iff.mp rest
  cases last
  exact ⟨setting, memory, definitions, _, found, memoryDone, rfl⟩

/-- An interaction whose variables are its own has channels for all it uses. -/
theorem Built.owns (built : setting.specification.Built)
    (placed : setting.specification.interaction setting.id = .ok setting.interaction)
    (memoryDone : setting.specification.memoryChannels setting.id = .ok memory)
    (own : ∀ used, setting.interaction.toDiagram.Uses used →
      used ∈ setting.interaction.locals)
    (once : ∀ used ∈ setting.interaction.locals, ∀ other,
      setting.specification.Lists other used → other = setting.id) :
    setting.Owns memory := by
  refine ⟨?_, ?_⟩
  · intro used event isUsed isAccess
    exact built.mem_memoryChannels placed memoryDone (own used isUsed)
      (once used (own used isUsed)) isAccess (by simp [Event.memoryChannel, cellChannels])
  · intro used event isUsed isAccess
    exact built.mem_memoryChannels placed memoryDone (own used isUsed)
      (once used (own used isUsed)) isAccess (by simp [Event.memoryChannel, cellChannels])

/-- The variables that a built interaction lists have memory channels. -/
theorem Built.exists_memoryChannels (built : specification.Built) {interaction : Interaction}
    (placed : specification.interaction id = .ok interaction) :
    ∃ memory, specification.memoryChannels id = .ok memory := by
  refine exists_bind_eq_ok ⟨_, placed⟩ ?_
  intro found foundDone
  cases foundDone.symm.trans placed
  refine exists_bind_eq_ok (exists_mapM_eq_ok ?_) fun _ _ => ⟨_, rfl⟩
  intro listed isListed
  exact exists_variableAt (built.filed.localsKnown id listed
    ⟨interaction, entryAt_eq_ok_iff.mp placed, isListed⟩)

end Specification

/-- In a specification that was built, let an interaction use no variables but those it
lists, and let no other interaction list them.  Then every access to memory in one of its
processes, from whatever viewpoint, goes to a memory channel of the interaction, which the
main process shares with the memory and hides, and which is internal.  All that the main
process hides is internal, so no universal until fragment can run it.

The processes and the module exist if the interaction is well formed. -/
theorem Specification.memory_accesses_are_internal {specification : Specification}
    (built : specification.Built) {id : InteractionId} {interaction : Interaction}
    (placed : specification.interaction id = .ok interaction)
    (own : ∀ used, interaction.toDiagram.Uses used → used ∈ interaction.locals)
    (once : ∀ used ∈ interaction.locals, ∀ other, specification.Lists other used →
      other = id) :
    ∃ memory, specification.memoryChannels id = .ok memory ∧
      (∀ setting, specification.setting id = .ok setting →
        ∃ internal, setting.internalChannels = .ok internal ∧
          (∀ process, setting.HasProcess process → ∀ event channel,
            .event event ∈ process.pieces → event.memoryChannel = some channel →
            setting.Encloses memory internal channel) ∧
          (∀ channel ∈ (setting.mainBehaviour memory).hiddenChannels, channel ∈ internal) ∧
          (∀ process, setting.HasProcess process → ∀ arguments body,
            .call "AnyUntil" arguments body ∈ process.pieces →
            ∃ intra child, interaction.toDiagram.Meets (.until intra child) ∧
              arguments = [.events (intra.events internal)] ∧
              (intra = .every → ∀ channel ∈ (setting.mainBehaviour memory).hiddenChannels,
                (intra.events internal).LeavesOut channel)) ∧
          ∀ declared, (specification.interactionModule id).result = .ok declared →
            ∃ definitions channels, declared = .module interaction.name definitions
              (channels ++ [.process Setting.mainName (setting.mainBehaviour memory)])) ∧
      (interaction.toDiagram.WellFormed specification →
        ∃ setting declared, specification.setting id = .ok setting ∧
          (specification.interactionModule id).result = .ok declared ∧
          ∀ view, ∃ process, (setting.projectBody view).result = .ok process) := by
  obtain ⟨memory, memoryDone⟩ := built.exists_memoryChannels placed
  refine ⟨memory, memoryDone, ?_, ?_⟩
  · intro setting found
    obtain ⟨rfl, rfl, searched⟩ := setting_facts placed found
    obtain rfl := setting_id found
    obtain ⟨internal, internalDone⟩ : ∃ internal, setting.internalChannels = .ok internal :=
      exists_bind_eq_ok ⟨memory, memoryDone⟩ fun _ _ => ⟨_, rfl⟩
    have owns := built.owns placed memoryDone own once
    have hiddenInternal : ∀ channel ∈ (setting.mainBehaviour memory).hiddenChannels,
        channel ∈ internal :=
      fun _ => Setting.mem_internal_of_hidden memoryDone internalDone
    refine ⟨internal, internalDone, ?_, hiddenInternal, ?_, ?_⟩
    · intro process isProcess event channel performed isChannel
      exact Setting.encloses_of_mem memoryDone internalDone
        (owns.confined internalDone searched isProcess _ performed channel isChannel)
    · intro process isProcess arguments body called
      obtain ⟨intra, child, isMet, given⟩ :=
        owns.confined internalDone searched isProcess _ called rfl
      refine ⟨intra, child, isMet, given, ?_⟩
      rintro rfl channel hidden
      have isInternal := hiddenInternal channel hidden
      have nonempty : ¬ internal.isEmpty = true := by
        rw [List.isEmpty_iff]
        exact List.ne_nil_of_mem isInternal
      exact ⟨internal, if_neg nonempty, isInternal⟩
    · intro declared done
      obtain ⟨_, _, definitions, channels, sameFound, sameMemory, written⟩ :=
        exists_main_of_interactionModule done
      cases found.symm.trans sameFound
      cases memoryDone.symm.trans sameMemory
      exact ⟨definitions, channels, written⟩
  · intro wellFormed
    obtain ⟨setting, found, sound, rfl, rfl⟩ :=
      exists_sound_setting placed wellFormed built.linked.ownersKnown
    obtain rfl := setting_id found
    have admits : setting.Admits fun _ => True := ⟨fun _ _ => trivial, fun _ _ => trivial⟩
    obtain ⟨declared, done, _⟩ := (sound.succeeds_interactionModule admits found).exists_result
    refine ⟨setting, declared, found, done, ?_⟩
    intro view
    obtain ⟨process, processDone, _⟩ := (sound.succeeds_projectBody admits view).exists_result
    exact ⟨process, processDone⟩

def handoverSetting : Setting where
  specification := handoverSpecification
  id := ⟨0⟩
  interaction := ⟨handover, ⟨0⟩⟩
  meetings := [⟨.until, ⟨5⟩⟩]

/-- The until process of the handover loads the variable of the handover, which no
universal until fragment can touch. -/
theorem memory_accesses_are_internal_handover :
    handoverSpecification.Built ∧
      handoverSpecification.interaction ⟨0⟩ = .ok ⟨handover, ⟨0⟩⟩ ∧
      (∀ used, handover.Uses used → used ∈ handover.locals) ∧
      (∀ used ∈ handover.locals, ∀ other, handoverSpecification.Lists other used →
        other = ⟨0⟩) ∧
      handoverSpecification.setting ⟨0⟩ = .ok handoverSetting ∧
      ∃ name process internal,
        handoverSetting.untilProcess.result = .ok (some (.process name process)) ∧
        .event (.load "Memory_Handover" "x") ∈ process.pieces ∧
        handoverSetting.internalChannels = .ok internal ∧
        handoverSetting.Encloses ["Memory_Handover::get_x", "Memory_Handover::set_x"] internal
          "Memory_Handover::get_x" := by
  have bound : ∀ entry ∈ handover.fragments, ∀ used ∈ entry.bindings,
      used ∈ handover.locals := by decide
  have read : ∀ entry ∈ handover.expressions, ∀ used ∈ entry.reads,
      used ∈ handover.locals := by decide
  have own : ∀ used, handover.Uses used → used ∈ handover.locals :=
    fun used uses => uses.of_tables bound read
  have once : ∀ used ∈ handover.locals, ∀ other, handoverSpecification.Lists other used →
      other = ⟨0⟩ := by
    rintro used _ ⟨index⟩ ⟨interaction, present, _⟩
    obtain ⟨inside, _⟩ := Array.getElem?_eq_some_iff.mp present
    have first : index < 1 := inside
    exact congrArg TableId.mk (by omega)
  obtain ⟨memory, memoryDone, law, _⟩ := Specification.memory_accesses_are_internal
    built_handover (show handoverSpecification.interaction ⟨0⟩ = .ok ⟨handover, ⟨0⟩⟩ from rfl)
    own once
  cases memoryDone
  obtain ⟨internal, internalDone, accesses, _⟩ := law handoverSetting rfl
  have process : ∃ name process,
      handoverSetting.untilProcess.result = .ok (some (.process name process)) ∧
        .event (.load "Memory_Handover" "x") ∈ process.pieces :=
    ⟨_, _, rfl, by decide⟩
  obtain ⟨name, process, processDone, loads⟩ := process
  exact ⟨built_handover, rfl, own, once, rfl, name, process, internal, processDone, loads,
    internalDone, accesses process (.until processDone) _ _ loads rfl⟩

end SequenceChart
