import SequenceChart.Proofs.Bystanders
import SequenceChart.Proofs.CompositionLabels

/-!
# Appending a lifeline that takes no part

An actor that no fragment names may be appended to the lifelines of an interaction.
Expressions, fragments, memory and meetings are read off the tables, which stay as they are,
and with two lifelines or more nothing else depends on their number.  So everything that is
written for the other lifelines stays as it is, and the composition has one more step, at
which no message is shared.
-/

namespace SequenceChart

def Interaction.withLifeline (interaction : Interaction) (actor : ActorId) : Interaction :=
  { interaction with lifelines := interaction.lifelines ++ [actor] }

/-- The specification in which one interaction has one more lifeline. -/
def Specification.withLifeline (specification : Specification) (id : InteractionId)
    (actor : ActorId) : Specification :=
  { specification with
    interactions := specification.interactions.modify id.index fun interaction =>
      interaction.withLifeline actor }

def Setting.withLifeline (setting : Setting) (actor : ActorId) : Setting where
  specification := setting.specification.withLifeline setting.id actor
  id := setting.id
  interaction := setting.interaction.withLifeline actor
  meetings := setting.meetings

namespace Diagram

variable {one other : Diagram}

private theorem unfoldExpression_congr (same : one.expressions = other.expressions) (depth : Nat)
    (id : ExpressionId) : one.unfoldExpression depth id = other.unfoldExpression depth id := by
  induction depth generalizing id with
  | zero =>
      rfl
  | succ depth inductionHypothesis =>
      simp only [unfoldExpression, same, inductionHypothesis]

private theorem expression_congr (same : one.expressions = other.expressions) (id : ExpressionId) :
    one.expression id = other.expression id := by
  rw [expression, expression, same]
  exact unfoldExpression_congr same _ id

private theorem unfoldFragment_congr (same : one.fragments = other.fragments) (depth : Nat)
    (id : FragmentId) : one.unfoldFragment depth id = other.unfoldFragment depth id := by
  induction depth generalizing id with
  | zero =>
      rfl
  | succ depth inductionHypothesis =>
      have operands : one.branchOperand = other.branchOperand := by
        funext follow id
        rw [branchOperand, branchOperand, same]
      simp only [unfoldFragment, same, inductionHypothesis, operands]

private theorem fragment_congr (same : one.fragments = other.fragments) (id : FragmentId) :
    one.fragment id = other.fragment id := by
  rw [fragment, fragment, same]
  exact unfoldFragment_congr same _ id

end Diagram

namespace Interaction

variable (interaction : Interaction) (actor : ActorId)

private theorem expression_withLifeline (id : ExpressionId) :
    (interaction.withLifeline actor).expression id = interaction.expression id :=
  @Diagram.expression_congr (interaction.withLifeline actor).toDiagram interaction.toDiagram rfl id

private theorem fragment_withLifeline (id : FragmentId) :
    (interaction.withLifeline actor).fragment id = interaction.fragment id :=
  @Diagram.fragment_congr (interaction.withLifeline actor).toDiagram interaction.toDiagram rfl id

private theorem bodyFragments_withLifeline :
    (interaction.withLifeline actor).bodyFragments = interaction.bodyFragments :=
  List.map_congr_left fun id _ => interaction.fragment_withLifeline actor id

end Interaction

theorem Expression.term_congr {one other : Specification} (sameVars : one.vars = other.vars)
    (sameConstants : one.constants = other.constants) (expression : Expression) :
    expression.term one = expression.term other := by
  induction expression with
  | var id =>
      simp only [term, Specification.variableAt, sameVars]
  | const id =>
      simp only [term, Specification.constantAt, sameConstants]
  | unary operator operand inductionHypothesis =>
      simp only [term, inductionHypothesis]
  | binary operator left right leftHypothesis rightHypothesis =>
      simp only [term, leftHypothesis, rightHypothesis]
  | deferred content inductionHypothesis =>
      simp only [term, inductionHypothesis]
  | _ =>
      rfl

namespace Specification

variable (specification : Specification) (id : InteractionId) (actor : ActorId)

private theorem interaction_withLifeline (other : InteractionId) :
    (specification.withLifeline id actor).interaction other =
      (specification.interaction other).map fun found =>
        if id.index = other.index then found.withLifeline actor else found := by
  simp only [interaction, withLifeline, entryAt, Array.getElem?_modify, Array.size_modify]
  by_cases same : id.index = other.index
  · simp only [same, if_true]
    cases specification.interactions[other.index]? <;> rfl
  · simp only [same, if_false]
    cases specification.interactions[other.index]? <;> rfl

/-- Memory goes by the names of interactions, and they keep these. -/
@[simp]
theorem memoryOf_withLifeline (variableId : VariableId) :
    (specification.withLifeline id actor).memoryOf variableId =
      specification.memoryOf variableId := by
  unfold memoryOf
  change (liftM (specification.variableAt variableId) >>= _) = _
  congr 1
  funext found
  cases found.owner with
  | none =>
      rfl
  | some owner =>
      simp only [interaction_withLifeline]
      cases specification.interaction owner with
      | error fault =>
          rfl
      | ok interaction =>
          simp only [Except.map]
          split <;> rfl

private theorem accessTo_withLifeline (access : String → String → Event) :
    (specification.withLifeline id actor).accessTo access = specification.accessTo access := by
  funext variableId
  simp only [accessTo, memoryOf_withLifeline]
  rfl

private theorem loads_withLifeline (ids : List VariableId) :
    (specification.withLifeline id actor).loads ids = specification.loads ids := by
  rw [loads, loads, accessTo_withLifeline]

private theorem stores_withLifeline (ids : List VariableId) :
    (specification.withLifeline id actor).stores ids = specification.stores ids := by
  rw [stores, stores, accessTo_withLifeline]

private theorem memoryChannels_withLifeline (other : InteractionId) :
    (specification.withLifeline id actor).memoryChannels other =
      specification.memoryChannels other := by
  simp only [memoryChannels, interaction_withLifeline]
  cases specification.interaction other with
  | error fault =>
      rfl
  | ok interaction =>
      simp only [Except.map]
      split <;> rfl

private theorem termOf_withLifeline (interaction : Interaction) (expressionId : ExpressionId) :
    (specification.withLifeline id actor).termOf (interaction.withLifeline actor).toDiagram
        expressionId =
      specification.termOf interaction.toDiagram expressionId := by
  have sameVars : (specification.withLifeline id actor).vars = specification.vars := rfl
  have sameConstants : (specification.withLifeline id actor).constants =
      specification.constants := rfl
  rw [termOf, termOf, interaction.expression_withLifeline]
  exact Expression.term_congr sameVars sameConstants _

end Specification

namespace Setting

variable (setting : Setting) (actor : ActorId)

private theorem event_withLifeline (kind : HandshakeKind) :
    ((setting.withLifeline actor).synchronisation kind).event =
      (setting.synchronisation kind).event := by
  rw [synchronisation_eq, synchronisation_eq]
  rfl

private theorem kind_withLifeline (kind : HandshakeKind) :
    ((setting.withLifeline actor).synchronisation kind).kind =
      (setting.synchronisation kind).kind := by
  rw [synchronisation_eq, synchronisation_eq]
  rfl

private theorem fragments_withLifeline (kind : HandshakeKind) :
    ((setting.withLifeline actor).synchronisation kind).fragments =
      (setting.synchronisation kind).fragments := by
  rw [synchronisation_eq, synchronisation_eq]
  rfl

section Several

variable {setting} (several : 2 ≤ setting.lifelines.length)

include several

private theorem isRequired_withLifeline (kind : HandshakeKind) :
    ((setting.withLifeline actor).synchronisation kind).isRequired =
      (setting.synchronisation kind).isRequired := by
  have before : 2 ≤ setting.interaction.lifelines.length := several
  have after : 2 ≤ setting.interaction.lifelines.length + 1 := by omega
  rw [synchronisation_eq, synchronisation_eq]
  simp [Synchronisation.isRequired, Interaction.synchronisation, withLifeline,
    Interaction.withLifeline, before, after]

private theorem declaration_withLifeline (kind : HandshakeKind) :
    ((setting.withLifeline actor).synchronisation kind).declaration =
      (setting.synchronisation kind).declaration := by
  rw [Synchronisation.declaration, isRequired_withLifeline actor several, synchronisation_eq,
    synchronisation_eq]
  rfl

private theorem meetsAt_withLifeline : (setting.withLifeline actor).meetsAt = setting.meetsAt := by
  funext view kind
  rw [meetsAt, isRequired_withLifeline actor several]
  rfl

private theorem handshakeChannels_withLifeline :
    (setting.withLifeline actor).handshakeChannels = setting.handshakeChannels := by
  have untilRequired := isRequired_withLifeline actor several .until
  have parRequired := isRequired_withLifeline actor several .par
  have untilKind := setting.kind_withLifeline actor .until
  have parKind := setting.kind_withLifeline actor .par
  simp only [synchronisation] at untilRequired parRequired untilKind parKind
  simp only [handshakeChannels, List.filter_cons, List.filter_nil, untilRequired, parRequired]
  cases setting.untils.isRequired <;> cases setting.pars.isRequired <;> simp [untilKind, parKind]

private theorem internalChannels_withLifeline :
    (setting.withLifeline actor).internalChannels = setting.internalChannels := by
  have sameMemory : (setting.withLifeline actor).specification.memoryChannels setting.id =
      setting.specification.memoryChannels setting.id :=
    setting.specification.memoryChannels_withLifeline setting.id actor setting.id
  rw [internalChannels, internalChannels, handshakeChannels_withLifeline actor several,
    ← sameMemory]
  rfl

end Several

end Setting

/-! ## Projections -/

namespace Setting

variable (setting : Setting) (actor : ActorId)

private theorem termOf_withLifeline : (setting.withLifeline actor).termOf = setting.termOf := by
  funext id
  exact setting.specification.termOf_withLifeline setting.id actor setting.interaction id

private theorem loadsOf_withLifeline : (setting.withLifeline actor).loadsOf = setting.loadsOf := by
  funext ids
  have sameReads : (setting.withLifeline actor).readsOf = setting.readsOf := by
    funext ids
    simp only [readsOf, withLifeline, Interaction.expression_withLifeline]
  rw [loadsOf, loadsOf, sameReads]
  congr 1
  funext read
  exact setting.specification.loads_withLifeline setting.id actor read

private theorem messageEvent_withLifeline :
    (setting.withLifeline actor).messageEvent = setting.messageEvent := by
  funext message
  have sameFields : (setting.withLifeline actor).fieldOf = setting.fieldOf := by
    funext argument
    cases argument with
    | value expression =>
        rw [fieldOf, termOf_withLifeline]
        rfl
    | bind | ignored =>
        rfl
  rw [messageEvent, sameFields]
  rfl

private theorem projectMessage_withLifeline :
    (setting.withLifeline actor).projectMessage = setting.projectMessage := by
  funext view message
  have sameStoring : view.storesFor (setting.withLifeline actor).specification message =
      view.storesFor setting.specification message := by
    cases view <;> rfl
  have sameStores : (setting.withLifeline actor).specification.stores =
      setting.specification.stores :=
    funext (setting.specification.stores_withLifeline setting.id actor)
  simp only [projectMessage, messageEvent_withLifeline, loadsOf_withLifeline, sameStoring,
    sameStores]

@[simp]
theorem timedBody_withLifeline :
    (setting.withLifeline actor).timedBody = setting.timedBody :=
  rfl

@[simp]
theorem unsupported_withLifeline :
    (setting.withLifeline actor).unsupported = setting.unsupported :=
  rfl

private theorem projectGuarded_withLifeline :
    (setting.withLifeline actor).projectGuarded = setting.projectGuarded := by
  funext guard body
  simp only [projectGuarded, loadsOf_withLifeline, termOf_withLifeline]

private theorem projectLoop_withLifeline :
    (setting.withLifeline actor).projectLoop = setting.projectLoop := by
  funext bound body
  have sameHeader : (setting.withLifeline actor).specification.loopHeader
      (setting.withLifeline actor).interaction.toDiagram bound =
        setting.specification.loopHeader setting.interaction.toDiagram bound := by
    simp only [Specification.loopHeader, withLifeline, Interaction.expression_withLifeline,
      Specification.termOf_withLifeline]
  simp only [projectLoop, loadsOf_withLifeline, sameHeader]

private theorem projectDuration_withLifeline :
    (setting.withLifeline actor).projectDuration = setting.projectDuration := by
  funext view owner bound body
  have sameHeader : (setting.withLifeline actor).specification.durationHeader
      (setting.withLifeline actor).interaction.toDiagram bound =
        setting.specification.durationHeader setting.interaction.toDiagram bound := by
    simp only [Specification.durationHeader, withLifeline, Specification.termOf_withLifeline]
  simp only [projectDuration, loadsOf_withLifeline, sameHeader]

private theorem projectArm_withLifeline :
    (setting.withLifeline actor).projectArm = setting.projectArm := by
  funext guard projection
  simp only [projectArm, termOf_withLifeline]

private theorem projectBranch_withLifeline :
    (setting.withLifeline actor).projectBranch = setting.projectBranch := by
  funext kind arms
  simp only [projectBranch, loadsOf_withLifeline]

section Several

variable {setting} (several : 2 ≤ setting.lifelines.length)

include several

private theorem projectDeadline_withLifeline :
    (setting.withLifeline actor).projectDeadline = setting.projectDeadline := by
  funext view owner units body
  have before : ¬ setting.interaction.lifelines.length ≤ 1 := Nat.not_le.mpr several
  have after : ¬ (setting.withLifeline actor).interaction.lifelines.length ≤ 1 := by
    simp only [withLifeline, Interaction.withLifeline, List.length_append, List.length_singleton]
    omega
  have sameHeader : (setting.withLifeline actor).specification.deadlineHeader
      (setting.withLifeline actor).interaction.toDiagram view owner units =
        setting.specification.deadlineHeader setting.interaction.toDiagram view owner units := by
    have sameTerm := setting.termOf_withLifeline actor
    simp only [funext_iff, termOf] at sameTerm
    simp only [Specification.deadlineHeader, before, after, sameTerm]
    rfl
  simp only [projectDeadline, loadsOf_withLifeline, sameHeader]

private theorem projectPar_withLifeline :
    (setting.withLifeline actor).projectPar = setting.projectPar := by
  funext view id arms
  have sameEvent : (setting.withLifeline actor).pars.event = setting.pars.event :=
    setting.event_withLifeline actor .par
  simp only [projectPar, meetsAt_withLifeline actor several, sameEvent]

private theorem projectUntil_withLifeline :
    (setting.withLifeline actor).projectUntil = setting.projectUntil := by
  funext intra body
  simp only [projectUntil, internalChannels_withLifeline actor several]

end Several

end Setting

/-- Nobody sees anything different in an interaction with one more lifeline. -/
theorem Fragment.project_withLifeline {setting : Setting} (actor : ActorId)
    (several : 2 ≤ setting.lifelines.length) (fragment : Fragment) (view : Viewpoint) :
    fragment.project (setting.withLifeline actor) view = fragment.project setting view := by
  have listed : ∀ (fragments : List Fragment) (view : Viewpoint),
      (∀ part ∈ fragments, ∀ view,
        part.project (setting.withLifeline actor) view = part.project setting view) →
      inTurn (projections (setting.withLifeline actor) view fragments) =
        inTurn (projections setting view fragments) := by
    intro fragments view each
    rw [inTurn_projections, inTurn_projections]
    induction fragments with
    | nil =>
        rw [List.mapM_nil, List.mapM_nil]
    | cons part rest inductionHypothesis =>
        rw [List.mapM_cons, List.mapM_cons, each part List.mem_cons_self view,
          inductionHypothesis fun other member => each other (List.mem_cons_of_mem part member)]
  induction fragment using Fragment.inductionOn generalizing view with
  | message content =>
      simp only [project, Setting.projectMessage_withLifeline]
  | wait other units =>
      simp only [project, Setting.loadsOf_withLifeline, Setting.termOf_withLifeline]
  | deadlock other =>
      simp only [project]
  | create id other created =>
      simp only [project, Setting.unsupported_withLifeline]
  | loop bound body inductionHypothesis =>
      simp only [project, inductionHypothesis, Setting.projectLoop_withLifeline]
  | branch kind operands inductionHypothesis =>
      have sameOperands : operandProjections (setting.withLifeline actor) view operands =
          operandProjections setting view operands := by
        rw [operandProjections_eq_map, operandProjections_eq_map]
        exact List.map_congr_left fun operand isOperand => by
          simp only [inductionHypothesis operand isOperand view]
      simp only [project, sameOperands, Setting.projectArm_withLifeline,
        Setting.projectBranch_withLifeline]
  | par id operands inductionHypothesis =>
      simp only [project, listed operands view inductionHypothesis,
        Setting.projectPar_withLifeline actor several]
  | duration owner bound body inductionHypothesis =>
      simp only [project, inductionHypothesis, Setting.timedBody_withLifeline,
        Setting.projectDuration_withLifeline]
  | deadline owner units body inductionHypothesis =>
      simp only [project, inductionHypothesis, Setting.timedBody_withLifeline,
        Setting.projectDeadline_withLifeline actor several]
  | «until» id intra body inductionHypothesis =>
      have sameHandshake : (setting.withLifeline actor).untils.handshake id =
          setting.untils.handshake id := by
        have sameEvent : (setting.withLifeline actor).untils.event = setting.untils.event :=
          setting.event_withLifeline actor .until
        simp only [Synchronisation.handshake, sameEvent]
      simp only [project, inductionHypothesis, Setting.meetsAt_withLifeline actor several,
        Setting.projectUntil_withLifeline actor several, sameHandshake]
  | critical id body inductionHypothesis =>
      simp only [project, inductionHypothesis, Setting.unsupported_withLifeline]
  | operand guard fragments inductionHypothesis =>
      simp only [project, inSequence, listed fragments view inductionHypothesis,
        Setting.projectGuarded_withLifeline]
  | deferred content inductionHypothesis =>
      simp only [project, inductionHypothesis]
  | unresolved fault =>
      simp only [project]

theorem Fragment.projections_withLifeline {setting : Setting} (actor : ActorId)
    (several : 2 ≤ setting.lifelines.length) (view : Viewpoint) (fragments : List Fragment) :
    projections (setting.withLifeline actor) view fragments =
      projections setting view fragments := by
  induction fragments with
  | nil =>
      rfl
  | cons fragment rest inductionHypothesis =>
      simp only [projections, inductionHypothesis, project_withLifeline actor several]

namespace Setting

variable {setting : Setting} (actor : ActorId)

private theorem body_withLifeline : (setting.withLifeline actor).body = setting.body :=
  setting.interaction.bodyFragments_withLifeline actor

section Several

variable (several : 2 ≤ setting.lifelines.length)

include several

private theorem isSequential_withLifeline :
    (setting.withLifeline actor).isSequential = false ∧ setting.isSequential = false := by
  have more : (setting.withLifeline actor).lifelines.length = setting.lifelines.length + 1 :=
    List.length_append
  simp only [isSequential, more, decide_eq_false_iff_not]
  omega

private theorem lifelineDefinition_withLifeline :
    (setting.withLifeline actor).lifelineDefinition = setting.lifelineDefinition := by
  funext other
  simp only [lifelineDefinition, projectSequence, body_withLifeline,
    Fragment.projections_withLifeline actor several]
  rfl

private theorem untilProcess_withLifeline :
    (setting.withLifeline actor).untilProcess = setting.untilProcess := by
  have sameEvent : (setting.withLifeline actor).untils.event = setting.untils.event :=
    setting.event_withLifeline actor .until
  have sameFragments : (setting.withLifeline actor).untils.fragments = setting.untils.fragments :=
    setting.fragments_withLifeline actor .until
  have sameRequired : (setting.withLifeline actor).untils.isRequired =
      setting.untils.isRequired := isRequired_withLifeline actor several .until
  have sameBranch : (setting.withLifeline actor).untilBranch = setting.untilBranch := by
    funext internal id
    have sameFragment : (setting.withLifeline actor).interaction.fragment =
        setting.interaction.fragment :=
      funext (setting.interaction.fragment_withLifeline actor)
    simp only [untilBranch, sameEvent, sameFragment, Fragment.project_withLifeline actor several]
    rfl
  simp only [untilProcess, sameRequired, sameFragments, sameBranch,
    internalChannels_withLifeline actor several]

private theorem mainBehaviour_withLifeline (memory : List String) :
    (setting.withLifeline actor).mainBehaviour memory = setting.mainBehaviour memory := by
  have sameSignals : (setting.withLifeline actor).hiddenSignals = setting.hiddenSignals := by
    obtain ⟨after, before⟩ := isSequential_withLifeline actor several
    rw [hiddenSignals, hiddenSignals, after, before, handshakeChannels_withLifeline actor several]
  simp only [mainBehaviour, sameSignals]
  rfl

private theorem withUntilProcess_withLifeline :
    (setting.withLifeline actor).withUntilProcess = setting.withUntilProcess := by
  have sameRequired : (setting.withLifeline actor).untils.isRequired =
      setting.untils.isRequired := isRequired_withLifeline actor several .until
  funext composed
  rw [withUntilProcess, withUntilProcess, sameRequired]

end Several

end Setting

theorem Specification.setting_withLifeline (specification : Specification) (id : InteractionId)
    (actor : ActorId) :
    (specification.withLifeline id actor).setting id =
      (specification.setting id).map fun setting => setting.withLifeline actor := by
  simp only [setting, interaction_withLifeline, if_true]
  cases specification.interaction id with
  | error fault =>
      rfl
  | ok interaction =>
      change (Fragment.listMeetings (interaction.withLifeline actor).bodyFragments >>= _) =
        Except.map _ (Fragment.listMeetings interaction.bodyFragments >>= _)
      rw [interaction.bodyFragments_withLifeline]
      cases Fragment.listMeetings interaction.bodyFragments <;> rfl

/-! ## The composition -/

/-- The last lifeline is joined to all that are composed before it. -/
theorem nested_append_singleton (label : List ActorId → ActorId → List String)
    (process : ActorId → Behaviour) (before items : List ActorId) (left : Behaviour)
    (last : ActorId) :
    nested label process before left (items ++ [last]) =
      joinedTo label (before ++ items) (nested label process before left items) last
        (process last) := by
  induction items generalizing before left with
  | nil =>
      simp [nested]
  | cons item rest inductionHypothesis =>
      rw [List.cons_append, nested, inductionHypothesis, nested, List.append_assoc]
      rfl

namespace Setting

variable {setting : Setting} {actor : ActorId}

/-- No message goes to or from an actor that no entry of the table names. -/
theorem filter_joins_eq_nil {messages : List Message}
    (listed : Fragment.listMessages setting.body = .ok messages)
    (unnamed : ∀ entry ∈ setting.interaction.fragments, actor ∉ entry.actors)
    (before : List ActorId) :
    (messages.filter fun message => message.joins before actor) = [] := by
  rw [List.filter_eq_nil_iff]
  intro message isMessage
  obtain ⟨place, _, present⟩ := (visited_of_mem_messages listed).2 message isMessage
  have apart := unnamed _ (Array.mem_of_getElem? present)
  simp only [FragmentEntry.actors, List.mem_cons, List.not_mem_nil, or_false, not_or] at apart
  simp [Message.joins, Message.involves, Ne.symm apart.1, Ne.symm apart.2]

/-- The label at which an actor is joined that no entry of the table names. -/
theorem stepEvents_eq_of_unnamed {messages : List Message}
    (listed : Fragment.listMessages setting.body = .ok messages)
    (unnamed : ∀ entry ∈ setting.interaction.fragments, actor ∉ entry.actors)
    {before : List ActorId} (further : actor ∉ before) :
    setting.stepEvents (messages.map setting.specification.link) before actor =
      [tock, finish] ++ setting.handshakeChannels := by
  rw [stepEvents_eq further, filter_joins_eq_nil listed unnamed]
  rfl

/-- The composition has one more step, which joins the last lifeline. -/
theorem composition_withLifeline {found : Actor} {composed : Behaviour}
    (several : 2 ≤ setting.lifelines.length) (distinct : setting.lifelines.Nodup)
    (known : setting.specification.actor actor = .ok found)
    (further : actor ∉ setting.lifelines)
    (unnamed : ∀ entry ∈ setting.interaction.fragments, actor ∉ entry.actors)
    (done : setting.composition = .ok composed) :
    ∃ left, composed = setting.withUntilProcess left ∧
      (setting.withLifeline actor).composition = .ok (setting.withUntilProcess
        (.synchronised (.grouped left)
          (.productions ([tock, finish] ++ setting.handshakeChannels))
          (.named (setting.specification.processName actor)))) := by
  obtain ⟨links, linksDone, _⟩ := bind_eq_ok_iff.mp done
  obtain ⟨messages, listed, _⟩ := bind_eq_ok_iff.mp linksDone
  obtain ⟨first, next, rest, shape⟩ := exists_cons_cons several
  obtain ⟨exist, isNested⟩ := (composition_eq_ok_iff listed distinct shape).mp done
  refine ⟨_, isNested, ?_⟩
  have lifelines : (setting.withLifeline actor).lifelines = setting.lifelines ++ [actor] := rfl
  have stillListed : Fragment.listMessages (setting.withLifeline actor).body = .ok messages := by
    rw [body_withLifeline]
    exact listed
  have stillDistinct : (setting.withLifeline actor).lifelines.Nodup := by
    rw [lifelines, ← List.concat_eq_append]
    exact distinct.concat further
  have longer : (setting.withLifeline actor).lifelines = first :: next :: (rest ++ [actor]) := by
    rw [lifelines, shape]
    rfl
  have stillExist : (setting.withLifeline actor).PartiesExist messages := by
    refine ⟨?_, exist.senders⟩
    intro other isLifeline
    rcases List.mem_append.mp isLifeline with isOld | isLast
    · exact exist.lifelines other isOld
    · rw [List.mem_singleton.mp isLast]
      exact Specification.known_of_actor known
  have sameEvents : (setting.withLifeline actor).stepEvents = setting.stepEvents := by
    funext links before other
    rw [stepEvents, stepEvents, handshakeChannels_withLifeline actor several]
  refine (composition_eq_ok_iff stillListed stillDistinct longer).mpr ⟨stillExist, ?_⟩
  have absent : actor ∉ [first] ++ next :: rest := by
    rw [shape] at further
    exact further
  have label : setting.stepEvents (messages.map (setting.withLifeline actor).specification.link)
      ([first] ++ next :: rest) actor = [tock, finish] ++ setting.handshakeChannels :=
    stepEvents_eq_of_unnamed listed unnamed absent
  have composed : ¬ ([first] ++ next :: rest).length ≤ 1 := by simp
  rw [nestedComposition, withUntilProcess_withLifeline actor several, sameEvents,
    ← List.cons_append, nested_append_singleton, joinedTo, label, leftSide, if_neg composed]
  rfl

private theorem known_of_lifelineDefinition {definition : Declaration}
    (done : (setting.lifelineDefinition actor).result = .ok definition) :
    actor.index < setting.specification.actors.size := by
  obtain ⟨_, _, named⟩ := Attempt.result_bind_eq_ok_iff.mp done
  obtain ⟨_, nameDone, _⟩ := Attempt.result_bind_eq_ok_iff.mp named
  obtain ⟨_, actorDone, _⟩ := bind_eq_ok_iff.mp nameDone
  exact Specification.known_of_actor actorDone

/-- If the lifelines are defined, only the messages can keep the composition from being
written, and these are the same. -/
theorem composition_error_withLifeline {fault : Fault}
    (several : 2 ≤ setting.lifelines.length) (distinct : setting.lifelines.Nodup)
    (defined : ∀ other ∈ setting.lifelines, ∃ definition,
      (setting.lifelineDefinition other).result = .ok definition)
    (failed : setting.composition = .error fault) :
    (setting.withLifeline actor).composition = .error fault := by
  have sameLinks : (setting.withLifeline actor).links = setting.links := by
    rw [links, links, body_withLifeline]
    rfl
  cases linked : setting.links with
  | error linkFault =>
      rw [composition, sameLinks, linked]
      rw [composition, linked] at failed
      exact failed
  | ok links =>
      obtain ⟨messages, listed, _⟩ := bind_eq_ok_iff.mp linked
      obtain ⟨first, next, rest, shape⟩ := exists_cons_cons several
      have exist : setting.PartiesExist messages := by
        refine ⟨?_, ((links_eq_ok_iff listed).mp linked).1⟩
        intro other isLifeline
        obtain ⟨_, done⟩ := defined other isLifeline
        exact known_of_lifelineDefinition done
      have written := (composition_eq_ok_iff listed distinct shape).mpr ⟨exist, rfl⟩
      cases failed.symm.trans written

/-- The last lifeline has a definition if all others have one. -/
theorem exists_lifelineDefinition {found : Actor} (several : 2 ≤ setting.lifelines.length)
    (distinct : setting.lifelines.Nodup) (known : setting.specification.actor actor = .ok found)
    (unnamed : ∀ entry ∈ setting.interaction.fragments, actor ∉ entry.actors)
    (defined : ∀ other ∈ setting.lifelines, ∃ definition,
      (setting.lifelineDefinition other).result = .ok definition) :
    ∃ own, (setting.lifelineDefinition actor).result =
      .ok (.process (setting.specification.processName actor) own) := by
  have projected : ∀ other ∈ setting.lifelines, ∃ seen,
      (setting.projectSequence (.lifeline other) setting.body).result = .ok seen := by
    intro other isLifeline
    obtain ⟨definition, done⟩ := defined other isLifeline
    obtain ⟨seen, seenDone, _⟩ := Attempt.result_bind_eq_ok_iff.mp done
    exact ⟨seen, seenDone⟩
  choose! others othersDone using projected
  have each : ∀ fragment ∈ setting.body, fragment.JoinedBy setting actor := by
    intro fragment isPart
    obtain ⟨place, _, rfl⟩ := List.mem_map.mp isPart
    exact joinedBy_unfoldFragment several distinct unnamed _ place
  obtain ⟨seen, seenDone, _⟩ := Fragment.accompanies_inSequence each others othersDone
  have seenDone : (setting.projectSequence (.lifeline actor) setting.body).result = .ok seen :=
    seenDone
  have named := Specification.lifelineName_eq (Specification.known_of_actor known)
  simp only [lifelineDefinition, Attempt.result_bind, seenDone, named]
  exact ⟨_, rfl⟩

/-- The definitions of all lifelines, of which the last one is new. -/
theorem result_lifelines_withLifeline (several : 2 ≤ setting.lifelines.length) :
    ((setting.withLifeline actor).lifelines.mapM
        (setting.withLifeline actor).lifelineDefinition).result = do
      let lifelines ← (setting.lifelines.mapM setting.lifelineDefinition).result
      let own ← (setting.lifelineDefinition actor).result
      return lifelines ++ [own] := by
  have lifelines : (setting.withLifeline actor).lifelines = setting.lifelines ++ [actor] := rfl
  rw [lifelineDefinition_withLifeline actor several, lifelines]
  simp only [List.mapM_append, List.mapM_cons, List.mapM_nil, Attempt.result_bind, bind_assoc]
  rfl

end Setting

theorem Specification.processName_eq {specification : Specification} {actor : ActorId}
    {found : Actor} (known : specification.actor actor = .ok found) :
    specification.processName actor = "Lifeline_" ++ found.name := by
  rw [processName, entryAt_eq_ok_iff.mp known]
  rfl

/-- The parts of the module of an interaction with several lifelines. -/
structure ModuleParts where
  /-- The definitions of the lifelines, in order. -/
  lifelines : List Declaration
  /-- The process that runs the bodies of until fragments. -/
  untilProcess : Option Declaration
  /-- All of these processes in parallel. -/
  composed : Behaviour
  /-- The channels of handshakes. -/
  channels : List Declaration
  /-- The exported process. -/
  main : Behaviour

def ModuleParts.declaration (parts : ModuleParts) (name : String) : Declaration :=
  .module name
    (parts.lifelines ++ parts.untilProcess.toList ++
      [.process Setting.lifelinesName parts.composed])
    (parts.channels ++ [.process Setting.mainName parts.main])

namespace Specification

private theorem result_interactionModule {specification : Specification} {id : InteractionId}
    {setting : Setting} (found : specification.setting id = .ok setting)
    (parallel : setting.isSequential = false) :
    (specification.interactionModule id).result = do
      let lifelines ← (setting.lifelines.mapM setting.lifelineDefinition).result
      let untilProcess ← setting.untilProcess.result
      let composed ← setting.composition
      let untilChannel ← setting.untils.declaration
      let parChannel ← setting.pars.declaration
      let memory ← specification.memoryChannels id
      return ModuleParts.declaration
        ⟨lifelines, untilProcess, composed, untilChannel.toList ++ parChannel.toList,
          setting.mainBehaviour memory⟩ setting.interaction.name := by
  rw [interactionModule, found]
  change (setting.lifelineDefinitions >>= _).result = _
  rw [Setting.lifelineDefinitions, parallel]
  simp only [Bool.false_eq_true, if_false, Attempt.result_bind, Attempt.result_liftM, bind_assoc]
  rfl

/-- With one more lifeline, the module has its definition and another composition. -/
theorem result_interactionModule_withLifeline {specification : Specification}
    {id : InteractionId} {setting : Setting} (actor : ActorId)
    (found : specification.setting id = .ok setting) (several : 2 ≤ setting.lifelines.length) :
    ((specification.withLifeline id actor).interactionModule id).result = do
      let lifelines ← (setting.lifelines.mapM setting.lifelineDefinition).result
      let own ← (setting.lifelineDefinition actor).result
      let untilProcess ← setting.untilProcess.result
      let composed ← (setting.withLifeline actor).composition
      let untilChannel ← setting.untils.declaration
      let parChannel ← setting.pars.declaration
      let memory ← specification.memoryChannels id
      return ModuleParts.declaration
        ⟨lifelines ++ [own], untilProcess, composed, untilChannel.toList ++ parChannel.toList,
          setting.mainBehaviour memory⟩ setting.interaction.name := by
  have extended : (specification.withLifeline id actor).setting id =
      .ok (setting.withLifeline actor) := by
    rw [setting_withLifeline, found]
    rfl
  have sameName : (setting.withLifeline actor).interaction.name = setting.interaction.name := rfl
  have sameUntil : (setting.withLifeline actor).untils.declaration =
      setting.untils.declaration := Setting.declaration_withLifeline actor several .until
  have samePar : (setting.withLifeline actor).pars.declaration =
      setting.pars.declaration := Setting.declaration_withLifeline actor several .par
  rw [result_interactionModule extended (Setting.isSequential_withLifeline actor several).1,
    Setting.result_lifelines_withLifeline several, Setting.untilProcess_withLifeline actor several,
    sameUntil, samePar, memoryChannels_withLifeline, sameName]
  simp only [Setting.mainBehaviour_withLifeline actor several, bind_assoc]
  rfl

/-- An actor that no fragment names changes nothing for the other lifelines when it is appended
to them: their definitions, the until process, the handshake channels and the exported process
stay the same.  The composition has one more step, at which only time, the end and the
handshakes are shared.  If there was a fault before, it is the same afterwards. -/
theorem unnamed_lifeline_is_joined_last {specification : Specification} {id : InteractionId}
    {interaction : Interaction} {actor : ActorId} {found : Actor}
    (placed : specification.interaction id = .ok interaction)
    (several : 2 ≤ interaction.lifelines.length) (distinct : interaction.lifelines.Nodup)
    (known : specification.actor actor = .ok found)
    (further : actor ∉ interaction.lifelines)
    (unnamed : ∀ entry ∈ interaction.fragments, actor ∉ entry.actors) :
    (∃ fault, (specification.interactionModule id).result = .error fault ∧
      ((specification.withLifeline id actor).interactionModule id).result = .error fault) ∨
    ∃ setting parts left own,
      specification.setting id = .ok setting ∧
      (specification.interactionModule id).result = .ok
        (ModuleParts.declaration parts interaction.name) ∧
      parts.lifelines.length = interaction.lifelines.length ∧
      parts.composed = setting.withUntilProcess left ∧
      ((specification.withLifeline id actor).interactionModule id).result = .ok
        (ModuleParts.declaration
          { parts with
            lifelines := parts.lifelines ++ [.process ("Lifeline_" ++ found.name) own]
            composed := setting.withUntilProcess
              (.synchronised (.grouped left)
                (.productions ([tock, finish] ++ setting.handshakeChannels))
                (.named ("Lifeline_" ++ found.name))) }
          interaction.name) := by
  cases made : specification.setting id with
  | error fault =>
      refine .inl ⟨fault, ?_, ?_⟩
      · rw [interactionModule, made]
        rfl
      · rw [interactionModule, setting_withLifeline, made]
        rfl
  | ok setting =>
      obtain ⟨_, meetings, isPlaced, _, isSetting⟩ := setting_eq_ok_iff.mp made
      cases placed.symm.trans isPlaced
      obtain ⟨rfl, rfl, rfl⟩ : setting.specification = specification ∧ setting.id = id ∧
          setting.interaction = interaction := by
        rw [isSetting]
        exact ⟨rfl, rfl, rfl⟩
      have several : 2 ≤ setting.lifelines.length := several
      have distinct : setting.lifelines.Nodup := distinct
      rw [result_interactionModule made (Setting.isSequential_withLifeline actor several).2,
        result_interactionModule_withLifeline actor made several]
      obtain ⟨untilChannel, untilDone⟩ := setting.untils.exists_declaration
      obtain ⟨parChannel, parDone⟩ := setting.pars.exists_declaration
      rw [untilDone, parDone]
      -- All steps but the composition are the same, so a fault is met at the same step.
      rcases lifelinesDone : (setting.lifelines.mapM setting.lifelineDefinition).result
        with fault | lifelines
      · exact .inl ⟨fault, rfl, rfl⟩
      have eachDone := lifelinesDone
      rw [Attempt.result_mapM, mapM_eq_ok_iff] at eachDone
      have defined : ∀ other ∈ setting.lifelines, ∃ definition,
          (setting.lifelineDefinition other).result = .ok definition := by
        intro other isLifeline
        obtain ⟨definition, _, done⟩ := exists_right_of_mem eachDone isLifeline
        exact ⟨definition, done⟩
      obtain ⟨own, ownDone⟩ :=
        Setting.exists_lifelineDefinition several distinct known unnamed defined
      rw [ownDone]
      rcases setting.untilProcess.result with fault | untilProcess
      · exact .inl ⟨fault, rfl, rfl⟩
      rcases composedDone : setting.composition with fault | composed
      · rw [Setting.composition_error_withLifeline several distinct defined composedDone]
        exact .inl ⟨fault, rfl, rfl⟩
      obtain ⟨left, isComposed, joined⟩ := Setting.composition_withLifeline several distinct
        known further unnamed composedDone
      rw [joined]
      rcases setting.specification.memoryChannels setting.id with fault | memory
      · exact .inl ⟨fault, rfl, rfl⟩
      rw [processName_eq known]
      exact .inr ⟨setting, ⟨lifelines, untilProcess, composed, _, _⟩, left, own, rfl, rfl,
        eachDone.length_eq.symm, isComposed, rfl⟩

end Specification

/-- The errand in a specification with somebody who has no part in it. -/
def attendedErrand : Specification :=
  { errandSpecification with
    actors := errandSpecification.actors.push ⟨"D", .component⟩
    actorsByName := ("D", ⟨4⟩) :: errandSpecification.actorsByName }

theorem unnamed_lifeline_is_joined_last_errand :
    attendedErrand.interaction ⟨0⟩ = .ok errand ∧ 2 ≤ errand.lifelines.length ∧
      errand.lifelines.Nodup ∧ attendedErrand.actor ⟨4⟩ = .ok ⟨"D", .component⟩ ∧
      ⟨4⟩ ∉ errand.lifelines ∧ (∀ entry ∈ errand.fragments, ⟨4⟩ ∉ entry.actors) ∧
      ∃ setting parts left own,
        attendedErrand.setting ⟨0⟩ = .ok setting ∧
        (attendedErrand.interactionModule ⟨0⟩).result = .ok
          (ModuleParts.declaration parts "Errand") ∧
        parts.lifelines.length = 3 ∧
        parts.composed = setting.withUntilProcess left ∧
        ((attendedErrand.withLifeline ⟨0⟩ ⟨4⟩).interactionModule ⟨0⟩).result = .ok
          (ModuleParts.declaration
            { parts with
              lifelines := parts.lifelines ++ [.process "Lifeline_D" own]
              composed := setting.withUntilProcess
                (.synchronised (.grouped left)
                  (.productions ([tock, finish] ++ setting.handshakeChannels))
                  (.named "Lifeline_D")) }
            "Errand") := by
  have placed : attendedErrand.interaction ⟨0⟩ = .ok errand := rfl
  have known : attendedErrand.actor ⟨4⟩ = .ok ⟨"D", .component⟩ := rfl
  have unnamed : ∀ entry ∈ errand.fragments, ⟨4⟩ ∉ entry.actors := by decide
  have written : (attendedErrand.interactionModule ⟨0⟩).result.isOk = true := by decide +kernel
  refine ⟨placed, by decide, by decide, known, by decide, unnamed, ?_⟩
  rcases Specification.unnamed_lifeline_is_joined_last placed (by decide) (by decide) known
    (by decide) unnamed with ⟨fault, failed, _⟩ | joined
  · rw [failed] at written
    cases written
  · exact joined

end SequenceChart
