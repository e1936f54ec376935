import SequenceChart.Proofs.Pieces
import SequenceChart.Proofs.Visits

/-!
The messages and timers of a fragment are its landmarks.  A projection may drop
whole fragments, but what it prints is what its viewpoint shows of the landmarks,
one after the other in the order in which they are visited: the event and the
stores of a message that concerns it, the call of a timer that it owns, and
nothing of any other.

There is one induction over the shapes of projections for all of this.  What is
looked for in the printed process is left open as a reading.
-/

namespace SequenceChart

/-- What a timer enforces. -/
inductive TimeLimit where
  | deadline (units : ExpressionId)
  | duration (bound : Bound)
  deriving DecidableEq, Repr

/-- A fragment whose time is limited by its owner. -/
structure Timer where
  owner : ActorId
  limit : TimeLimit
  body : Fragment

/-- A fragment that leaves a trace of its own in a projection. -/
inductive Landmark where
  | message (content : Message)
  | timer (content : Timer)

def Landmark.message? : Landmark → Option Message
  | .message content => some content
  | .timer _ => none

def Landmark.timer? : Landmark → Option Timer
  | .message _ => none
  | .timer content => some content

namespace Fragment

def timer? : Fragment → Option Timer
  | .duration owner bound body => some ⟨owner, .duration bound, body⟩
  | .deadline owner units body => some ⟨owner, .deadline units, body⟩
  | _ => none

def landmark? : Fragment → Option Landmark
  | .message content => some (.message content)
  | .duration owner bound body => some (.timer ⟨owner, .duration bound, body⟩)
  | .deadline owner units body => some (.timer ⟨owner, .deadline units, body⟩)
  | _ => none

def landmarks (entering : Bool) (fragment : Fragment) : List Landmark :=
  (fragment.visits entering).filterMap landmark?

def listLandmarks (entering : Bool) (fragments : List Fragment) : List Landmark :=
  (listVisits entering fragments).filterMap landmark?

@[simp]
theorem listLandmarks_eq_flatMap (entering : Bool) (fragments : List Fragment) :
    listLandmarks entering fragments = fragments.flatMap (landmarks entering) := by
  rw [listLandmarks, listVisits_eq_flatMap, List.filterMap_flatMap]
  rfl

@[simp]
theorem landmarks_unguarded (entering : Bool) (fragment : Fragment) :
    fragment.unguarded.landmarks entering = fragment.landmarks entering :=
  filterMap_visits_unguarded (fun _ _ => rfl) entering fragment

@[simp]
theorem bind_message_landmark (visit : Fragment) :
    visit.landmark?.bind Landmark.message? = visit.message? := by
  cases visit <;> rfl

@[simp]
theorem bind_timer_landmark (visit : Fragment) :
    visit.landmark?.bind Landmark.timer? = visit.timer? := by
  cases visit <;> rfl

theorem filterMap_message_landmarks (entering : Bool) (fragment : Fragment) :
    (fragment.landmarks entering).filterMap Landmark.message? =
      (fragment.visits entering).filterMap message? := by
  rw [landmarks, List.filterMap_filterMap]
  exact List.filterMap_congr fun visit _ => bind_message_landmark visit

theorem filterMap_message_listLandmarks (entering : Bool) (fragments : List Fragment) :
    (listLandmarks entering fragments).filterMap Landmark.message? =
      (listVisits entering fragments).filterMap message? := by
  rw [listLandmarks, List.filterMap_filterMap]
  exact List.filterMap_congr fun visit _ => bind_message_landmark visit

theorem filterMap_timer_listLandmarks (entering : Bool) (fragments : List Fragment) :
    (listLandmarks entering fragments).filterMap Landmark.timer? =
      (listVisits entering fragments).filterMap timer? := by
  rw [listLandmarks, List.filterMap_filterMap]
  exact List.filterMap_congr fun visit _ => bind_timer_landmark visit

def AvoidsCritical (entering : Bool) (fragment : Fragment) : Prop :=
  ∀ visit ∈ fragment.visits entering, visit.isCritical = false

private theorem avoidsCritical_of_mem {entering : Bool} {fragments : List Fragment}
    (avoid : ∀ visit ∈ listVisits entering fragments, visit.isCritical = false) :
    ∀ fragment ∈ fragments, fragment.AvoidsCritical entering :=
  fun fragment isPart visit member =>
    avoid visit (mem_listVisits.mpr ⟨fragment, isPart, member⟩)

/-- What is inside of a fragment has no critical region if the fragment has none. -/
theorem AvoidsCritical.inside {entering : Bool} {fragment : Fragment} {inner : List Fragment}
    (avoids : fragment.AvoidsCritical entering)
    (shape : fragment.visits entering = fragment :: inner) :
    ∀ visit ∈ inner, visit.isCritical = false := by
  intro visit member
  exact avoids visit (shape ▸ List.mem_cons_of_mem fragment member)

theorem AvoidsCritical.unguarded {entering : Bool} {fragment : Fragment}
    (avoids : fragment.AvoidsCritical entering) :
    fragment.unguarded.AvoidsCritical entering := by
  cases fragment with
  | operand guard fragments =>
      exact List.forall_mem_cons.mpr ⟨rfl, avoids.inside rfl⟩
  | _ =>
      exact avoids

end Fragment

/-- The header of a timer, in the process of its owner. -/
def TimeLimit.header (setting : Setting) : TimeLimit → Except Fault Header
  | .deadline units => do
      let term ← setting.termOf units
      return .callOn "Deadline" [term]
  | .duration bound =>
      setting.specification.durationHeader setting.interaction.toDiagram bound

/-- `landmark.Shows reading setting view items` means that `items` are read out of
what `view` prints for the landmark itself. -/
inductive Landmark.Shows {β : Type} (reading : Reading β) (setting : Setting)
    (view : Viewpoint) : Landmark → List β → Prop
  | message {content : Message} {event : Event} {storing : Bool} {stores : List Event} :
      (view.isFor content.sender || view.isFor content.receiver) = true →
      setting.messageEvent content = .ok event →
      view.storesFor setting.specification content = .ok storing →
      (setting.specification.stores (if storing then content.bindings else [])).result =
        .ok stores →
      Shows reading setting view (.message content)
        ((event :: stores).filterMap fun performed => reading (.event performed))
  | otherMessage {content : Message} :
      (view.isFor content.sender || view.isFor content.receiver) = false →
      Shows reading setting view (.message content) []
  | timer {timer : Timer} {inner : Option Behaviour} {header : Header} :
      view.isFor timer.owner = true →
      timer.body.Sees setting view inner →
      timer.limit.header setting = .ok header →
      Shows reading setting view (.timer timer)
        (header.readBy reading (inner.getD .skip)).toList
  | otherTimer {timer : Timer} :
      view.isFor timer.owner = false →
      Shows reading setting view (.timer timer) []

namespace Setting

variable {β : Type} {reading : Reading β} {setting : Setting} {view : Viewpoint}

/-- The items are read out of what a viewpoint prints for the landmarks, in order. -/
def Shows (reading : Reading β) (setting : Setting) (view : Viewpoint)
    (landmarks : List Landmark) (items : List β) : Prop :=
  ∃ parts, List.Forall₂ (Landmark.Shows reading setting view) landmarks parts ∧
    parts.flatten = items

theorem Shows.nil : Shows reading setting view [] [] :=
  ⟨[], .nil, rfl⟩

theorem Shows.cons {landmark : Landmark} {landmarks : List Landmark} {items others : List β}
    (first : landmark.Shows reading setting view items)
    (rest : Shows reading setting view landmarks others) :
    Shows reading setting view (landmark :: landmarks) (items ++ others) := by
  obtain ⟨parts, shown, rfl⟩ := rest
  exact ⟨items :: parts, .cons first shown, rfl⟩

theorem Shows.otherTimer {timer : Timer} {landmarks : List Landmark} {items : List β}
    (other : view.isFor timer.owner = false)
    (rest : Shows reading setting view landmarks items) :
    Shows reading setting view (.timer timer :: landmarks) items :=
  .cons (.otherTimer other) rest

theorem Shows.append {first second : List Landmark} {items others : List β}
    (firstShown : Shows reading setting view first items)
    (secondShown : Shows reading setting view second others) :
    Shows reading setting view (first ++ second) (items ++ others) := by
  obtain ⟨parts, shown, rfl⟩ := firstShown
  obtain ⟨further, furtherShown, rfl⟩ := secondShown
  exact ⟨parts ++ further, List.rel_append shown furtherShown, List.flatten_append⟩

theorem Shows.flatMap {α : Type} {parts : List α} {landmarks : α → List Landmark}
    {items : α → List β}
    (each : ∀ part ∈ parts, Shows reading setting view (landmarks part) (items part)) :
    Shows reading setting view (parts.flatMap landmarks) (parts.flatMap items) := by
  induction parts with
  | nil =>
      exact .nil
  | cons part rest inductionHypothesis =>
      rw [List.flatMap_cons, List.flatMap_cons]
      exact (each part List.mem_cons_self).append (inductionHypothesis fun other member =>
        each other (List.mem_cons_of_mem part member))

/-- Nothing is read out of loads. -/
theorem filterMap_loadsOf (selective : reading.Selective) {ids : List ExpressionId}
    {loads : List Event} (done : (setting.loadsOf ids).result = .ok loads) :
    loads.filterMap (fun performed => reading (.event performed)) = [] := by
  obtain ⟨read, _, loadsDone⟩ := Attempt.result_bind_eq_ok_iff.mp done
  rw [List.filterMap_eq_nil_iff]
  intro event member
  obtain ⟨_, found, memory, _, _, rfl⟩ := Specification.exists_access_of_mem loadsDone member
  exact selective.load memory found.name

/-- A reading takes the exchange of a message or not, and its stores or not. -/
theorem filterMap_message {reading : Reading Event} {exchanges stored : Bool}
    (ofMessage : ∀ content direction fields, reading (.event (.message content direction fields)) =
      if exchanges then some (.message content direction fields) else none)
    (ofStore : ∀ memory name, reading (.event (.store memory name)) =
      if stored then some (.store memory name) else none)
    {content : Message} {event : Event} {ids : List VariableId} {stores : List Event}
    (eventDone : setting.messageEvent content = .ok event)
    (storesDone : (setting.specification.stores ids).result = .ok stores) :
    (event :: stores).filterMap (fun performed => reading (.event performed)) =
      (if exchanges then [event] else []) ++ if stored then stores else [] := by
  have ofStores : stores.filterMap (fun performed => reading (.event performed)) =
      if stored then stores else [] := by
    have each : ∀ store ∈ stores, reading (.event store) = if stored then some store else none := by
      intro store member
      obtain ⟨_, found, memory, _, _, rfl⟩ := Specification.exists_access_of_mem storesDone member
      exact ofStore memory found.name
    rw [List.filterMap_congr each]
    cases stored with
    | false =>
        exact List.filterMap_none stores
    | true =>
        exact List.filterMap_some
  obtain ⟨fields, _, rest⟩ := bind_eq_ok_iff.mp eventDone
  obtain ⟨direction, _, last⟩ := bind_eq_ok_iff.mp rest
  cases last
  rw [List.filterMap_cons, ofMessage, ofStores]
  cases exchanges <;> rfl

/-- What is read behind loads is read out of the process behind them. -/
theorem readBy_behind_loadsOf (selective : reading.Selective) {ids : List ExpressionId}
    {loads : List Event} (done : (setting.loadsOf ids).result = .ok loads)
    (next : Behaviour) :
    (Behaviour.performAll loads next).readBy reading = next.readBy reading := by
  rw [Behaviour.readBy_performAll selective, filterMap_loadsOf selective done, List.nil_append]

end Setting

/-- Nothing is read out of handshakes. -/
theorem Synchronisation.reading_event {β : Type} {reading : Reading β}
    (selective : reading.Selective) {synchronisation : Synchronisation} {phase : Phase}
    {id : FragmentId} {event : Event} (done : synchronisation.event phase id = .ok event) :
    reading (.event event) = none := by
  obtain ⟨number, _, last⟩ := bind_eq_ok_iff.mp done
  cases last
  exact selective.handshake _ number phase

/-- The header of a loop is no call of a timer. -/
theorem Specification.readBy_loopHeader {β : Type} {reading : Reading β}
    (selective : reading.Selective) {specification : Specification} {diagram : Diagram}
    {bound : Option Bound} {header : Header}
    (done : specification.loopHeader diagram bound = .ok header) (body : Behaviour) :
    header.readBy reading body = none := by
  match bound with
  | none =>
      cases done
      exact selective.call _ _ _ (by decide)
  | some ⟨none, none⟩ =>
      cases done
  | some ⟨some lower, none⟩ =>
      obtain ⟨_, _, last⟩ := bind_eq_ok_iff.mp done
      cases last
      exact selective.call _ _ _ (by decide)
  | some ⟨none, some upper⟩ =>
      obtain ⟨_, _, last⟩ := bind_eq_ok_iff.mp done
      cases last
      exact selective.call _ _ _ (by decide)
  | some ⟨some lower, some upper⟩ =>
      obtain ⟨fromZero, _, rest⟩ := bind_eq_ok_iff.mp done
      cases fromZero with
      | true =>
          obtain ⟨_, _, last⟩ := bind_eq_ok_iff.mp rest
          cases last
          exact selective.call _ _ _ (by decide)
      | false =>
          obtain ⟨_, _, rest⟩ := bind_eq_ok_iff.mp rest
          obtain ⟨_, _, last⟩ := bind_eq_ok_iff.mp rest
          cases last
          exact selective.call _ _ _ (by decide)

/-! ## What is read out of a projection -/

namespace Fragment

variable {β : Type} {reading : Reading β} {setting : Setting} {view : Viewpoint}

def readSeen (reading : Reading β) (seen : Option Behaviour) : List β :=
  (seen.getD .skip).readBy reading

theorem readSeen_none (selective : reading.Selective) : readSeen reading none = [] :=
  Behaviour.readBy_skip selective

private theorem readSeen_sequenceOf (selective : reading.Selective)
    (seen : List (Option Behaviour)) :
    readSeen reading (sequenceOf seen) = seen.flatMap (readSeen reading) := by
  have relevant : (seen.filterMap id).flatMap (Behaviour.readBy reading) =
      seen.flatMap (readSeen reading) := by
    induction seen with
    | nil =>
        rfl
    | cons part rest inductionHypothesis =>
        rw [List.flatMap_cons, ← inductionHypothesis]
        cases part with
        | none =>
            rw [readSeen_none selective]
            rfl
        | some behaviour =>
            rfl
  rw [← relevant, sequenceOf]
  split
  · rename_i empty
    rw [List.isEmpty_iff.mp empty]
    exact readSeen_none selective
  · exact Behaviour.readBy_sequence selective _

private theorem readBy_metArms (selective : reading.Selective) {enter leave : Event}
    (enterSilent : reading (.event enter) = none)
    (leaveSilent : reading (.event leave) = none)
    (arms : List (Option Behaviour)) :
    (metArms enter leave arms).readBy reading = arms.flatMap (readSeen reading) := by
  have ofArms : (Behaviour.combine .interleaving
      (arms.map fun arm => arm.getD .skip)).readBy reading =
        arms.flatMap (readSeen reading) := by
    rw [Behaviour.readBy_combine selective, List.flatMap_map]
    rfl
  rw [metArms, Behaviour.readBy_sequence selective]
  simp only [List.flatMap_cons, List.flatMap_nil, Behaviour.readBy_idle selective,
    Behaviour.readBy_perform selective, Behaviour.readBy_skip selective, enterSilent,
    leaveSilent, Option.toList_none, List.append_nil, List.nil_append]
  split
  · rw [Behaviour.readBy_grouped selective, ofArms]
  · exact ofArms

theorem IsArm.readBy_eq (selective : reading.Selective) {guard : Option ExpressionId}
    {body : Option Behaviour} {arm : Setting.Arm} (isArm : IsArm setting guard body arm) :
    arm.behaviour.readBy reading = readSeen reading body := by
  cases guard with
  | none =>
      rw [show arm = _ from isArm]
      rfl
  | some condition =>
      obtain ⟨term, _, rfl⟩ := isArm
      rw [Behaviour.readBy_guarded selective, Behaviour.readBy_enclose selective]
      rfl

/-- Parts whose landmarks are shown show those of the list. -/
private theorem shows_parts {entering : Bool} {parts : List (Fragment × Option Behaviour)}
    (each : ∀ part ∈ parts, setting.Shows reading view (part.1.landmarks entering)
      (readSeen reading part.2)) :
    setting.Shows reading view (listLandmarks entering (parts.map Prod.fst))
      ((parts.map Prod.snd).flatMap (readSeen reading)) := by
  rw [listLandmarks_eq_flatMap, List.flatMap_map, List.flatMap_map]
  exact Setting.Shows.flatMap each

/-- Of fragments of which nothing is seen nothing is shown. -/
private theorem shows_nothing (selective : reading.Selective) {entering : Bool}
    {fragments : List Fragment}
    (each : ∀ fragment ∈ fragments, setting.Shows reading view (fragment.landmarks entering)
      (readSeen reading none)) :
    setting.Shows reading view (listLandmarks entering fragments) (readSeen reading none) := by
  have all := Setting.Shows.flatMap each
  rw [readSeen_none selective] at all ⊢
  rwa [← listLandmarks_eq_flatMap, List.flatMap_eq_nil_iff.mpr (by simp)] at all

private theorem readSeen_message (selective : reading.Selective) {ids : List ExpressionId}
    {loads : List Event} (loaded : (setting.loadsOf ids).result = .ok loads) (event : Event)
    (stores : List Event) :
    readSeen reading (some (.performAll loads
      (.idle (.perform event (.performAll stores .skip))))) =
        (event :: stores).filterMap fun performed => reading (.event performed) := by
  rw [readSeen, Option.getD_some, Setting.readBy_behind_loadsOf selective loaded,
    Behaviour.readBy_idle selective, Behaviour.readBy_perform selective,
    Behaviour.readBy_performAll selective, Behaviour.readBy_skip selective, List.append_nil]
  cases read : reading (.event event) <;> simp [read]

private theorem readSeen_headed (selective : reading.Selective) {ids : List ExpressionId}
    {loads : List Event} (loaded : (setting.loadsOf ids).result = .ok loads) (header : Header)
    (body : Behaviour) :
    readSeen reading (some (.performAll loads (header.around body))) =
      (header.readBy reading body).toList ++ body.readBy reading := by
  rw [readSeen, Option.getD_some, Setting.readBy_behind_loadsOf selective loaded,
    Header.readBy_around selective]

/-- What is read out of what is seen is what the viewpoint shows of the landmarks of the
fragment. -/
def IsShown (reading : Reading β) (setting : Setting) (view : Viewpoint) (fragment : Fragment)
    (seen : Option Behaviour) : Prop :=
  setting.Shows reading view (fragment.landmarks !view.synchronises) (readSeen reading seen)

section Constructs

variable (selective : reading.Selective)
include selective

private theorem isShown_message {content : Message} {event : Event} {storing : Bool}
    {stores loads : List Event}
    (involved : (view.isFor content.sender || view.isFor content.receiver) = true)
    (eventDone : setting.messageEvent content = .ok event)
    (storingDone : view.storesFor setting.specification content = .ok storing)
    (storesDone : (setting.specification.stores
      (if storing then content.bindings else [])).result = .ok stores)
    (loadsDone : (setting.loadsOf content.values).result = .ok loads) :
    IsShown reading setting view (.message content)
      (some (.performAll loads (.idle (.perform event (.performAll stores .skip))))) := by
  rw [IsShown, readSeen_message selective loadsDone, ← List.append_nil (List.filterMap _ _)]
  exact .cons (.message involved eventDone storingDone storesDone) .nil

private theorem isShown_otherMessage {content : Message}
    (uninvolved : (view.isFor content.sender || view.isFor content.receiver) = false) :
    IsShown reading setting view (.message content) none := by
  rw [IsShown, readSeen_none selective]
  exact .cons (.otherMessage uninvolved) .nil

private theorem isShown_loop {bound : Option Bound} {body : Fragment} {inner : Behaviour}
    {loads : List Event} {header : Header}
    (loadsDone : (setting.loadsOf (bound.toList.flatMap Bound.sides)).result = .ok loads)
    (headed : setting.specification.loopHeader setting.interaction.toDiagram bound = .ok header)
    (ofBody : IsShown reading setting view body (some inner)) :
    IsShown reading setting view (.loop bound body)
      (some (.performAll loads (header.around inner))) := by
  rw [IsShown, readSeen_headed selective loadsDone,
    Specification.readBy_loopHeader selective headed]
  exact ofBody

private theorem isShown_branch {kind : BranchKind}
    {parts : List (Fragment × Option Behaviour × Setting.Arm)} {loads : List Event}
    (areArms : ∀ part ∈ parts, IsArm setting part.1.guard part.2.1 part.2.2)
    (loadsDone : (setting.loadsOf (parts.filterMap fun part => part.1.guard)).result = .ok loads)
    (each : ∀ part ∈ parts, IsShown reading setting view part.1.unguarded part.2.1) :
    IsShown reading setting view (.branch kind (parts.map Prod.fst))
      (some (.performAll loads
        (Setting.chooseAmong kind (parts.map fun part => part.2.2.behaviour)))) := by
  rw [IsShown, readSeen, Option.getD_some, Setting.readBy_behind_loadsOf selective loadsDone,
    Setting.readBy_chooseAmong selective, List.flatMap_map]
  change setting.Shows reading view (listLandmarks _ (parts.map Prod.fst)) _
  rw [listLandmarks_eq_flatMap, List.flatMap_map]
  apply Setting.Shows.flatMap
  intro part isPart
  rw [(areArms part isPart).readBy_eq selective, ← landmarks_unguarded]
  exact each part isPart

private theorem isShown_otherBranch {kind : BranchKind} {operands : List Fragment}
    (each : ∀ operand ∈ operands, IsShown reading setting view operand.unguarded none) :
    IsShown reading setting view (.branch kind operands) none := by
  apply shows_nothing selective
  intro operand member
  rw [← landmarks_unguarded]
  exact each operand member

private theorem isShown_metPar {id : FragmentId} {parts : List (Fragment × Option Behaviour)}
    {enter leave : Event} (enterDone : setting.pars.event .enter id = .ok enter)
    (leaveDone : setting.pars.event .leave id = .ok leave)
    (each : ∀ part ∈ parts, IsShown reading setting view part.1 part.2) :
    IsShown reading setting view (.par id (parts.map Prod.fst))
      (some (metArms enter leave (parts.map Prod.snd))) := by
  rw [IsShown, readSeen, Option.getD_some,
    readBy_metArms selective (Synchronisation.reading_event selective enterDone)
      (Synchronisation.reading_event selective leaveDone)]
  exact shows_parts each

private theorem isShown_par {id : FragmentId} {parts : List (Fragment × Option Behaviour)}
    (each : ∀ part ∈ parts, IsShown reading setting view part.1 part.2) :
    IsShown reading setting view (.par id (parts.map Prod.fst))
      (some (.combine .interleaving (parts.map fun part => part.2.getD .skip))) := by
  have ofParts : readSeen reading
      (some (.combine .interleaving (parts.map fun part => part.2.getD .skip))) =
        (parts.map Prod.snd).flatMap (readSeen reading) := by
    rw [readSeen, Option.getD_some, Behaviour.readBy_combine selective, List.flatMap_map,
      List.flatMap_map]
    rfl
  rw [IsShown, ofParts]
  exact shows_parts each

/-- The owner of a timer shows the call of it, and what is read out of its body. -/
private theorem isShown_timer {timer : Timer} {whole : Fragment} {ids : List ExpressionId}
    {inner : Option Behaviour} {loads : List Event} {header : Header}
    (isTimer : whole.landmarks (!view.synchronises) =
      .timer timer :: timer.body.landmarks (!view.synchronises))
    (own : view.isFor timer.owner = true) (bodySeen : timer.body.Sees setting view inner)
    (headed : timer.limit.header setting = .ok header)
    (loadsDone : (setting.loadsOf ids).result = .ok loads)
    (ofBody : IsShown reading setting view timer.body inner) :
    IsShown reading setting view whole
      (some (.performAll loads (header.around (inner.getD .skip)))) := by
  rw [IsShown, isTimer, readSeen_headed selective loadsDone]
  exact .cons (.timer own bodySeen headed) ofBody

private theorem isShown_deadline (several : 2 ≤ setting.lifelines.length) {owner : ActorId}
    {units : ExpressionId} {body : Fragment} {inner : Option Behaviour} {loads : List Event}
    {term : Term} (bodySeen : body.Sees setting view inner)
    (enforced : (view.isFor owner || decide (setting.lifelines.length ≤ 1)) = true)
    (loadsDone : (setting.loadsOf [units]).result = .ok loads)
    (found : setting.termOf units = .ok term)
    (ofBody : IsShown reading setting view body inner) :
    IsShown reading setting view (.deadline owner units body)
      (some (.performAll loads (.wrapped "Deadline" [.value term] (inner.getD .skip)))) := by
  have own : view.isFor owner = true := by
    have notAlone : ¬ setting.lifelines.length ≤ 1 := by omega
    simpa [notAlone] using enforced
  have headed : TimeLimit.header setting (.deadline units) =
      .ok (.callOn "Deadline" [term]) := by
    rw [TimeLimit.header, found]
    rfl
  exact @isShown_timer _ _ _ _ selective ⟨owner, .deadline units, body⟩ _ _ _ _ _ rfl own
    bodySeen headed loadsDone ofBody

private theorem isShown_remarkedDeadline {owner : ActorId} {units : ExpressionId}
    {body : Fragment} {inner : Behaviour} (name : String)
    (unenforced : (view.isFor owner || decide (setting.lifelines.length ≤ 1)) = false)
    (ofBody : IsShown reading setting view body (some inner)) :
    IsShown reading setting view (.deadline owner units body)
      (some (.remarked ("deadline on " ++ name) inner)) := by
  have other : view.isFor owner = false := (Bool.or_eq_false_iff.mp unenforced).1
  rw [IsShown, readSeen, Option.getD_some, Behaviour.readBy_remarked selective]
  exact Setting.Shows.otherTimer other ofBody

private theorem isShown_metUntil {id : FragmentId} {intra : MessageSet} {body : Fragment}
    {enter leave : Event} (meets : setting.meetsAt view .until = true)
    (enterDone : setting.untils.event .enter id = .ok enter)
    (leaveDone : setting.untils.event .leave id = .ok leave) :
    IsShown reading setting view (.until id intra body)
      (some (.idle (.performAll [enter, leave] .skip))) := by
  have silent : readSeen reading (some (.idle (.performAll [enter, leave] .skip))) = [] := by
    rw [readSeen, Option.getD_some, Behaviour.readBy_idle selective,
      Behaviour.readBy_performAll selective, Behaviour.readBy_skip selective]
    simp [Synchronisation.reading_event selective enterDone,
      Synchronisation.reading_event selective leaveDone]
  rw [IsShown, silent, Setting.synchronises_of_meetsAt meets]
  exact .nil

private theorem isShown_until {id : FragmentId} {intra : MessageSet} {body : Fragment}
    {inner : Option Behaviour} (internal : List String)
    (ofBody : IsShown reading setting .until body inner) :
    IsShown reading setting .until (.until id intra body)
      (some ((untilHeader intra internal).around (inner.getD .skip))) := by
  have silent : (untilHeader intra internal).readBy reading (inner.getD .skip) = none :=
    selective.call _ _ _ (by decide)
  rw [IsShown, readSeen, Option.getD_some, Header.readBy_around selective, silent]
  exact ofBody

private theorem isShown_operand {guard : Option ExpressionId}
    {parts : List (Fragment × Option Behaviour)}
    (each : ∀ part ∈ parts, IsShown reading setting view part.1 part.2) :
    IsShown reading setting view (.operand guard (parts.map Prod.fst))
      (sequenceOf (parts.map Prod.snd)) := by
  rw [IsShown, readSeen_sequenceOf selective]
  exact shows_parts each

private theorem isShown_guardedOperand {condition : ExpressionId}
    {parts : List (Fragment × Option Behaviour)} {body : Behaviour} {loads : List Event}
    (term : Term) (bodyDone : sequenceOf (parts.map Prod.snd) = some body)
    (loadsDone : (setting.loadsOf [condition]).result = .ok loads)
    (each : ∀ part ∈ parts, IsShown reading setting view part.1 part.2) :
    IsShown reading setting view (.operand (some condition) (parts.map Prod.fst))
      (some (.performAll loads (.guarded term body.enclose))) := by
  have unguarded := @isShown_operand _ _ _ _ selective (some condition) _ each
  rw [bodyDone] at unguarded
  rw [IsShown, readSeen, Option.getD_some, Setting.readBy_behind_loadsOf selective loadsDone,
    Behaviour.readBy_guarded selective, Behaviour.readBy_enclose selective]
  exact unguarded

end Constructs

/-- A lifeline meets the others at every until fragment that was recorded, so only the
process that runs until bodies goes through one on its own. -/
private theorem eq_until_of_apart (several : 2 ≤ setting.lifelines.length)
    {id : FragmentId} {intra : MessageSet} {body : Fragment}
    (parallel : ∀ actor, view ≠ .sequential actor)
    (numbered : (Fragment.until id intra body).Numbered setting view)
    (apart : setting.meetsAt view .until = false) : view = .until := by
  cases view with
  | lifeline actor =>
      have meets : setting.meetsAt (.lifeline actor) .until = true :=
        Setting.meetsAt_of_recorded rfl several (numbered.until rfl)
      cases meets.symm.trans apart
  | sequential actor =>
      exact absurd rfl (parallel actor)
  | «until» =>
      rfl

/-- What is read out of a projection is what the viewpoint shows of the landmarks,
in the order of the visits.  Lifelines pass until bodies by; the process that runs
them enters all inside. -/
theorem Sees.shows (selective : reading.Selective) (several : 2 ≤ setting.lifelines.length)
    {fragment : Fragment} {seen : Option Behaviour} (sees : fragment.Sees setting view seen)
    (parallel : ∀ actor, view ≠ .sequential actor)
    (numbered : fragment.Numbered setting view)
    (avoids : fragment.AvoidsCritical !view.synchronises) :
    setting.Shows reading view (fragment.landmarks !view.synchronises)
      (readSeen reading seen) := by
  change IsShown reading setting view fragment seen
  induction sees with
  | message involved eventDone storingDone storesDone loadsDone =>
      exact isShown_message selective involved eventDone storingDone storesDone loadsDone
  | otherMessage uninvolved =>
      exact isShown_otherMessage selective uninvolved
  | wait _ loadsDone _ =>
      rw [IsShown, readSeen, Option.getD_some,
        Setting.readBy_behind_loadsOf selective loadsDone, Behaviour.readBy_applied selective]
      exact .nil
  | deadlock _ =>
      rw [IsShown, readSeen, Option.getD_some, Behaviour.readBy_stop selective]
      exact .nil
  | create id _ =>
      rw [IsShown, readSeen, Option.getD_some, Behaviour.readBy_annotated selective,
        Behaviour.readBy_stop selective]
      exact .nil
  | otherWait | otherDeadlock | otherCreate =>
      rw [IsShown, readSeen_none selective]
      exact .nil
  | loop _ loadsDone headed inductionHypothesis =>
      exact isShown_loop selective loadsDone headed
        (inductionHypothesis parallel numbered (avoids.inside rfl))
  | otherLoop bound _ inductionHypothesis =>
      exact inductionHypothesis parallel numbered (avoids.inside rfl)
  | branch kind _ areArms _ loadsDone inductionHypothesis =>
      have eachNumbered := numbered_of_mem numbered
      have eachAvoids := avoidsCritical_of_mem (avoids.inside rfl)
      refine isShown_branch selective areArms loadsDone ?_
      intro part isPart
      have isOperand : part.1 ∈ _ := List.mem_map_of_mem isPart
      exact inductionHypothesis part isPart parallel (eachNumbered part.1 isOperand).unguarded
        (eachAvoids part.1 isOperand).unguarded
  | otherBranch kind _ inductionHypothesis =>
      have eachNumbered := numbered_of_mem numbered
      have eachAvoids := avoidsCritical_of_mem (avoids.inside rfl)
      refine isShown_otherBranch selective ?_
      intro operand member
      exact inductionHypothesis operand member parallel
        (eachNumbered operand member).unguarded (eachAvoids operand member).unguarded
  | metPar _ _ enterDone leaveDone inductionHypothesis =>
      have eachAvoids := avoidsCritical_of_mem (avoids.inside rfl)
      refine isShown_metPar selective enterDone leaveDone ?_
      intro part isPart
      have isOperand : part.1 ∈ _ := List.mem_map_of_mem isPart
      exact inductionHypothesis part isPart parallel (numbered.par.2 part.1 isOperand)
        (eachAvoids part.1 isOperand)
  | par id _ _ _ inductionHypothesis =>
      have eachAvoids := avoidsCritical_of_mem (avoids.inside rfl)
      refine isShown_par selective ?_
      intro part isPart
      have isOperand : part.1 ∈ _ := List.mem_map_of_mem isPart
      exact inductionHypothesis part isPart parallel (numbered.par.2 part.1 isOperand)
        (eachAvoids part.1 isOperand)
  | otherPar id _ _ inductionHypothesis =>
      have eachAvoids := avoidsCritical_of_mem (avoids.inside rfl)
      refine shows_nothing selective ?_
      intro operand member
      exact inductionHypothesis operand member parallel (numbered.par.2 operand member)
        (eachAvoids operand member)
  | @duration view owner bound body inner loads header bodySeen own loadsDone headed
      inductionHypothesis =>
      exact @isShown_timer _ _ _ _ selective ⟨owner, .duration bound, body⟩ _ _ _ _ _ rfl own
        bodySeen headed loadsDone (inductionHypothesis parallel numbered (avoids.inside rfl))
  | otherDuration bound _ other inductionHypothesis =>
      exact Setting.Shows.otherTimer other
        (inductionHypothesis parallel numbered (avoids.inside rfl))
  | deadline bodySeen _ enforced loadsDone found inductionHypothesis =>
      exact isShown_deadline selective several bodySeen enforced loadsDone found
        (inductionHypothesis parallel numbered (avoids.inside rfl))
  | @remarkedDeadline _ _ _ _ _ found _ unenforced _ inductionHypothesis =>
      exact isShown_remarkedDeadline selective found.name unenforced
        (inductionHypothesis parallel numbered (avoids.inside rfl))
  | otherDeadline units _ other inductionHypothesis =>
      exact Setting.Shows.otherTimer other
        (inductionHypothesis parallel numbered (avoids.inside rfl))
  | metUntil _ _ meets enterDone leaveDone =>
      exact isShown_metUntil selective meets enterDone leaveDone
  | @«until» _ _ _ _ _ internal apart _ _ inductionHypothesis =>
      obtain rfl := eq_until_of_apart several parallel numbered apart
      exact isShown_until selective internal (inductionHypothesis parallel
        (fun synchronises => by cases synchronises) (avoids.inside rfl))
  | critical | otherCritical =>
      cases avoids _ List.mem_cons_self
  | operand _ inductionHypothesis =>
      have eachNumbered := numbered_of_mem numbered
      have eachAvoids := avoidsCritical_of_mem (avoids.inside rfl)
      refine isShown_operand selective ?_
      intro part isPart
      have isMember : part.1 ∈ _ := List.mem_map_of_mem isPart
      exact inductionHypothesis part isPart parallel (eachNumbered part.1 isMember)
        (eachAvoids part.1 isMember)
  | @guardedOperand _ _ _ _ _ term _ bodyDone loadsDone _ inductionHypothesis =>
      have eachNumbered := numbered_of_mem numbered
      have eachAvoids := avoidsCritical_of_mem (avoids.inside rfl)
      refine isShown_guardedOperand selective term bodyDone loadsDone ?_
      intro part isPart
      have isMember : part.1 ∈ _ := List.mem_map_of_mem isPart
      exact inductionHypothesis part isPart parallel (eachNumbered part.1 isMember)
        (eachAvoids part.1 isMember)
  | otherOperand condition _ inductionHypothesis =>
      have eachNumbered := numbered_of_mem numbered
      have eachAvoids := avoidsCritical_of_mem (avoids.inside rfl)
      refine shows_nothing selective ?_
      intro fragment member
      exact inductionHypothesis fragment member parallel (eachNumbered fragment member)
        (eachAvoids fragment member)
  | deferred _ inductionHypothesis =>
      exact inductionHypothesis parallel numbered avoids

end Fragment

/-! ## Whole interactions -/

namespace Setting

variable {β : Type} {reading : Reading β} {setting : Setting}

private theorem avoidsCritical_body
    (avoids : setting.interaction.toDiagram.AvoidsCritical false) :
    ∀ visit ∈ Fragment.listVisits false setting.body, visit.isCritical = false :=
  fun _ member => avoids.isCritical_eq (Diagram.exists_visited_of_mem member)

/-- What is read out of the process of a lifeline is what it shows of the landmarks
outside of until bodies. -/
theorem shows_of_projectSequence (selective : reading.Selective)
    (several : 2 ≤ setting.lifelines.length)
    (searched : Fragment.listMeetings setting.body = .ok setting.meetings)
    (avoids : setting.interaction.toDiagram.AvoidsCritical false) {actor : ActorId}
    {seen : Option Behaviour}
    (done : (setting.projectSequence (.lifeline actor) setting.body).result = .ok seen) :
    setting.Shows reading (.lifeline actor) (Fragment.listLandmarks false setting.body)
      (Fragment.readSeen reading seen) := by
  rw [projectSequence, ← Fragment.project_operand_none] at done
  have sees := Fragment.sees_of_result done
  have numbered : (Fragment.operand none setting.body).Numbered setting (.lifeline actor) :=
    fun _ => ⟨setting.meetings, searched, fun _ recorded => recorded⟩
  have free : (Fragment.operand none setting.body).AvoidsCritical false :=
    List.forall_mem_cons.mpr ⟨rfl, avoidsCritical_body avoids⟩
  exact sees.shows selective several (by simp) numbered free

end Setting

/-- A well-formed interaction has a sound setting. -/
theorem Specification.exists_sound_setting {specification : Specification}
    {id : InteractionId} {interaction : Interaction}
    (placed : specification.interaction id = .ok interaction)
    (wellFormed : interaction.toDiagram.WellFormed specification)
    (ownersKnown : specification.OwnersKnown) :
    ∃ setting, specification.setting id = .ok setting ∧ setting.Sound ∧
      setting.specification = specification ∧ setting.interaction = interaction := by
  obtain ⟨meetings, searched, _, found⟩ :=
    exists_setting placed wellFormed.toClosed wellFormed.fragmentsAcyclic
  exact ⟨_, found, ⟨placed, wellFormed, ownersKnown, searched⟩, rfl, rfl⟩

/-- In a sound setting every viewpoint sees something. -/
theorem Setting.Sound.exists_projectSequence {setting : Setting} (sound : setting.Sound)
    (view : Viewpoint) :
    ∃ seen, (setting.projectSequence view setting.body).result = .ok seen := by
  obtain ⟨seen, done, _⟩ :=
    (sound.succeeds_projectSequence setting.admits_all view).exists_result
  exact ⟨seen, done⟩

/-- Items that are sorted by distinct owners are those of the owners together. -/
theorem flatMap_filter_owner_perm {α κ : Type} [DecidableEq κ] (owner : α → κ)
    (items : List α) {owners : List κ} (distinct : owners.Nodup) :
    (owners.flatMap fun key => items.filter fun item => owner item = key).Perm
      (items.filter fun item => owner item ∈ owners) := by
  induction owners with
  | nil =>
      simp
  | cons key rest inductionHypothesis =>
      obtain ⟨fresh, restDistinct⟩ := List.nodup_cons.mp distinct
      have ofKey : (items.filter fun item => owner item ∈ key :: rest).filter
          (fun item => owner item = key) = items.filter fun item => owner item = key := by
        rw [List.filter_filter]
        apply List.filter_congr
        intro item _
        by_cases own : owner item = key
        · simp [own]
        · simp [own]
      have ofRest : (items.filter fun item => owner item ∈ key :: rest).filter
          (fun item => !decide (owner item = key)) =
            items.filter fun item => owner item ∈ rest := by
        rw [List.filter_filter]
        apply List.filter_congr
        intro item _
        by_cases own : owner item = key
        · simp [own, fresh]
        · simp [own]
      have both := List.filter_append_perm (fun item => decide (owner item = key))
        (items.filter fun item => owner item ∈ key :: rest)
      rw [ofKey, ofRest] at both
      rw [List.flatMap_cons]
      exact ((inductionHypothesis restDistinct).append_left _).trans both

/-- A value is given away, and in time as somebody else makes sure, or passed on, as
often as it takes.  It may be given once more, and the last gift is reported. -/
def errand : Interaction where
  name := "Errand"
  body := [⟨6⟩, ⟨5⟩, ⟨0⟩, ⟨7⟩]
  lifelines := [⟨0⟩, ⟨1⟩, ⟨2⟩]
  locals := [⟨0⟩]
  fragments := #[.message ⟨⟨0⟩, ⟨1⟩, .event "give", [.bind ⟨0⟩]⟩,
    .message ⟨⟨1⟩, ⟨2⟩, .event "pass", [.bind ⟨0⟩, .bind ⟨0⟩]⟩, .deadline ⟨2⟩ ⟨0⟩ ⟨0⟩,
    .operand none [⟨2⟩], .branch .alt [⟨3⟩, ⟨1⟩], .until .every ⟨0⟩, .loop none ⟨4⟩,
    .message ⟨⟨0⟩, ⟨3⟩, .event "report", [.bind ⟨0⟩]⟩]
  expressions := #[.natural 3]
  locations := []
  group := ⟨0⟩

def errandSpecification : Specification :=
  { Specification.empty "Errands" with
    actors := #[⟨"A", .component⟩, ⟨"B", .component⟩, ⟨"C", .component⟩, ⟨"W", .world⟩]
    actorsByName := [("W", ⟨3⟩), ("C", ⟨2⟩), ("B", ⟨1⟩), ("A", ⟨0⟩)]
    vars := #[⟨"x", .nat, some ⟨0⟩⟩]
    interactions := #[errand] }

theorem wellFormed_errand : errand.toDiagram.WellFormed errandSpecification :=
  Diagram.Closed.wellFormed (by decide) (by decide)

theorem ownersKnown_errand : errandSpecification.OwnersKnown := by
  decide

theorem avoidsCritical_errand : errand.toDiagram.AvoidsCritical true := by
  have noCritical : ∀ entry ∈ errand.fragments, ∀ body ∈ entry.children,
      entry ≠ .critical body := by decide
  intro id _ body found
  exact noCritical _ (Array.mem_of_getElem? found) body List.mem_cons_self rfl

end SequenceChart
