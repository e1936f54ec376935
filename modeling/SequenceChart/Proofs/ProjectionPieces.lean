import SequenceChart.Proofs.Pieces
import SequenceChart.Proofs.Visits

/-!
# Where the pieces of a projection come from

Every piece of what a viewpoint sees has an origin: it is fixed layout, the term of
an expression, the event of a message of the table, an access to a variable, a
handshake, a header, or a remark.  The relation `Piece.Arises` lists the origins, and
one induction shows that there are no others.

Nothing is assumed about the diagram.  A projection that gives a result has found all
it needed, whatever the rest of the tables looks like.
-/

namespace SequenceChart

namespace Fragment

/-- A message, or the events of an until fragment, stands in a table. -/
def StandsIn (fragments : Array FragmentEntry) : Fragment → Prop
  | .message content => .message content ∈ fragments
  | .until _ intra _ => ∃ child, .until intra child ∈ fragments
  | _ => True

/-- All messages and until fragments that are come by stand in the table. -/
def Rooted (diagram : Diagram) (fragment : Fragment) : Prop :=
  ∀ visit ∈ fragment.visits true, visit.StandsIn diagram.fragments

namespace Rooted

variable {diagram : Diagram}

/-- What is inside of a rooted fragment is rooted. -/
theorem inside {whole : Fragment} {outer : Fragment} {parts : List Fragment}
    (rooted : whole.Rooted diagram) (visits : whole.visits true = outer :: listVisits true parts)
    {part : Fragment} (member : part ∈ parts) : part.Rooted diagram := by
  intro visit inPart
  apply rooted
  rw [visits]
  exact List.mem_cons_of_mem outer (mem_listVisits.mpr ⟨part, member, inPart⟩)

/-- The only part of a rooted fragment is rooted. -/
theorem body {whole : Fragment} {outer part : Fragment} (rooted : whole.Rooted diagram)
    (visits : whole.visits true = outer :: part.visits true) : part.Rooted diagram := by
  intro visit inPart
  apply rooted
  rw [visits]
  exact List.mem_cons_of_mem outer inPart

private theorem unguarded {fragment : Fragment} (rooted : fragment.Rooted diagram) :
    fragment.unguarded.Rooted diagram := by
  cases fragment with
  | operand guard fragments =>
      intro visit member
      rcases List.mem_cons.mp member with rfl | inPart
      · exact trivial
      · exact rooted visit (List.mem_cons_of_mem _ inPart)
  | _ =>
      exact rooted

end Rooted

/-- What stands at a place of the table is an entry of it. -/
theorem standsIn_unfoldFragment (diagram : Diagram) (depth : Nat) (id : FragmentId) :
    (diagram.unfoldFragment depth id).StandsIn diagram.fragments := by
  cases depth with
  | zero =>
      exact trivial
  | succ depth =>
      rw [Diagram.unfoldFragment]
      cases found : entryAt diagram.fragments id.index with
      | error fault =>
          exact trivial
      | ok entry =>
          have present := Array.mem_of_getElem? (entryAt_eq_ok_iff.mp found)
          cases entry with
          | message content =>
              exact present
          | «until» intra child =>
              exact ⟨child, present⟩
          | _ =>
              exact trivial

private theorem rooted_unfoldFragment (diagram : Diagram) (depth : Nat) (id : FragmentId) :
    (diagram.unfoldFragment depth id).Rooted diagram := by
  intro visit member
  obtain ⟨reached, rest, _, rfl⟩ := Diagram.standsBehind_of_mem_visits member
  exact standsIn_unfoldFragment diagram rest reached

end Fragment

def projectionLayout : List String :=
  ["SKIP", "STOP", " -> ", "; ", " [] ", " |~| ", " ||| ", "(", ")", " "]

/-- The functions of the library that projections put around a body, apart from the one
of until fragments. -/
def enclosingFunctions : List String :=
  ["Idle", "Loop", "BoundedLoop", "BoundedLoopLower", "BoundedLoopUpper", "BoundedLoopRange"] ++
    timerFunctions

/-- The remarks that name nothing of the specification. -/
def fixedRemarks : List String :=
  ["unsupported: lifeline creation", "unsupported: critical region", "no bounds"]

/-- The origins of pieces. -/
inductive Piece.Arises (setting : Setting) : Piece → Prop
  | layout {text : String} : text ∈ projectionLayout → Arises setting (.layout text)
  | guard {condition : ExpressionId} {term : Term} :
      setting.termOf condition = .ok term →
      Arises setting (.layout (term.text ++ " & "))
  | wait {units : ExpressionId} {term : Term} :
      setting.termOf units = .ok term →
      Arises setting (.layout (application "WAIT" [term.text]))
  | message {content : Message} {event : Event} :
      .message content ∈ setting.interaction.fragments →
      setting.messageEvent content = .ok event →
      Arises setting (.event event)
  | load {id : VariableId} {found : Variable} {memory : String} :
      setting.specification.variableAt id = .ok found →
      (setting.specification.memoryOf id).result = .ok memory →
      Arises setting (.event (.load memory found.name))
  | store {id : VariableId} {found : Variable} {memory : String} :
      setting.specification.variableAt id = .ok found →
      (setting.specification.memoryOf id).result = .ok memory →
      Arises setting (.event (.store memory found.name))
  | handshake (kind : HandshakeKind) (number : Nat) (phase : Phase) :
      Arises setting (.event (.handshake kind number phase))
  | call {function : String} {terms : List Term} (body : Behaviour) :
      function ∈ enclosingFunctions →
      (∀ term ∈ terms, ∃ id, setting.termOf id = .ok term) →
      Arises setting (.call function (terms.map .value) body)
  | until {intra : MessageSet} {child : FragmentId} {internal : List String}
      (body : Behaviour) :
      .until intra child ∈ setting.interaction.fragments →
      setting.internalChannels = .ok internal →
      Arises setting (.call "AnyUntil" [.events (intra.events internal)] body)
  | remark {text : String} : text ∈ fixedRemarks → Arises setting (.remark text)
  | deadline {owner : ActorId} {found : Actor} :
      setting.specification.actor owner = .ok found →
      Arises setting (.remark ("deadline on " ++ found.name))

def Behaviour.Arises (setting : Setting) (behaviour : Behaviour) : Prop :=
  ∀ piece ∈ behaviour.pieces, piece.Arises setting

namespace Behaviour

variable {setting : Setting}

theorem arises_skip : skip.Arises setting := by
  simpa [Arises, pieces] using Piece.Arises.layout (by decide)

private theorem arises_stop : stop.Arises setting := by
  simpa [Arises, pieces] using Piece.Arises.layout (by decide)

private theorem arises_perform {event : Event} {next : Behaviour}
    (eventArises : (Piece.event event).Arises setting) (nextArises : next.Arises setting) :
    (perform event next).Arises setting := by
  have arrow : (Piece.layout " -> ").Arises setting := .layout (by decide)
  simpa [Arises, pieces] using ⟨eventArises, arrow, nextArises⟩

private theorem arises_performAll {events : List Event} {next : Behaviour}
    (eventsArise : ∀ event ∈ events, (Piece.event event).Arises setting)
    (nextArises : next.Arises setting) : (performAll events next).Arises setting := by
  induction events with
  | nil =>
      exact nextArises
  | cons event rest inductionHypothesis =>
      refine arises_perform (eventsArise event List.mem_cons_self) (inductionHypothesis ?_)
      exact fun other member => eventsArise other (List.mem_cons_of_mem event member)

private theorem arises_andThen {first second : Behaviour} (firstArises : first.Arises setting)
    (secondArises : second.Arises setting) : (andThen first second).Arises setting := by
  have semicolon : (Piece.layout "; ").Arises setting := .layout (by decide)
  intro piece member
  rcases List.mem_append.mp member with inFirst | behind
  · exact firstArises piece inFirst
  · rcases List.mem_cons.mp behind with rfl | inSecond
    · exact semicolon
    · exact secondArises piece inSecond

private theorem arises_join (operator : JoinOperator) {left right : Behaviour}
    (leftArises : left.Arises setting) (rightArises : right.Arises setting) :
    (join operator left right).Arises setting := by
  have symbol : (Piece.layout (" " ++ operator.symbol ++ " ")).Arises setting := by
    apply Piece.Arises.layout
    cases operator <;> decide
  intro piece member
  rcases List.mem_append.mp member with inLeft | behind
  · exact leftArises piece inLeft
  · rcases List.mem_cons.mp behind with rfl | inRight
    · exact symbol
    · exact rightArises piece inRight

private theorem arises_grouped {body : Behaviour} (bodyArises : body.Arises setting) :
    body.grouped.Arises setting := by
  have opened : (Piece.layout "(").Arises setting := .layout (by decide)
  have closed : (Piece.layout ")").Arises setting := .layout (by decide)
  intro piece member
  rcases List.mem_cons.mp member with rfl | behind
  · exact opened
  · rcases List.mem_append.mp behind with inBody | isLast
    · exact bodyArises piece inBody
    · cases List.mem_singleton.mp isLast
      exact closed

/-- A call stands in front of its body in parentheses. -/
theorem arises_wrapped {function : String} {arguments : List Operand} {body : Behaviour}
    (callArises : (Piece.call function arguments body).Arises setting)
    (bodyArises : body.Arises setting) :
    (wrapped function arguments body).Arises setting := by
  intro piece member
  rcases List.mem_cons.mp member with rfl | inGroup
  · exact callArises
  · exact arises_grouped bodyArises piece inGroup

private theorem arises_idle {body : Behaviour} (bodyArises : body.Arises setting) :
    body.idle.Arises setting := by
  have noTerms : ∀ term ∈ ([] : List Term), ∃ id, setting.termOf id = .ok term := by
    simp
  exact arises_wrapped (.call body (by decide) noTerms) bodyArises

private theorem arises_enclose {body : Behaviour} (bodyArises : body.Arises setting) :
    body.enclose.Arises setting := by
  rw [enclose]
  split
  · exact arises_grouped bodyArises
  · exact bodyArises

private theorem arises_guarded {condition : ExpressionId} {term : Term} {body : Behaviour}
    (done : setting.termOf condition = .ok term) (bodyArises : body.Arises setting) :
    (guarded term body.enclose).Arises setting := by
  intro piece member
  rcases List.mem_cons.mp member with rfl | inBody
  · exact .guard done
  · exact arises_enclose bodyArises piece inBody

private theorem arises_remarked {remark : String} {body : Behaviour}
    (remarkArises : (Piece.remark remark).Arises setting) (bodyArises : body.Arises setting) :
    (remarked remark body).Arises setting := by
  have blank : (Piece.layout " ").Arises setting := .layout (by decide)
  simpa [Arises, pieces] using ⟨remarkArises, blank, bodyArises⟩

/-- The placeholder of a construct without meaning. -/
theorem arises_unsupported {remark : String} (fixed : remark ∈ fixedRemarks) :
    (annotated .stop remark).Arises setting := by
  have stopped : (Piece.layout "STOP").Arises setting := .layout (by decide)
  have blank : (Piece.layout " ").Arises setting := .layout (by decide)
  simpa [Arises, pieces] using ⟨stopped, blank, Piece.Arises.remark fixed⟩

private theorem arises_sequence {parts : List Behaviour}
    (each : ∀ part ∈ parts, part.Arises setting) :
    (sequence parts).Arises setting := by
  induction parts with
  | nil =>
      exact arises_skip
  | cons part rest inductionHypothesis =>
      have partArises := each part List.mem_cons_self
      have restArises := inductionHypothesis fun other member =>
        each other (List.mem_cons_of_mem part member)
      cases rest with
      | nil =>
          exact partArises
      | cons next others =>
          exact arises_andThen partArises restArises

private theorem arises_joinAll (operator : JoinOperator) {first : Behaviour} {rest : List Behaviour}
    (each : ∀ part ∈ first :: rest, part.Arises setting) :
    (joinAll operator first rest).Arises setting := by
  induction rest generalizing first with
  | nil =>
      exact each first List.mem_cons_self
  | cons next others inductionHypothesis =>
      refine arises_join operator (each first List.mem_cons_self) (inductionHypothesis ?_)
      exact fun part member => each part (List.mem_cons_of_mem first member)

private theorem arises_combine (operator : JoinOperator) {parts : List Behaviour}
    (each : ∀ part ∈ parts, part.Arises setting) : (combine operator parts).Arises setting := by
  match parts with
  | [] =>
      cases operator with
      | externalChoice | internalChoice =>
          exact arises_stop
      | interleaving =>
          exact arises_skip
  | [only] =>
      exact each only List.mem_cons_self
  | first :: next :: rest =>
      exact arises_grouped (arises_joinAll operator each)

private theorem arises_chooseAmong (kind : BranchKind) {operands : List Behaviour}
    (each : ∀ operand ∈ operands, operand.Arises setting) :
    (Setting.chooseAmong kind operands).Arises setting := by
  cases kind with
  | alt | xalt =>
      exact arises_combine _ each
  | opt =>
      apply arises_combine
      intro operand member
      rcases List.mem_append.mp member with given | isSkip
      · exact each operand given
      · cases List.mem_singleton.mp isSkip
        exact arises_skip

end Behaviour

namespace Setting

variable {setting : Setting}

/-- A header with the terms of expressions around a body. -/
theorem arises_callOn {function : String} {terms : List Term} {body : Behaviour}
    (known : function ∈ enclosingFunctions)
    (found : ∀ term ∈ terms, ∃ id, setting.termOf id = .ok term)
    (bodyArises : body.Arises setting) :
    ((Header.callOn function terms).around body).Arises setting :=
  Behaviour.arises_wrapped (.call body known found) bodyArises

private theorem arises_callOnOne {function : String} {id : ExpressionId} {header : Header}
    {body : Behaviour} (known : function ∈ enclosingFunctions)
    (done : (do
      let term ← setting.specification.termOf setting.interaction.toDiagram id
      return Header.callOn function [term]) = Except.ok header)
    (bodyArises : body.Arises setting) : (header.around body).Arises setting := by
  obtain ⟨term, termDone, last⟩ := bind_eq_ok_iff.mp done
  cases last
  refine arises_callOn known ?_ bodyArises
  intro given member
  cases List.mem_singleton.mp member
  exact ⟨id, termDone⟩

private theorem arises_callOnTwo {function : String} {lower upper : ExpressionId}
    {header : Header} {body : Behaviour} (known : function ∈ enclosingFunctions)
    (done : (do
      let lowerTerm ← setting.specification.termOf setting.interaction.toDiagram lower
      let upperTerm ← setting.specification.termOf setting.interaction.toDiagram upper
      return Header.callOn function [lowerTerm, upperTerm]) = Except.ok header)
    (bodyArises : body.Arises setting) : (header.around body).Arises setting := by
  obtain ⟨lowerTerm, lowerDone, rest⟩ := bind_eq_ok_iff.mp done
  obtain ⟨upperTerm, upperDone, last⟩ := bind_eq_ok_iff.mp rest
  cases last
  refine arises_callOn known ?_ bodyArises
  intro given member
  rcases List.mem_cons.mp member with rfl | isUpper
  · exact ⟨lower, lowerDone⟩
  · cases List.mem_singleton.mp isUpper
    exact ⟨upper, upperDone⟩

private theorem arises_loopHeader {bound : Option Bound} {header : Header} {body : Behaviour}
    (done : setting.specification.loopHeader setting.interaction.toDiagram bound = .ok header)
    (bodyArises : body.Arises setting) : (header.around body).Arises setting := by
  match bound with
  | none =>
      cases done
      exact arises_callOn (by decide) (by simp) bodyArises
  | some ⟨none, none⟩ =>
      cases done
  | some ⟨some lower, none⟩ =>
      exact arises_callOnOne (by decide) done bodyArises
  | some ⟨none, some upper⟩ =>
      exact arises_callOnOne (by decide) done bodyArises
  | some ⟨some lower, some upper⟩ =>
      obtain ⟨fromZero, _, rest⟩ := bind_eq_ok_iff.mp done
      cases fromZero with
      | true =>
          exact arises_callOnOne (by decide) rest bodyArises
      | false =>
          exact arises_callOnTwo (by decide) rest bodyArises

private theorem arises_durationHeader {bound : Bound} {header : Header} {body : Behaviour}
    (done : setting.specification.durationHeader setting.interaction.toDiagram bound =
      .ok header)
    (bodyArises : body.Arises setting) : (header.around body).Arises setting := by
  match bound with
  | ⟨none, none⟩ =>
      cases done
      exact Behaviour.arises_remarked (.remark (by decide)) bodyArises
  | ⟨some lower, none⟩ =>
      exact arises_callOnOne (by decide) done bodyArises
  | ⟨none, some upper⟩ =>
      exact arises_callOnOne (by decide) done bodyArises
  | ⟨some lower, some upper⟩ =>
      exact arises_callOnTwo (by decide) done bodyArises

private theorem arises_loadsOf {ids : List ExpressionId} {loads : List Event}
    (done : (setting.loadsOf ids).result = .ok loads) :
    ∀ event ∈ loads, (Piece.event event).Arises setting := by
  intro event member
  obtain ⟨read, _, loadsDone⟩ := Attempt.result_bind_eq_ok_iff.mp done
  obtain ⟨id, found, memory, foundDone, memoryDone, rfl⟩ :=
    Specification.exists_access_of_mem loadsDone member
  exact .load foundDone memoryDone

private theorem arises_stores {ids : List VariableId} {stores : List Event}
    (done : (setting.specification.stores ids).result = .ok stores) :
    ∀ event ∈ stores, (Piece.event event).Arises setting := by
  intro event member
  obtain ⟨id, found, memory, foundDone, memoryDone, rfl⟩ :=
    Specification.exists_access_of_mem done member
  exact .store foundDone memoryDone

theorem arises_handshake {synchronisation : Synchronisation} {phase : Phase}
    {fragment : FragmentId} {event : Event}
    (done : synchronisation.event phase fragment = .ok event) :
    (Piece.event event).Arises setting := by
  obtain ⟨number, _, last⟩ := bind_eq_ok_iff.mp done
  cases last
  exact .handshake synchronisation.kind number phase

end Setting

/-! ## Everything that is seen -/

namespace Fragment

variable {setting : Setting} {view : Viewpoint}

private theorem arises_sequenceOf {seen : List (Option Behaviour)}
    (each : ∀ part ∈ seen, (part.getD .skip).Arises setting) :
    ((sequenceOf seen).getD .skip).Arises setting := by
  rw [sequenceOf]
  split
  · exact Behaviour.arises_skip
  · apply Behaviour.arises_sequence
    intro part member
    obtain ⟨given, isGiven, rfl⟩ := List.mem_filterMap.mp member
    exact each (some part) isGiven

theorem IsArm.arises {guard : Option ExpressionId} {body : Option Behaviour}
    {arm : Setting.Arm} (isArm : IsArm setting guard body arm)
    (bodyArises : (body.getD .skip).Arises setting) : arm.behaviour.Arises setting := by
  cases guard with
  | none =>
      rw [show arm = _ from isArm]
      exact bodyArises
  | some condition =>
      obtain ⟨term, termDone, rfl⟩ := isArm
      exact Behaviour.arises_guarded termDone bodyArises

private theorem arises_metArms {enter leave : Event} {arms : List (Option Behaviour)}
    (enterArises : (Piece.event enter).Arises setting)
    (leaveArises : (Piece.event leave).Arises setting)
    (each : ∀ arm ∈ arms, (arm.getD .skip).Arises setting) :
    (metArms enter leave arms).Arises setting := by
  have bodyArises : (Behaviour.combine .interleaving
      (arms.map fun arm => arm.getD .skip)).Arises setting := by
    apply Behaviour.arises_combine
    intro behaviour member
    obtain ⟨arm, isArm, rfl⟩ := List.mem_map.mp member
    exact each arm isArm
  have entered : ∀ body : Behaviour, body.Arises setting →
      (Behaviour.perform enter body).idle.Arises setting :=
    fun _ arises => Behaviour.arises_idle (Behaviour.arises_perform enterArises arises)
  have left := Behaviour.arises_idle
    (Behaviour.arises_perform leaveArises Behaviour.arises_skip)
  refine Behaviour.arises_andThen ?_ left
  split
  · exact entered _ (Behaviour.arises_grouped bodyArises)
  · exact entered _ bodyArises

/-- All that is seen of a rooted fragment has an origin. -/
theorem Sees.arises {fragment : Fragment} {seen : Option Behaviour}
    (sees : fragment.Sees setting view seen)
    (rooted : fragment.Rooted setting.interaction.toDiagram) :
    (seen.getD .skip).Arises setting := by
  induction sees with
  | message _ eventDone _ storesDone loadsDone =>
      have inTable := rooted _ List.mem_cons_self
      refine Behaviour.arises_performAll (Setting.arises_loadsOf loadsDone) ?_
      refine Behaviour.arises_idle
        (Behaviour.arises_perform (.message inTable eventDone) ?_)
      exact Behaviour.arises_performAll (Setting.arises_stores storesDone)
        Behaviour.arises_skip
  | wait _ loadsDone termDone =>
      refine Behaviour.arises_performAll (Setting.arises_loadsOf loadsDone) ?_
      intro piece member
      cases List.mem_singleton.mp member
      exact .wait termDone
  | deadlock _ =>
      exact Behaviour.arises_stop
  | create id _ =>
      exact Behaviour.arises_unsupported (by decide)
  | loop _ loadsDone headerDone inductionHypothesis =>
      exact Behaviour.arises_performAll (Setting.arises_loadsOf loadsDone)
        (Setting.arises_loopHeader headerDone (inductionHypothesis (rooted.body rfl)))
  | branch kind _ areArms _ loadsDone inductionHypothesis =>
      refine Behaviour.arises_performAll (Setting.arises_loadsOf loadsDone)
        (Behaviour.arises_chooseAmong kind ?_)
      intro behaviour member
      obtain ⟨part, isPart, rfl⟩ := List.mem_map.mp member
      have operandRooted := rooted.inside rfl (List.mem_map_of_mem isPart)
      exact (areArms part isPart).arises
        (inductionHypothesis part isPart operandRooted.unguarded)
  | metPar _ _ enterDone leaveDone inductionHypothesis =>
      refine arises_metArms (Setting.arises_handshake enterDone)
        (Setting.arises_handshake leaveDone) ?_
      intro arm member
      obtain ⟨part, isPart, rfl⟩ := List.mem_map.mp member
      exact inductionHypothesis part isPart (rooted.inside rfl (List.mem_map_of_mem isPart))
  | par id _ _ _ inductionHypothesis =>
      apply Behaviour.arises_combine
      intro behaviour member
      obtain ⟨part, isPart, rfl⟩ := List.mem_map.mp member
      exact inductionHypothesis part isPart (rooted.inside rfl (List.mem_map_of_mem isPart))
  | duration _ _ loadsDone headerDone inductionHypothesis =>
      exact Behaviour.arises_performAll (Setting.arises_loadsOf loadsDone)
        (Setting.arises_durationHeader headerDone (inductionHypothesis (rooted.body rfl)))
  | otherDuration _ _ _ inductionHypothesis =>
      exact inductionHypothesis (rooted.body rfl)
  | @deadline view owner units body inner loads term _ _ _ loadsDone termDone
      inductionHypothesis =>
      have found : ∀ given ∈ [term], ∃ id, setting.termOf id = .ok given := by
        intro given member
        cases List.mem_singleton.mp member
        exact ⟨units, termDone⟩
      have known : "Deadline" ∈ enclosingFunctions := by decide
      exact Behaviour.arises_performAll (Setting.arises_loadsOf loadsDone)
        (Setting.arises_callOn known found (inductionHypothesis (rooted.body rfl)))
  | remarkedDeadline _ _ _ actorDone inductionHypothesis =>
      exact Behaviour.arises_remarked (.deadline actorDone)
        (inductionHypothesis (rooted.body rfl))
  | metUntil intra body _ enterDone leaveDone =>
      have entered : (Piece.event _).Arises setting := Setting.arises_handshake enterDone
      have left : (Piece.event _).Arises setting := Setting.arises_handshake leaveDone
      exact Behaviour.arises_idle (Behaviour.arises_perform entered
        (Behaviour.arises_perform left Behaviour.arises_skip))
  | «until» id intra _ _ internalDone inductionHypothesis =>
      obtain ⟨child, inTable⟩ := rooted _ List.mem_cons_self
      exact Behaviour.arises_wrapped (.until _ inTable internalDone)
        (inductionHypothesis (rooted.body rfl))
  | critical id _ _ =>
      exact Behaviour.arises_unsupported (by decide)
  | operand _ inductionHypothesis =>
      apply arises_sequenceOf
      intro part member
      obtain ⟨whole, isWhole, rfl⟩ := List.mem_map.mp member
      exact inductionHypothesis whole isWhole (rooted.inside rfl (List.mem_map_of_mem isWhole))
  | guardedOperand _ bodyDone loadsDone termDone inductionHypothesis =>
      have partsArise := arises_sequenceOf fun part member => by
        obtain ⟨whole, isWhole, rfl⟩ := List.mem_map.mp member
        exact inductionHypothesis whole isWhole
          (rooted.inside rfl (List.mem_map_of_mem isWhole))
      rw [bodyDone] at partsArise
      exact Behaviour.arises_performAll (Setting.arises_loadsOf loadsDone)
        (Behaviour.arises_guarded termDone partsArise)
  | deferred _ inductionHypothesis =>
      exact inductionHypothesis rooted
  | _ =>
      exact Behaviour.arises_skip

end Fragment

namespace Setting

variable {setting : Setting} {view : Viewpoint}

/-- What a viewpoint sees of the fragment at a position has an origin. -/
theorem arises_project {id : FragmentId} {seen : Option Behaviour}
    (done : ((setting.interaction.fragment id).project setting view).result = .ok seen) :
    (seen.getD .skip).Arises setting :=
  (Fragment.sees_of_result done).arises (Fragment.rooted_unfoldFragment _ _ id)

/-- What a viewpoint sees of the body has an origin. -/
theorem arises_projectSequence {seen : Option Behaviour}
    (done : (setting.projectSequence view setting.body).result = .ok seen) :
    (seen.getD .skip).Arises setting := by
  obtain ⟨parts, partsDone, rfl⟩ := Fragment.result_inSequence_eq_ok_iff.mp done
  rw [Fragment.inTurn_projections, Attempt.result_mapM, mapM_eq_ok_iff] at partsDone
  apply Fragment.arises_sequenceOf
  intro part member
  obtain ⟨fragment, inBody, partDone⟩ := exists_left_of_mem partsDone member
  obtain ⟨id, _, rfl⟩ := List.mem_map.mp inBody
  exact arises_project partDone

end Setting

end SequenceChart
