import SequenceChart.Header
import SequenceChart.Meeting
import SequenceChart.Memory

/-!
The projection of a fragment is what one viewpoint sees of it, or nothing at
all if it has no part in it.  Messages wait for their partners in `Idle`, so
that no lifeline stops the clock of another.

The order in which the parts of a fragment are looked at is fixed, since it
decides which fault is met first and in which order notices are made.
-/

namespace SequenceChart

/-- A projection that is still to be worked out. -/
abbrev Projection := Unit → Attempt (Option Behaviour)

def inTurn (projections : List Projection) : Attempt (List (Option Behaviour)) :=
  projections.mapM fun projection => projection ()

/-- The relevant ones among several projections in sequence, or nothing if there
are none. -/
def inSequence (projections : List Projection) : Attempt (Option Behaviour) := do
  let seen ← inTurn projections
  let parts := seen.filterMap id
  return if parts.isEmpty then none else some (.sequence parts)

namespace Setting

variable (setting : Setting)

def termOf (id : ExpressionId) : Except Fault Term :=
  setting.specification.termOf setting.interaction.toDiagram id

def readsOf (ids : List ExpressionId) : Except Fault (List VariableId) := do
  let read ← ids.mapM fun id => (setting.interaction.expression id).reads
  return read.flatten

def loadsOf (ids : List ExpressionId) : Attempt (List Event) := do
  let ids ← setting.readsOf ids
  setting.specification.loads ids

/-- The channels that carry time, handshakes and memory accesses, as opposed to
messages. -/
def internalChannels : Except Fault (List String) := do
  let memory ← setting.specification.memoryChannels setting.id
  return [tock, finish, terminate] ++ setting.handshakeChannels ++ memory

/-- The placeholder of a construct without meaning, which is reported. -/
def unsupported (fragment : FragmentId) (what : String) : Attempt Behaviour := do
  Attempt.log .warn (what ++ " in interaction " ++ setting.interaction.name ++
    " is not supported, generating STOP")
  Attempt.report (.fragment setting.id fragment setting.interaction.name
    (setting.interaction.location fragment)
    (what ++ " is not supported, generating STOP") .warning)
  return .annotated .stop ("unsupported: " ++ what)

def fieldOf : Argument → Except Fault Field
  | .value expression => do
      let term ← setting.termOf expression
      return .output term
  | .bind id => do
      let found ← setting.specification.variableAt id
      return .input found.name
  | .ignored => .ok .ignored

def messageEvent (message : Message) : Except Fault Event := do
  let fields ← message.arguments.mapM setting.fieldOf
  let direction ← setting.specification.directionOf message
  return .message message direction fields

/-- A message: load what is sent, wait for the exchange, store what was
received. -/
def projectMessage (view : Viewpoint) (message : Message) : Attempt Behaviour := do
  let event ← setting.messageEvent message
  let storing ← view.storesFor setting.specification message
  let stores ← if storing then setting.specification.stores message.bindings else pure []
  let loads ← setting.loadsOf message.values
  return .performAll loads (.idle (.perform event (.performAll stores .skip)))

def projectGuarded (guard : ExpressionId) (body : Behaviour) : Attempt Behaviour := do
  let loads ← setting.loadsOf [guard]
  let condition ← setting.termOf guard
  return .performAll loads (.guarded condition body.enclose)

def projectLoop (bound : Option Bound) (body : Behaviour) : Attempt Behaviour := do
  let loads ← setting.loadsOf (bound.toList.flatMap Bound.sides)
  let header ← setting.specification.loopHeader setting.interaction.toDiagram bound
  return .performAll loads (header.around body)

/-- The body of a timer.  Its owner times it even without taking part in it. -/
def timedBody (view : Viewpoint) (owner : ActorId) (body : Option Behaviour) :
    Attempt (Option Behaviour) :=
  match body with
  | some behaviour => return some behaviour
  | none =>
      if view.isFor owner then do
        let found ← setting.specification.actor owner
        Attempt.log .debug (found.name ++ " times a fragment it takes no part in")
        return some .skip
      else
        return none

/-- A duration around its body, for its owner only. -/
def projectDuration (view : Viewpoint) (owner : ActorId) (bound : Bound)
    (body : Behaviour) : Attempt Behaviour :=
  if view.isFor owner then do
    let loads ← setting.loadsOf bound.sides
    let header ← setting.specification.durationHeader setting.interaction.toDiagram bound
    return .performAll loads (header.around body)
  else
    return body

def projectDeadline (view : Viewpoint) (owner : ActorId) (units : ExpressionId)
    (body : Behaviour) : Attempt Behaviour := do
  let header ←
    setting.specification.deadlineHeader setting.interaction.toDiagram view owner units
  match header with
  | .call _ _ =>
      let loads ← setting.loadsOf [units]
      return .performAll loads (header.around body)
  | .remark _ => return header.around body

def meetsAt (view : Viewpoint) (kind : HandshakeKind) : Bool :=
  view.synchronises && (setting.synchronisation kind).isRequired

/-- Arms side by side, between the two halves of a handshake if the lifelines
meet at the fragment. -/
def projectPar (view : Viewpoint) (id : FragmentId) (arms : List (Option Behaviour)) :
    Attempt (Option Behaviour) := do
  let behaviours := arms.map fun arm => arm.getD .skip
  let body := Behaviour.combine .interleaving behaviours
  if setting.meetsAt view .par then
    let enter ← setting.pars.event .enter id
    let leave ← setting.pars.event .leave id
    let enclosed := if behaviours.length ≤ 1 then body.grouped else body
    return some (.sequence
      [.idle (.perform enter enclosed), .idle (.perform leave .skip)])
  else if arms.all Option.isNone then
    return none
  else
    return some body

def projectUntil (intra : MessageSet) (body : Option Behaviour) : Attempt Behaviour := do
  let internal ← setting.internalChannels
  return (untilHeader intra internal).around (body.getD .skip)

/-- One operand of a branch. -/
structure Arm where
  guard : Option ExpressionId
  relevant : Bool
  behaviour : Behaviour
  deriving DecidableEq, Repr

/-- The operand of a branch with the given guard, once its body is projected. -/
def projectArm (guard : Option ExpressionId) (projection : Projection) : Attempt Arm := do
  let body ← projection ()
  let behaviour := body.getD .skip
  match guard with
  | none => return ⟨none, body.isSome, behaviour⟩
  | some condition =>
      let term ← setting.termOf condition
      return ⟨guard, body.isSome, .guarded term behaviour.enclose⟩

def chooseAmong (kind : BranchKind) (operands : List Behaviour) : Behaviour :=
  match kind with
  | .alt => .combine .externalChoice operands
  | .xalt => .combine .internalChoice operands
  | .opt => .combine .externalChoice (operands ++ [.skip])

def projectBranch (kind : BranchKind) (arms : List Arm) : Attempt (Option Behaviour) :=
  if arms.any Arm.relevant then do
    let loads ← setting.loadsOf (arms.filterMap Arm.guard)
    return some (.performAll loads (chooseAmong kind (arms.map Arm.behaviour)))
  else
    return none

end Setting

/-! ## All fragments -/

mutual

def Fragment.project (setting : Setting) (view : Viewpoint) :
    Fragment → Attempt (Option Behaviour)
  | .message content =>
      if view.isFor content.sender || view.isFor content.receiver then do
        let behaviour ← setting.projectMessage view content
        return some behaviour
      else
        return none
  | .wait actor units =>
      if view.isFor actor then do
        let loads ← setting.loadsOf [units]
        let term ← setting.termOf units
        return some (.performAll loads (.applied "WAIT" [.value term]))
      else
        return none
  | .deadlock actor => return if view.isFor actor then some .stop else none
  | .create id actor created =>
      if view.isFor actor || view.isFor created then do
        let behaviour ← setting.unsupported id "lifeline creation"
        return some behaviour
      else
        return none
  | .loop bound body => do
      match ← body.project setting view with
      | none => return none
      | some inner =>
          let behaviour ← setting.projectLoop bound inner
          return some behaviour
  | .branch kind operands => do
      let arms ← (Fragment.operandProjections setting view operands).mapM
        fun operand => setting.projectArm operand.1 operand.2
      setting.projectBranch kind arms
  | .par id operands => do
      let arms ← inTurn (Fragment.projections setting view operands)
      setting.projectPar view id arms
  | .duration owner bound body => do
      let inner ← body.project setting view
      match ← setting.timedBody view owner inner with
      | none => return none
      | some timed =>
          let behaviour ← setting.projectDuration view owner bound timed
          return some behaviour
  | .deadline owner units body => do
      let inner ← body.project setting view
      match ← setting.timedBody view owner inner with
      | none => return none
      | some timed =>
          let behaviour ← setting.projectDeadline view owner units timed
          return some behaviour
  | .until id intra body =>
      if setting.meetsAt view .until then do
        let behaviour ← setting.untils.handshake id
        return some behaviour
      else do
        let inner ← body.project setting .until
        let behaviour ← setting.projectUntil intra inner
        return some behaviour
  | .critical id body => do
      match ← body.project setting view with
      | none => return none
      | some _ =>
          let behaviour ← setting.unsupported id "critical region"
          return some behaviour
  | .operand guard fragments => do
      match ← inSequence (Fragment.projections setting view fragments), guard with
      | none, _ => return none
      | some body, none => return some body
      | some body, some condition =>
          let behaviour ← setting.projectGuarded condition body
          return some behaviour
  | .deferred content => (content ()).project setting view
  | .unresolved fault => Attempt.quietly (.error fault)

def Fragment.projections (setting : Setting) (view : Viewpoint) :
    List Fragment → List Projection
  | [] => []
  | fragment :: rest =>
      (fun _ => fragment.project setting view) :: Fragment.projections setting view rest

/-- The guards and bodies of the operands of a branch.  A fragment that is no
operand stands for an unguarded one. -/
def Fragment.operandProjections (setting : Setting) (view : Viewpoint) :
    List Fragment → List (Option ExpressionId × Projection)
  | [] => []
  | .operand guard fragments :: rest =>
      (guard, fun _ => inSequence (Fragment.projections setting view fragments)) ::
        Fragment.operandProjections setting view rest
  | fragment :: rest =>
      (none, fun _ => fragment.project setting view) ::
        Fragment.operandProjections setting view rest

end

namespace Setting

variable (setting : Setting)

def projectSequence (view : Viewpoint) (fragments : List Fragment) :
    Attempt (Option Behaviour) :=
  inSequence (Fragment.projections setting view fragments)

def projectBody (view : Viewpoint) : Attempt Behaviour := do
  let behaviour ← setting.projectSequence view setting.body
  return behaviour.getD .skip

end Setting

end SequenceChart
