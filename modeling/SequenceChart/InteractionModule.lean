import SequenceChart.Composition
import SequenceChart.Projection

/-!
The module of an interaction defines one process a lifeline, the process that
runs the bodies of until fragments, and their composition, and exports the
whole as `Main`.
-/

namespace SequenceChart

namespace Setting

variable (setting : Setting)

/-- What the until process does at one fragment: enter it with all lifelines,
run its body, leave it with them, and start again. -/
def untilBranch (internal : List String) (id : FragmentId) : Attempt Behaviour := do
  match ← entryAt setting.interaction.fragments id.index with
  | .until intra body =>
      let inner ← (setting.interaction.fragment body).project setting .until
      let enter ← setting.untils.event .enter id
      let run := (untilHeader intra internal).around (inner.getD .skip)
      let leave ← setting.untils.event .leave id
      return .grouped
        (.andThen (.perform enter run) (.perform leave (.named untilProcessName)))
  | _ => Attempt.quietly (.error (.notUntil id))

/-- The process that runs the bodies of until fragments on behalf of all
lifelines, and stops together with them. -/
def untilProcess : Attempt (Option Declaration) :=
  if setting.untils.isRequired then do
    let internal ← setting.internalChannels
    let branches ← setting.untils.fragments.mapM (setting.untilBranch internal)
    return some (.process untilProcessName
      (.joinAll .externalChoice (.perform (.signal finish) .skip) branches))
  else
    return none

def lifelinesName : String :=
  "Lifelines"

def mainName : String :=
  "Main"

def lifelineDefinition (actor : ActorId) : Attempt Declaration := do
  let seen ← setting.projectSequence (.lifeline actor) setting.body
  let body := match seen with
    | some behaviour => Behaviour.andThen behaviour .finished
    | none => .finished
  let name ← setting.specification.lifelineName actor
  return .process name body

/-- The handshake channels that are hidden, and the end of all lifelines. -/
def hiddenSignals : List String :=
  setting.handshakeChannels ++ (if setting.isSequential then [] else [finish])

/-- The exported process, given the channels of the memory: the lifelines with
their memory, and with all internal channels hidden. -/
def mainBehaviour (memory : List String) : Behaviour :=
  let lifelines := Behaviour.named lifelinesName
  let ending := Behaviour.perform (.signal terminate) .skip
  if memory.isEmpty then
    if setting.hiddenSignals.isEmpty then
      lifelines
    else
      .hiding lifelines (.productions setting.hiddenSignals)
  else
    let shared := memory ++ [terminate]
    let start := Behaviour.named (qualified (memoryName setting.interaction.name) "Init")
    .hiding
      (.grouped
        (.synchronised (.grouped (.andThen lifelines ending)) (.productions shared)
          (.grouped (.interrupted start ending))))
      (.productions (setting.hiddenSignals ++ shared))

def lifelineDefinitions : Attempt (List Declaration) :=
  if setting.isSequential then do
    Attempt.log .debug (setting.interaction.name ++
      " has a single lifeline, generating it sequentially")
    let behaviour ← setting.projectBody (.sequential setting.lifelines.head?)
    return [.process lifelinesName behaviour]
  else do
    let lifelines ← setting.lifelines.mapM setting.lifelineDefinition
    let runner ← setting.untilProcess
    let composed ← setting.composition
    return lifelines ++ runner.toList ++ [.process lifelinesName composed]

end Setting

def Specification.interactionModule (specification : Specification) (id : InteractionId) :
    Attempt Declaration := do
  let setting ← specification.setting id
  let definitions ← setting.lifelineDefinitions
  let untilChannel ← setting.untils.declaration
  let parChannel ← setting.pars.declaration
  let memory ← specification.memoryChannels id
  return .module setting.interaction.name definitions
    (untilChannel.toList ++ parChannel.toList ++
      [.process Setting.mainName (setting.mainBehaviour memory)])

end SequenceChart
