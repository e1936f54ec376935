import SequenceChart.Attempt
import SequenceChart.InteractionModule
import SequenceChart.Library

/-!
Properties become assertions for the model checker.  In a timed check both
sides are lifted over the events of a group's target, which makes a check of
traces decide a timed question.
-/

namespace SequenceChart

/-- The text of a process, lifted by the module of the given name. -/
def liftText (context : Option String) (process : String) : String :=
  match context with
  | some space => application (qualified space "TT") [process]
  | none => process

def Target.contextDeclarations (target : Target) : List Declaration :=
  [.events "Context" (.productions target.channels),
    .definition ⟨"TT", [], true,
      .applied "TTLift" [.events (.named "Context"), .call "P" []]⟩]

namespace Specification

variable (specification : Specification)

def eventGroup : Subject → Except Fault (Option GroupId)
  | .interaction id => do
      let interaction ← specification.interaction id
      return some interaction.group
  | .target group => .ok (some group)
  | .script id => do
      let script ← specification.script id
      match script.events with
      | some (.interaction interactionId) =>
          let interaction ← specification.interaction interactionId
          return some interaction.group
      | some (.target group) => return some group
      | none => return none

/-- The group whose target provides the events of a subject, if one does. -/
def contextGroup (subject : Subject) : Except Fault (Option GroupId) := do
  match ← specification.eventGroup subject with
  | none => return none
  | some group =>
      let found ← specification.group group
      return if found.target.isSome then some group else none

def contextName (subject : Subject) : Attempt String := do
  match ← specification.contextGroup subject with
  | some group => specification.groupName group
  | none =>
      Attempt.log .debug ("no tick-tock context for " ++ subject.label ++
        ", lifting with " ++ emptyContext)
      return emptyContext

/-- The module that lifts a subject in a model, if the model needs a lift. -/
def contextIn (model : SemanticModel) (subject : Subject) : Attempt (Option String) :=
  match model with
  | .trace => return none
  | .timed => do
      let context ← specification.contextName subject
      return some context

end Specification

/-- How an assertion refers to a process. -/
inductive Reference where
  | main (group interaction : String)
  | target (group : String)
  | script (group name : String)
  /-- The target of a group that has none. -/
  | absent (group : String)
  deriving DecidableEq, Repr

def Reference.text : Reference → String
  | .main group interaction => qualified (qualified group interaction) Setting.mainName
  | .target group => qualified group "Target"
  | .script group name => qualified group name
  | .absent group => (Behaviour.annotated .stop (group ++ " has no target")).text

structure Side where
  context : Option String
  process : Reference
  deriving DecidableEq, Repr

def Side.text (side : Side) : String :=
  liftText side.context side.process.text

namespace Specification

variable (specification : Specification)

def referenceTo : Subject → Attempt Reference
  | .interaction id => do
      let interaction ← specification.interaction id
      let group ← specification.groupName interaction.group
      return .main group interaction.name
  | .target id => do
      let name ← specification.groupName id
      let group ← specification.group id
      if group.target.isSome then
        return .target name
      else
        Attempt.log .warn ("group " ++ name ++ " has no target, checking against STOP")
        Attempt.report (.general ("Warning in group " ++ name)
          "property refers to the target of a group without one, generating STOP" .warning)
        return .absent name
  | .script id => do
      let script ← specification.script id
      let group ← specification.groupName script.group
      return .script group script.name

def sideOf (model : SemanticModel) (subject : Subject) : Attempt Side := do
  let process ← specification.referenceTo subject
  let context ← specification.contextIn model subject
  return ⟨context, process⟩

end Specification

/-- A check for the model checker. -/
inductive Assertion where
  | refinement (negated : Bool) (model : SemanticModel) (abstract concrete : Side)
  | core (negated : Bool) (kind : CoreKind) (subject : Side)
  deriving DecidableEq, Repr

/-- What stands between the keyword and a negated check. -/
def negation (negated : Bool) : String :=
  if negated then "not " else ""

def Assertion.text : Assertion → String
  | .refinement negated model abstract concrete =>
      let check := "assert " ++ negation negated ++ abstract.text ++ " [T= " ++ concrete.text
      match model with
      | .trace => check ++ " :[tau priority]: " ++ (EventSet.members [tock]).text
      | .timed => check
  | .core negated kind subject =>
      let checked := "assert " ++ negation negated
      match kind with
      | .deterministic => checked ++ subject.text ++ " :[deterministic]"
      | .deadlockFree => checked ++ subject.text ++ " :[deadlock free]"
      | .divergenceFree => checked ++ subject.text ++ " :[divergence free]"
      | .timelockFree =>
          let clock := EventSet.members [tock]
          let free := Behaviour.join .interleaving (.applied "RUN" [.events clock])
            (.applied "CHAOS" [.events (.without clock)])
          checked ++ free.text ++ " [F= " ++ subject.text

namespace Specification

variable (specification : Specification)

/-- The assertion of a refinement in one direction.  The checker reads its
relation as "is refined by", so the right process is written first. -/
def refinementAssertion (property : Refinement) : Attempt Assertion := do
  let left ← specification.sideOf property.model property.left
  let right ← specification.sideOf property.model property.right
  return .refinement property.negated property.model right left

/-- The assertions of a refinement; equality is refinement both ways. -/
def refinementAssertions (property : Refinement) : Attempt (List Assertion) :=
  match property.operator with
  | .refines => do
      let only ← specification.refinementAssertion property
      return [only]
  | .equals => do
      let first ← specification.refinementAssertion property
      let second ← specification.refinementAssertion property.swapped
      return [first, second]

def coreAssertion (property : CoreProperty) : Attempt Assertion := do
  let subject ← specification.sideOf property.model property.subject
  return .core property.negated property.kind subject

/-- The refinement that a property of an interaction and its target stands
for: it holds if the target refines the interaction, and is observed if the
interaction refines the target. -/
def sequenceRefinement (property : SequenceProperty) : Except Fault Refinement := do
  let interaction ← specification.interaction property.interaction
  let own := Subject.interaction property.interaction
  let target := Subject.target interaction.group
  return match property.kind with
    | .holds => ⟨property.model, .refines, property.negated, target, own⟩
    | .observed => ⟨property.model, .refines, property.negated, own, target⟩

def assertions : Property → Attempt (List Assertion)
  | .refinement property => specification.refinementAssertions property
  | .core property => do
      let only ← specification.coreAssertion property
      return [only]
  | .sequence property => do
      let refinement ← specification.sequenceRefinement property
      specification.refinementAssertions refinement

end Specification

end SequenceChart
