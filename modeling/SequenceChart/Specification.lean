import SequenceChart.Diagram
import SequenceChart.Fault
import SequenceChart.Property
import SequenceChart.Renaming
import SequenceChart.ValueType

/-!
A specification holds the symbols, groups, interactions and scripts from which
models are generated.  It grows by adding entries at the end of its tables;
existing entries change only where a new one is entered into its group, or
takes over the variables it lists.
-/

namespace SequenceChart

/-- What an actor is to the modelled system. -/
inductive ActorKind where
  | world
  | target
  | component
  deriving DecidableEq, Repr

/-- A participant of interactions. -/
structure Actor where
  name : String
  kind : ActorKind
  deriving DecidableEq, Repr

def Actor.isWorld (actor : Actor) : Bool :=
  actor.kind = .world

structure Variable where
  name : String
  type : ValueType
  owner : Option InteractionId
  deriving DecidableEq, Repr

/-- A constant, and the name under which models refer to it. -/
structure Constant where
  name : String
  qualifiedName : String
  deriving DecidableEq, Repr

/-- The system that interactions are checked against. -/
structure Target where
  process : String
  channels : List String
  renamed : Renaming
  deriving DecidableEq, Repr

/-- Interactions, scripts and properties around one target. -/
structure Group where
  name : Option String
  target : Option Target
  interactions : List InteractionId
  scripts : List ScriptId
  properties : List Property
  deriving DecidableEq, Repr

/-- A diagram that belongs to a group.  Diagrams come into a specification by
`Specification.addInteraction` alone, which is given the group.  So no interaction is
without one, and what is written about interactions has no case for that. -/
structure Interaction extends Diagram where
  group : GroupId
  deriving DecidableEq, Repr

/-- Where the events of a script are declared. -/
inductive EventSource where
  | interaction (id : InteractionId)
  | target (group : GroupId)
  deriving DecidableEq, Repr

/-- A process written out by the user, which belongs to a group. -/
structure Script where
  name : String
  body : String
  group : GroupId
  events : Option EventSource
  deriving DecidableEq, Repr

/-- All that models are generated from. -/
structure Specification where
  name : String
  actors : Array Actor
  /-- The positions of actors under their names. -/
  actorsByName : List (String × ActorId)
  vars : Array Variable
  constants : Array Constant
  groups : Array Group
  interactions : Array Interaction
  scripts : Array Script
  deriving DecidableEq, Repr

namespace Specification

def empty (name : String) : Specification where
  name := name
  actors := #[]
  actorsByName := []
  vars := #[]
  constants := #[]
  groups := #[]
  interactions := #[]
  scripts := #[]

variable (specification : Specification)

def actor (id : ActorId) : Except Fault Actor :=
  entryAt specification.actors id.index

def variableAt (id : VariableId) : Except Fault Variable :=
  entryAt specification.vars id.index

def constantAt (id : ConstantId) : Except Fault Constant :=
  entryAt specification.constants id.index

def group (id : GroupId) : Except Fault Group :=
  entryAt specification.groups id.index

def interaction (id : InteractionId) : Except Fault Interaction :=
  entryAt specification.interactions id.index

def script (id : ScriptId) : Except Fault Script :=
  entryAt specification.scripts id.index

def groupIds : List GroupId :=
  (List.range specification.groups.size).map TableId.mk

def actorNamed (name : String) : Except Fault Actor :=
  match specification.actorsByName.lookup name with
  | some id => specification.actor id
  | none => .error .missingActor

def interactionNamed (name : String) : Except LookupError InteractionId :=
  match specification.interactions.findIdx? (fun interaction => interaction.name = name) with
  | some index => .ok ⟨index⟩
  | none => .error (.unknownInteraction name)

/-- The first group to which the user gave a name. -/
def groupNamed (name : String) : Except LookupError GroupId :=
  match specification.groups.findIdx? (fun group => group.name = some name) with
  | some index => .ok ⟨index⟩
  | none => .error (.unknownGroup name)

/-- Add an actor, and keep its position under its name.  Actors have distinct names. -/
def addActor (name : String) (kind : ActorKind) :
    Except Fault (Specification × ActorId) :=
  if (specification.actorsByName.lookup name).isSome then
    .error (.duplicateActor name)
  else
    let id : ActorId := ⟨specification.actors.size⟩
    .ok ({ specification with
      actors := specification.actors.push ⟨name, kind⟩
      actorsByName := (name, id) :: specification.actorsByName }, id)

def addVariable (name : String) (type : ValueType) : Specification × VariableId :=
  ({ specification with vars := specification.vars.push ⟨name, type, none⟩ },
    ⟨specification.vars.size⟩)

def addConstant (name qualifiedName : String) : Specification × ConstantId :=
  ({ specification with constants := specification.constants.push ⟨name, qualifiedName⟩ },
    ⟨specification.constants.size⟩)

/-- Add a group as it is, with all that it lists. -/
def enterGroup (group : Group) : Specification × GroupId :=
  ({ specification with groups := specification.groups.push group },
    ⟨specification.groups.size⟩)

/-- Add a group without interactions, scripts and properties. -/
def addGroup (name : Option String) (target : Option Target) : Specification × GroupId :=
  specification.enterGroup ⟨name, target, [], [], []⟩

def updateGroup (id : GroupId) (change : Group → Group) : Except Fault Specification := do
  let found ← specification.group id
  return { specification with
    groups := specification.groups.setIfInBounds id.index (change found) }

def giveVariable (owner : InteractionId) (vars : Array Variable) (id : VariableId) :
    Except Fault (Array Variable) := do
  let found ← entryAt vars id.index
  return vars.setIfInBounds id.index { found with owner := some owner }

/-- Add a diagram to a group.  Its variables become its own, and are looked at
before the group is. -/
def addInteraction (group : GroupId) (diagram : Diagram) :
    Except Fault (Specification × InteractionId) := do
  let id : InteractionId := ⟨specification.interactions.size⟩
  let vars ← diagram.locals.foldlM (giveVariable id) specification.vars
  let extended := { specification with
    interactions := specification.interactions.push ⟨diagram, group⟩
    vars := vars }
  let placed ← extended.updateGroup group fun found =>
    { found with interactions := found.interactions ++ [id] }
  return (placed, id)

def addScript (group : GroupId) (name body : String) (events : Option EventSource) :
    Except Fault (Specification × ScriptId) := do
  let id : ScriptId := ⟨specification.scripts.size⟩
  let extended := { specification with
    scripts := specification.scripts.push ⟨name, body, group, events⟩ }
  let placed ← extended.updateGroup group fun found =>
    { found with scripts := found.scripts ++ [id] }
  return (placed, id)

def addProperty (group : GroupId) (property : Property) : Except Fault Specification :=
  specification.updateGroup group fun found =>
    { found with properties := found.properties ++ [property] }

end Specification

end SequenceChart
