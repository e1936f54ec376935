import SequenceChart.Assertion

/-!
A specification becomes one library and one file a group.  The file of a group
holds its module and the assertions of its properties.
-/

namespace SequenceChart

namespace Specification

variable (specification : Specification)

def targetDeclarations (target : Target) : List Declaration :=
  target.contextDeclarations ++
    [.process "Target" (.verbatim (target.renamed.applyTo target.process))]

def scriptDeclaration (id : ScriptId) : Except Fault Declaration := do
  let script ← specification.script id
  return .process script.name (.verbatim script.body)

/-- The module of a group: its target, its scripts, the memories of all its
interactions, and then the interactions. -/
def groupModule (id : GroupId) : Attempt Declaration := do
  let group ← specification.group id
  let name ← specification.groupName id
  let scripts ← group.scripts.mapM fun script =>
    (specification.scriptDeclaration script : Attempt Declaration)
  let memories ← group.interactions.mapM fun interaction =>
    (specification.memoryModule interaction : Attempt (Option Declaration))
  let interactions ← group.interactions.mapM specification.interactionModule
  return .module name []
    (group.target.toList.flatMap targetDeclarations ++ scripts ++
      memories.flatMap Option.toList ++ interactions)

def groupFile (configuration : Configuration) (id : GroupId) : Attempt GeneratedFile := do
  let name ← specification.groupName id
  Attempt.log .info ("generating group " ++ name)
  let content ← specification.groupModule id
  let group ← specification.group id
  let checks ← group.properties.mapM specification.assertions
  let assertions := checks.flatten
  let sections :=
    (if configuration.header then
        [comment ("generated from " ++ specification.name ++ ", group " ++ name)]
      else
        []) ++
      [inclusion configuration.libraryFile, content.text] ++
      (if assertions.isEmpty then
        []
      else
        [joinWith "\n" (assertions.map Assertion.text)])
  return ⟨name ++ ".csp", sectionsText sections⟩

/-- The file of the first group to which the user gave a name. -/
def groupFileNamed (configuration : Configuration) (name : String) :
    Except LookupError (Attempt GeneratedFile) := do
  let id ← specification.groupNamed name
  return specification.groupFile configuration id

def generate (configuration : Configuration) : Attempt (List GeneratedFile) := do
  let groupFiles ← specification.groupIds.mapM (specification.groupFile configuration)
  let files := ⟨configuration.libraryFile, libraryText configuration⟩ :: groupFiles
  Attempt.log .info ("generated " ++ toString files.length ++ " files for " ++
    specification.name)
  return files

end Specification

end SequenceChart
