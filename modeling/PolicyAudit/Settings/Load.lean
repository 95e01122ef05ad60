-- SUMMARY: Finding and loading the settings that are in force somewhere on a disk.
import PolicyAudit.Disk
import PolicyAudit.Settings.Layer

/-! ## Surroundings -/

namespace PolicyAudit

/-- What the program is started in. -/
structure Surroundings where
  disk : Disk
  /-- The environment variables. -/
  environment : Keyed String
  /-- The folder of the settings of the user. -/
  userFolder? : Option String

namespace Settings

/-- The name of the file with the settings of a project. -/
def projectFile : String := "policy-lint.toml"

/-- The name of the file with the settings of a user, in the folder for them. -/
def userFile : String := "policy-lint/config.toml"

/-- The variable that names one more file of settings. -/
def fileVariable : String := "POLICY_LINT_CONFIG"

/-- The folder of the project: the nearest one around the current folder that has a file of settings,
or else the current folder. -/
def projectFolder (disk : Disk) : String :=
  let folders := disk.around.map Disk.nameOf
  (folders.find? fun folder => disk.isFile (FileName.within folder projectFile)).getD
    (Disk.nameOf disk.here)

/-! ## Loading

The file of the user comes first, then the file of the project, then a file that is named on the
command line or in a variable, and the other variables last. Only the file that is named must
exist. -/

/-- The layer in a file, if the file exists. -/
def layerAt? (disk : Disk) (name : String) : Except AuditError (Option Layer) :=
  if (disk.find? name).isNone then .ok none
  else
    match disk.read name with
    | .error fault => .error (.config s!"read config {name}: {fault.message}")
    | .ok text =>
      match Layer.ofText? text with
      | none => .error (.config s!"parse config {name}")
      | some layer => .ok (some layer)

/-- The folder of the schema files: the one that is set, as seen from the project, or else the
project's own if it has one. -/
def resolveFolder (disk : Disk) (project : String) (settings : Settings) : Settings :=
  let own := FileName.within project "schemas"
  { settings with
    schemaFolder? := match settings.schemaFolder? with
      | some folder => some (FileName.within project folder)
      | none => if disk.isFolder own then some own else none }

/-- The settings in force for a project, with a file that may be named. -/
def load (around : Surroundings) (named? : Option String) (project : String) :
    Except AuditError Settings := do
  let user? ← match around.userFolder? with
    | some folder => layerAt? around.disk (FileName.within folder userFile)
    | none => pure none
  let project? ← layerAt? around.disk (FileName.within project projectFile)
  let named? := named?.or (Keyed.find? fileVariable around.environment)
  let file? ← match named? with
    | none => pure none
    | some name =>
      match ← layerAt? around.disk name with
      | some layer => pure (some layer)
      | none => throw (.config s!"config file {name} not found")
  let environment ← Layer.ofVariables around.environment
  let layers := user?.toList ++ project?.toList ++ file?.toList ++ [environment]
  return (layers.foldl apply default).resolveFolder around.disk project

/-- The texts of the schema files in the folder of the settings. -/
def schemaTexts? (settings : Settings) (disk : Disk) : Option (Keyed String) :=
  settings.schemaFolder?.map fun folder =>
    Kind.all.foldl (fun texts kind =>
      match disk.read (FileName.within folder (Registry.fileName kind.schemaId)) with
      | .ok text => Keyed.insert kind.schemaId text texts
      | .error _ => texts) []

end Settings

end PolicyAudit
