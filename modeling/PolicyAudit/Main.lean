-- SUMMARY: The program: reads the files that matter, runs the command, and writes files back.
import PolicyAudit.Command.Run

/-! ## Reading the disk

The parts of the disk that a run may look at are read beforehand. -/

namespace PolicyAudit.Program

/-- A file or folder with everything below it. -/
partial def readNode (name : String) : IO DiskNode := do
  let real ← IO.FS.realPath name
  if ← real.isDir then
    let mut entries : Keyed DiskNode := []
    for entry in ← real.readDir do
      try
        entries := Keyed.insert entry.fileName (← readNode entry.path.toString) entries
      catch _ => pure ()
    return .folder entries
  else
    return .file (← IO.FS.readBinFile name)

/-- Whether a name leads to a folder. -/
def isFolder (name : String) : IO Bool := do
  try (← IO.FS.realPath name).isDir
  catch _ => return false

/-- Adds an empty folder for each step of a name that leads to one. -/
def addSteps (disk : Disk) (name : String) : IO Disk := do
  let mut disk := disk
  let mut place : Place := if FileName.isAbsolute name then [] else disk.here
  for part in Text.split '/' name do
    if part = ".." then place := place.dropLast
    else if part ≠ "" ∧ part ≠ "." then
      place := place ++ [part]
      if (disk.root.at? place).isNone then
        if ← isFolder (Disk.nameOf place) then
          disk := { disk with root := DiskNode.put (.folder []) place disk.root }
  return disk

/-- Adds what a name leads to, if that exists. -/
def add (disk : Disk) (name : String) : IO Disk := do
  let folder := FileName.within (Disk.nameOf disk.here) name
  let parts := (Text.split '/' folder).dropLast
  let disk ← addSteps disk ("/".intercalate parts ++ "/")
  try
    let node ← readNode name
    let place := (Text.split '/' folder).foldl (fun place part =>
      if part = ".." then place.dropLast
      else if part = "" ∨ part = "." then place
      else place ++ [part]) []
    return { disk with root := DiskNode.put node place disk.root }
  catch _ => return disk

/-- The paths of the documents of a command. -/
def documentPaths : Command → List String
  | .check paths .. | .fix paths .. | .classify paths => paths
  | .rules _ => []

/-- The environment variables that settings come from. -/
def readVariables : IO (Keyed String) := do
  let names := [Settings.fileVariable, "POLICY_LINT_SCHEMAS_DIR", "POLICY_LINT_DEBOUNCE_MS",
    "POLICY_LINT_STRICT", "POLICY_LINT_DISABLED_RULES"]
  names.foldlM (fun environment name => do
    match ← IO.getEnv name with
    | some value => return Keyed.insert name value environment
    | none => return environment) []

/-- The folder of the settings of the user. -/
def userFolder? : IO (Option String) := do
  match ← IO.getEnv "XDG_CONFIG_HOME" with
  | some folder => if FileName.isAbsolute folder then return some folder
  | none => pure ()
  return (← IO.getEnv "HOME").map (FileName.within · ".config")

/-- What a command is run in: the settings files, then the schema files that they name, and the
documents. -/
def readSurroundings (invocation : Invocation) : IO Surroundings := do
  let here := (Text.split '/' (← IO.currentDir).toString).filter (· ≠ "")
  let environment ← readVariables
  let user? ← userFolder?
  let mut disk ← addSteps ⟨.folder [], here⟩ (Disk.nameOf here)
  for folder in disk.around.map Disk.nameOf do
    disk ← add disk (FileName.within folder Settings.projectFile)
  disk ← add disk (FileName.within (Settings.projectFolder disk) "schemas")
  let files := (user?.map (FileName.within · Settings.userFile)).toList
    ++ invocation.settingsFile?.toList ++ (Keyed.find? Settings.fileVariable environment).toList
  disk ← files.foldlM add disk
  match invocation.settings ⟨disk, environment, user?⟩ with
  | .ok settings => disk ← settings.schemaFolder?.toList.foldlM add disk
  | .error _ => pure ()
  disk ← (documentPaths invocation.command).foldlM add disk
  return ⟨disk, environment, user?⟩

/-! ## Running -/

/-- Writes the documents back that are different after a run. -/
def writeBack (before after : Disk) (names : List String) : IO Unit :=
  names.forM fun name =>
    match before.read name, after.read name with
    | .ok old, .ok new => if old = new then pure () else IO.FS.writeFile name new
    | _, _ => pure ()

/-- What is shown when a command line cannot be understood. -/
def usage : String :=
  "usage: policy-lint [--robot] [--format human|json] [--config FILE] [--schemas DIR] COMMAND\n" ++
  "  check PATH... [--strict] [--max-errors N] [--skip RULES] [--only-issues]\n" ++
  "  fix PATH... [--strict] [--max-errors N] [--skip RULES] [--dry-run]\n" ++
  "  classify PATH...\n" ++
  "  rules [--explain RULE]"

/-- The exit code when documents have errors. -/
def issuesCode : UInt32 := 1

/-- The exit code when a command could not do its work. -/
def failureCode : UInt32 := 2

/-- Runs what a command line asks for. -/
def run (invocation : Invocation) : IO UInt32 := do
  let around ← readSurroundings invocation
  let plain := (← IO.getEnv "NO_COLOR").isSome
  let palette : Palette := ⟨!plain && (← (← IO.getStdout).isTty)⟩
  let outcome := invocation.run around palette
  let names := match around.disk.documents (documentPaths invocation.command) with
    | .ok names => names
    | .error _ => []
  writeBack around.disk outcome.disk names
  IO.print outcome.output
  match outcome.result with
  | .ok () => return 0
  | .error (.validationFailed _) => return issuesCode
  | .error e =>
    if invocation.robot then IO.print (Response.print (.ofError e))
    else IO.eprintln s!"Error: {e.message}"
    return failureCode

end PolicyAudit.Program

/-- The program. -/
def main (arguments : List String) : IO UInt32 := do
  let settingsFile? ← IO.getEnv PolicyAudit.Settings.fileVariable
  match PolicyAudit.Invocation.ofArguments settingsFile? arguments with
  | .ok invocation => PolicyAudit.Program.run invocation
  | .error .helpWanted =>
    IO.println PolicyAudit.Program.usage
    return 0
  | .error .versionWanted =>
    IO.println s!"policy-lint {PolicyAudit.Response.version}"
    return 0
  | .error _ =>
    IO.eprintln PolicyAudit.Program.usage
    return PolicyAudit.Program.failureCode
