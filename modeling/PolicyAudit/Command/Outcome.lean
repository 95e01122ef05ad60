-- SUMMARY: What a command leaves behind, and the files it is about.
import PolicyAudit.Command.Layout
import PolicyAudit.Disk
import PolicyAudit.Error
import PolicyAudit.Json.Printer
import PolicyAudit.Text.Fold

/-! ## Outcomes -/

namespace PolicyAudit

/-- What is printed, whether the command failed, and the disk afterwards. -/
structure Outcome where
  output : String
  result : Except AuditError Unit
  disk : Disk

namespace Outcome

/-- A command failed before it printed anything. -/
def failed (disk : Disk) (error : AuditError) : Outcome := ⟨"", .error error, disk⟩

/-- A command printed its results. -/
def printed (disk : Disk) (output : String) : Outcome := ⟨output, .ok (), disk⟩

end Outcome

/-! ## Results for programs

Other programs get one JSON value, with the status first, the version, and the results last. -/

/-- How a command ended. -/
inductive Status where
  | ok
  /-- The results have errors in them. -/
  | failed (errors : Nat)
  /-- There are no results. -/
  | error (code message : String)

/-- The member of a status in a response. -/
def Status.toJson : Status → Json
  | ok => .string "ok"
  | failed errors => .object [("failed", .object [("errors", .nat errors)])]
  | error code message =>
    .object [("error", .object [("code", .string code), ("message", .string message)])]

/-- The results of a command as another program reads them. -/
structure Response where
  status : Status
  data : Json

namespace Response

/-- The version of the program. -/
def version : String := "0.1.0"

/-- The response of a command that failed. -/
def ofError (e : AuditError) : Response := ⟨.error e.code e.message, .null⟩

/-- The text of a response. -/
def print (response : Response) : String :=
  (Json.object [("status", response.status.toJson), ("version", .string version),
    ("data", response.data)]).pretty ++ "\n"

end Response

/-! ## Documents on a disk -/

namespace Disk

/-- Whether a file in a folder is taken for a policy document. -/
def isPolicyName (name : String) : Bool :=
  (FileName.extension? name).any fun extension =>
    ["json", "jsonc"].contains (Text.foldCase extension)

/-- The files that a path stands for: itself, or all policy documents below it in the order of their
places. -/
def documentsAt (disk : Disk) (path : String) : Except AuditError (List String) :=
  if disk.isFile path then .ok [path]
  else if disk.isFolder path then
    let found := (disk.filesBelow path).filter fun (place, _) => place.getLast?.any isPolicyName
    .ok (found.map (·.2))
  else .error (.notFound s!"path {path}")

/-- The files that some paths stand for. -/
def documents (disk : Disk) (paths : List String) : Except AuditError (List String) := do
  return (← paths.mapM disk.documentsAt).flatten

/-- The text of a document. -/
def readDocument (disk : Disk) (name : String) : Except AuditError String :=
  (disk.read name).mapError fun fault => .io fault.message

end Disk

end PolicyAudit
