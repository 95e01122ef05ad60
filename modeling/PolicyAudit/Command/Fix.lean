-- SUMMARY: Fixing documents in place.
import PolicyAudit.Command.Check

/-! ## Reports about fixes -/

namespace PolicyAudit

/-- What was fixed in a file. -/
structure FixReport where
  path : String
  /-- The codes of the issues fixed, in order. -/
  applied : List String
  written : Bool
  /-- The issues that are left. -/
  remaining : List Issue

namespace FixReport

/-- The members of a report. -/
def toJson (r : FixReport) : Json :=
  .object [("path", .string r.path), ("applied", .array (r.applied.map .string)),
    ("written", .bool r.written), ("remaining", .array (r.remaining.map Issue.toJson))]

/-- The line of a finding that is left. -/
def issueLine (palette : Palette) (issue : Issue) : String :=
  let severity := palette.severity issue.severity
  let code := palette.paint .dimmed issue.code
  s!"  {severity} {code} {issue.message}"

/-- The lines of a report. A file without findings has none. -/
def lines (palette : Palette) (dryRun : Bool) (r : FixReport) : List String :=
  if r.applied.isEmpty && r.remaining.isEmpty then []
  else
    let mark := palette.paint .green "✓"
    let verb := if dryRun then "would apply" else "applied"
    let number := r.applied.length
    let codes := ", ".intercalate r.applied
    [palette.paint .bold r.path]
      ++ (if r.applied.isEmpty then [] else [s!"  {mark} {verb} {number} fix(es): {codes}"])
      ++ r.remaining.map (issueLine palette) ++ [""]

end FixReport

/-! ## The command -/

namespace Command

/-- Fixes files one after the other. Files that are not validated are passed over. -/
def fixFiles (dryRun : Bool) : Disk → Service → List String →
    Except AuditError (List FixReport) × Disk
  | disk, _, [] => (.ok [], disk)
  | disk, service, name :: rest =>
    match disk.readDocument name with
    | .error e => (.error e, disk)
    | .ok text =>
      match service.didOpen name text fileVersion with
      | (none, service) => fixFiles dryRun disk service rest
      | (some _, service) =>
        match service.fixAll name with
        | (.error e, _) => (.error e, disk)
        | (.ok done, service) =>
          let written := !dryRun && !done.applied.isEmpty
          let disk := if written then disk.write name done.text else disk
          let remaining := (done.result?.map (·.issues)).getD []
          let (others, disk) := fixFiles dryRun disk (service.didClose name) rest
          (others.map (⟨name, done.applied, written, remaining⟩ :: ·), disk)

/-- The lines about fixes. -/
def fixLines (palette : Palette) (dryRun : Bool) (reports : List FixReport) : List String :=
  let total := reports.foldl (fun n report => n + report.applied.length) 0
  reports.flatMap (·.lines palette dryRun) ++ palette.heading "Summary"
    ++ [palette.entry "Files" (toString reports.length), palette.entry "Fixes" (toString total)]

/-- Fixes documents. -/
def runFix (disk : Disk) (palette : Palette) (human : Bool) (service : Service)
    (paths : List String) (dryRun : Bool) : Outcome :=
  match disk.documents paths with
  | .error e => .failed disk e
  | .ok names =>
    match fixFiles dryRun disk service names with
    | (.error e, disk) => .failed disk e
    | (.ok reports, disk) => .printed disk <|
      if human then Palette.print (fixLines palette dryRun reports)
      else Response.print ⟨.ok, .array (reports.map FixReport.toJson)⟩

end Command

end PolicyAudit
