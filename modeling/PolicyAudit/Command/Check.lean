-- SUMMARY: Showing the findings about documents.
import PolicyAudit.Command.Outcome
import PolicyAudit.Session.Service

/-! ## Reports about files -/

namespace PolicyAudit

/-- What became of a file. -/
inductive FileStatus where
  | validated
  | syntaxError
  | unrecognized
deriving DecidableEq, Repr

/-- The word for a status in reports. -/
def FileStatus.label : FileStatus → String
  | validated => "validated"
  | syntaxError => "syntax_error"
  | unrecognized => "unrecognized"

/-- The findings about a file. Only a file that is not validated has syntax errors. -/
structure FileReport where
  path : String
  status : FileStatus
  kind? : Option Kind
  issues : List Issue
  truncated : Bool
  faults : List (String × Range)

namespace FileReport

/-- The report about a validated file. -/
def ofValidation (path : String) (v : Validation) : FileReport :=
  ⟨path, .validated, v.kind?, v.issues, v.truncated, []⟩

/-- The report about a file that is not validated, because it is not clean or of no known kind. -/
def unvalidated (path text : String) : FileReport :=
  let doc := Document.ofText text
  let faults := doc.errors.map fun e => (e.message, doc.rangeOf e.span)
  ⟨path, if faults.isEmpty then .unrecognized else .syntaxError, none, [], false, faults⟩

/-- The number of errors, those of syntax included. -/
def errorCount (r : FileReport) : Nat := r.issues.countP Issue.isError + r.faults.length

/-- The number of warnings. -/
def warningCount (r : FileReport) : Nat := r.issues.countP fun i => i.severity = .warning

/-- A file is valid when it has no errors. -/
def valid (r : FileReport) : Bool := r.errorCount = 0

/-- The members of a report. Empty lists are left out. -/
def toJson (r : FileReport) : Json :=
  let list (name : String) (items : List Json) : List (String × Json) :=
    if items.isEmpty then [] else [(name, .array items)]
  .object <|
    [("path", .string r.path), ("status", .string r.status.label),
      ("doc_type", .string (Kind.labelOf r.kind?)), ("valid", .bool r.valid),
      ("error_count", .nat r.errorCount), ("warning_count", .nat r.warningCount),
      ("truncated", .bool r.truncated)]
    ++ list "issues" (r.issues.map Issue.toJson)
    ++ list "syntax_errors" (r.faults.map fun (message, range) =>
      .object [("message", .string message), ("range", range.toJson)])

/-! ## Lines about files -/

/-- The lines of a finding. -/
def issueLines (palette : Palette) (issue : Issue) : List String :=
  let severity := palette.severity issue.severity
  let code := palette.paint .dimmed issue.code
  let range := palette.paint .dimmed issue.range.render
  let hint := palette.paint .cyan "hint:"
  s!"  {severity} {code} {issue.message} {range}" ::
    (match issue.suggestion? with
      | some suggestion => [s!"    {hint} {suggestion}"]
      | none => [])

/-- The lines of a report. Files without findings may be left out. -/
def lines (palette : Palette) (onlyIssues : Bool) (r : FileReport) : List String :=
  let bold := palette.paint .bold r.path
  let dimmed := palette.paint .dimmed r.path
  let kind := Kind.labelOf r.kind?
  match r.status with
  | .unrecognized =>
    let mark := palette.paint .dimmed "-"
    if onlyIssues then [] else [s!"{mark} {dimmed} (not a policy document)"]
  | .syntaxError =>
    let mark := palette.paint .red "✗"
    let severity := palette.severity .error
    [s!"{mark} {bold}"] ++ r.faults.map (fun (message, range) =>
      let range := palette.paint .dimmed range.render
      s!"  {severity} {message} {range}") ++ [""]
  | .validated =>
    if r.issues.isEmpty then
      let mark := palette.paint .green "✓"
      if onlyIssues then [] else [s!"{mark} {dimmed} ({kind})"]
    else
      let mark := if r.valid then palette.paint .yellow "!" else palette.paint .red "✗"
      let note := palette.paint .dimmed "(output truncated by max-errors)"
      [s!"{mark} {bold} ({kind})"] ++ r.issues.flatMap (issueLines palette)
        ++ (if r.truncated then [s!"  {note}"] else []) ++ [""]

end FileReport

/-! ## Reports about many files -/

/-- The reports about some files. -/
structure CheckReport where
  files : List FileReport

namespace CheckReport

/-- The number of files with a status. -/
def count (report : CheckReport) (status : FileStatus) : Nat :=
  report.files.countP fun r => r.status = status

/-- The number of errors. -/
def errors (report : CheckReport) : Nat :=
  report.files.foldl (fun n file => n + file.errorCount) 0

/-- The number of warnings. -/
def warnings (report : CheckReport) : Nat :=
  report.files.foldl (fun n file => n + file.warningCount) 0

/-- The numbers that sum a report up, with their names for programs and for people. -/
def summary (report : CheckReport) : List (String × String × Nat) :=
  [("files", "Files", report.files.length),
    ("validated", "Validated", report.count .validated),
    ("skipped", "Skipped", report.count .unrecognized),
    ("errors", "Errors", report.errors),
    ("warnings", "Warnings", report.warnings)]

/-- The members of a report. -/
def toJson (report : CheckReport) : Json :=
  .object [("files", .array (report.files.map FileReport.toJson)),
    ("summary", .object (report.summary.map fun (name, _, n) => (name, .nat n)))]

/-- The lines of a report. -/
def lines (palette : Palette) (onlyIssues : Bool) (report : CheckReport) : List String :=
  report.files.flatMap (·.lines palette onlyIssues) ++ palette.heading "Summary"
    ++ report.summary.map fun (_, name, n) => palette.entry name (toString n)

end CheckReport

/-! ## The command -/

namespace Command

/-- The version under which a file is opened. -/
def fileVersion : Nat := 1

/-- The reports about files, with a service that knows the ones before. -/
def checkFiles (disk : Disk) : Service → List String → Except AuditError (List FileReport)
  | _, [] => .ok []
  | service, name :: rest => do
    let text ← disk.readDocument name
    let (result?, service) := service.didOpen name text fileVersion
    let report := match result? with
      | some v => FileReport.ofValidation name v
      | none => .unvalidated name text
    return report :: (← checkFiles disk service rest)

/-- Shows the findings about documents. It fails when there are errors. -/
def runCheck (disk : Disk) (palette : Palette) (human : Bool) (service : Service)
    (paths : List String) (onlyIssues : Bool) : Outcome :=
  match disk.documents paths >>= checkFiles disk service with
  | .error e => .failed disk e
  | .ok files =>
    let report : CheckReport := ⟨files⟩
    let errors := report.errors
    { output :=
        if human then Palette.print (report.lines palette onlyIssues)
        else Response.print ⟨if errors = 0 then .ok else .failed errors, report.toJson⟩
      result :=
        if errors = 0 then .ok () else .error (.validationFailed s!"{errors} error(s) found")
      disk }

end Command

end PolicyAudit
