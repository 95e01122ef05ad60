-- SUMMARY: Showing the kinds of documents.
import PolicyAudit.Command.Outcome
import PolicyAudit.Lint.Validator

/-! ## Classifications -/

namespace PolicyAudit

/-- What a text is: its kind and the schema it declares, if it is clean. -/
structure Classification where
  path : String
  kind? : Option Kind
  schema? : Option String
  /-- The number of syntax errors. -/
  faults : Nat

namespace Classification

/-- Classifies a text. -/
def ofText (path text : String) : Classification :=
  let doc := Document.ofText text
  let value? := if doc.isClean then doc.value? else none
  ⟨path, value?.bind Kind.of?, value?.bind (·.text? .schema), doc.errors.length⟩

/-- The members of a classification in reports. The schema is left out where there is none. -/
def toJson (c : Classification) : Json :=
  .object <|
    [("path", .string c.path), ("doc_type", .string (Kind.labelOf c.kind?))]
    ++ (match c.schema? with
      | some schema => [("schema", .string schema)]
      | none => [])
    ++ [("syntax_errors", .nat c.faults)]

/-- The width of the first column. -/
def labelWidth : Nat := 14

/-- The line that shows a classification. -/
def line (palette : Palette) (c : Classification) : String :=
  let label :=
    if c.faults ≠ 0 then palette.paint .red "syntax error"
    else
      match c.kind? with
      | none => palette.paint .dimmed "unrecognized"
      | some kind => palette.paint .green kind.label
  Palette.padStart labelWidth label ++ "  " ++ c.path

end Classification

/-! ## The command -/

namespace Command

/-- The classifications of the documents that some paths stand for. -/
def classifications (disk : Disk) (paths : List String) :
    Except AuditError (List Classification) := do
  (← disk.documents paths).mapM fun name => do
    return .ofText name (← disk.readDocument name)

/-- Shows the kinds of documents. -/
def runClassify (disk : Disk) (palette : Palette) (human : Bool) (paths : List String) : Outcome :=
  match classifications disk paths with
  | .error e => .failed disk e
  | .ok found => .printed disk <|
    if human then Palette.print (found.map (·.line palette))
    else Response.print ⟨.ok, .array (found.map Classification.toJson)⟩

end Command

end PolicyAudit
