-- SUMMARY: What an editor is shown, and where it is kept.
import PolicyAudit.Lint.Validator

/-! ## Diagnostics -/

namespace PolicyAudit

/-- A finding as an editor shows it. -/
structure Diagnostic where
  range : Range
  message : String
  severity : Severity
  code : String
  source : String
deriving DecidableEq, Repr

namespace Diagnostic

/-- What is shown of an issue. -/
def ofIssue (issue : Issue) : Diagnostic :=
  ⟨issue.range, issue.message, issue.severity, issue.code, issue.source⟩

/-- What is shown of a validation. -/
def ofValidation (v : Validation) : List Diagnostic := v.issues.map ofIssue

/-- The members of a diagnostic in reports. -/
def toJson (d : Diagnostic) : Json :=
  .object [("range", d.range.toJson), ("message", .string d.message),
    ("severity", .string d.severity.label), ("code", .string d.code),
    ("source", .string d.source)]

end Diagnostic

/-! ## The board

The board holds what was last published for each document, and counts how often that happened. -/

/-- The diagnostics on show. -/
structure Board where
  shown : Keyed (List Diagnostic)
  counts : Keyed Nat
deriving Repr

namespace Board

/-- Nothing is shown. -/
def empty : Board := ⟨[], []⟩

/-- What is shown for a document. -/
def shown? (board : Board) (id : String) : Option (List Diagnostic) :=
  Keyed.find? id board.shown

/-- How often something was published for a document. -/
def count (board : Board) (id : String) : Nat := (Keyed.find? id board.counts).getD 0

/-- Shows diagnostics for a document in place of what was shown before. -/
def publish (board : Board) (id : String) (diagnostics : List Diagnostic) : Board :=
  ⟨Keyed.insert id diagnostics board.shown, Keyed.insert id (board.count id + 1) board.counts⟩

/-- Shows nothing for a document. -/
def clear (board : Board) (id : String) : Board :=
  { board with shown := Keyed.erase id board.shown }

variable {board : Board} {id other : String}

@[simp] theorem shown?_publish_self (board : Board) (id : String) (ds : List Diagnostic) :
    (board.publish id ds).shown? id = some ds := Keyed.find?_insert_self ..

theorem shown?_publish_of_ne (h : other ≠ id) (ds : List Diagnostic) :
    (board.publish id ds).shown? other = board.shown? other :=
  Keyed.find?_insert_of_ne (Ne.symm h) ..

@[simp] theorem shown?_clear_self (board : Board) (id : String) :
    (board.clear id).shown? id = none := Keyed.find?_erase_self ..

theorem shown?_clear_of_ne (h : other ≠ id) : (board.clear id).shown? other = board.shown? other :=
  Keyed.find?_erase_of_ne (Ne.symm h) ..

end Board

end PolicyAudit
