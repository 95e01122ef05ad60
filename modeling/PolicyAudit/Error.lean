-- SUMMARY: The errors of the library.

/-! ## Errors -/

namespace PolicyAudit

/-- What can go wrong outside the syntax of a document. -/
inductive AuditError where
  /-- A file could not be read or written. -/
  | io (reason : String)
  /-- Settings, a path or an argument make no sense. -/
  | config (reason : String)
  /-- A rule could not inspect a document. -/
  | rule (id : String) (reason : String)
  /-- An edit could not be computed or applied. -/
  | fix (code : String) (reason : String)
  /-- Nothing is known under a name. -/
  | notFound (what : String)
  /-- Documents have findings that count as failures. -/
  | validationFailed (summary : String)
deriving DecidableEq, Repr

namespace AuditError

/-- The message for an error. -/
def message : AuditError → String
  | io reason => s!"io error: {reason}"
  | config reason => s!"configuration error: {reason}"
  | rule id reason => s!"rule '{id}' failed: {reason}"
  | fix code reason => s!"fix for '{code}' unavailable: {reason}"
  | notFound what => s!"not found: {what}"
  | validationFailed summary => s!"validation failed: {summary}"

/-- The word for an error in reports to other programs. -/
def code : AuditError → String
  | io _ => "io"
  | config _ => "config"
  | notFound _ => "not_found"
  | rule .. | fix .. | validationFailed _ => "error"

end AuditError

end PolicyAudit
