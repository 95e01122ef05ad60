-- SUMMARY: Why a document cannot be used as a schema.
import PolicyAudit.Schema.Violation

/-! ## Faults of schemas -/

namespace PolicyAudit

/-- Why a document cannot be used as a schema. -/
inductive SchemaFault where
  /-- A text stands for an address and is none. -/
  | malformedAddress (text : String)
  /-- A relative address has a base that nothing can be relative to. -/
  | unrelatedAddress (text base : String)
  /-- A schema in the document is written in a language of its own, which is not known. -/
  | unknownLanguage (name : String)
  /-- The document does not satisfy the schema of the schema language. -/
  | unlawful (cause : ViolationCause)
  /-- A keyword has a value that it cannot have, or a reference leads nowhere. -/
  | unreadable
deriving Repr

/-- The message for a fault. -/
def SchemaFault.message : SchemaFault → String
  | malformedAddress text => s!"Invalid URI reference '{text}'"
  | unrelatedAddress text base => s!"Failed to resolve '{text}' against '{base}'"
  | unknownLanguage name => s!"Unknown specification: {name}"
  | unlawful cause => cause.message
  | unreadable => "Schema cannot be read"

end PolicyAudit
