-- SUMMARY: What a rule sees of a document.
import PolicyAudit.Lint.Edit
import PolicyAudit.Lint.Rule

/-! ## Contexts -/

namespace PolicyAudit

/-- A document together with its value. -/
structure Context where
  doc : Document
  value : Json

namespace Context

/-- The context of a document, unless nothing could be read of it. -/
def ofDocument? (doc : Document) : Option Context := doc.value?.map fun value => ⟨doc, value⟩

/-- A finding of a rule at a path. Its data hold the path and `more`. -/
def issueAt (ctx : Context) (rule : Rule) (code message : String) (path : Path)
    (more : List (String × Json)) : Issue :=
  rule.issue code message (ctx.doc.rangeAt path)
    (.ofMembers (("path", path.toJson) :: more))

/-- The path that an issue is about, which a fix cannot do without. -/
def requirePath (issue : Issue) : Except AuditError Path :=
  match issue.path? with
  | some path => .ok path
  | none => .error (.fix issue.code "issue has no path")

end Context

end PolicyAudit
