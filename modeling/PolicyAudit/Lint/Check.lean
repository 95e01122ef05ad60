-- SUMMARY: What each rule finds and how it fixes it.
import PolicyAudit.Lint.Assignment
import PolicyAudit.Lint.Effect
import PolicyAudit.Lint.Reference
import PolicyAudit.Lint.Structure

/-! ## Checking and fixing -/

namespace PolicyAudit.Rule

/-- The findings of a rule. Only the schema rule uses the registry, and only it can fail. -/
def check (rule : Rule) (ctx : Context) (registry : Registry) :
    Except AuditError (List Issue) × Registry :=
  match rule with
  | schemaValidation => Structural.check ctx registry
  | effectParameter => (.ok (Effect.check ctx), registry)
  | referenceIntegrity => (.ok (Reference.check ctx), registry)
  | nonEmptyCollection => (.ok (Reference.checkNotEmpty ctx), registry)
  | nameLength => (.ok (Assignment.checkNames ctx), registry)
  | assignmentScope => (.ok (Assignment.checkScopes ctx), registry)
  | exclusiveReference => (.ok (Assignment.checkReferences ctx), registry)

/-- The edit that resolves an issue, where the rule can fix it and an edit applies. -/
def fix (rule : Rule) (ctx : Context) (issue : Issue) : Except AuditError (Option Edit) :=
  if rule.canFix issue then
    match rule with
    | effectParameter => Effect.fix ctx issue
    | referenceIntegrity => Reference.fix ctx issue
    | nameLength => Assignment.fixName ctx issue
    | assignmentScope => Assignment.fixScope ctx issue
    | _ => .ok none
  else .ok none

end PolicyAudit.Rule
