-- SUMMARY: Which rules run and how much their findings matter.
import PolicyAudit.Keyed
import PolicyAudit.Lint.Issue

/-! ## Options -/

namespace PolicyAudit

/-- The choices for a run of the rules. -/
structure LintOptions where
  /-- The ids of the rules that do not run. -/
  disabled : List String
  /-- The severities of the findings of some rules, by id. -/
  overrides : Keyed Severity
  /-- Warnings count as errors. -/
  strict : Bool
  /-- The number of errors after which a run stops. -/
  maxErrors? : Option Nat
deriving Repr

namespace LintOptions

/-- All rules run, with their own severities and to the end. -/
def default : LintOptions := ⟨[], [], false, none⟩

instance : Inhabited LintOptions := ⟨default⟩

/-- Whether a rule does not run. -/
def isDisabled (options : LintOptions) (ruleId : String) : Bool := ruleId ∈ options.disabled

/-- The severity of a finding of a rule that would be of severity `own`. -/
def severity (options : LintOptions) (ruleId : String) (own : Severity) : Severity :=
  let chosen := (Keyed.find? ruleId options.overrides).getD own
  if options.strict ∧ chosen = .warning then .error else chosen

end LintOptions

end PolicyAudit
