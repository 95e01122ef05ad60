-- SUMMARY: Validators, the choice of one for a document, and their runs.
import PolicyAudit.Lint.Check
import PolicyAudit.Lint.Options

/-! ## Validations -/

namespace PolicyAudit

/-- The findings about one version of a document. -/
structure Validation where
  documentId : String
  version : Nat
  kind? : Option Kind
  issues : List Issue
  /-- The run stopped at the greatest number of errors. -/
  truncated : Bool
deriving Repr

namespace Validation

/-- A document is valid when no finding is an error. -/
def valid (v : Validation) : Bool := !v.issues.any Issue.isError

/-- The number of errors. -/
def errorCount (v : Validation) : Nat := v.issues.countP Issue.isError

/-- The number of warnings. -/
def warningCount (v : Validation) : Nat := v.issues.countP fun i => i.severity = .warning

/-- The finding with a code at a range, or else around it. -/
def find? (v : Validation) (code : String) (range : Range) : Option Issue :=
  let coded := v.issues.filter (·.code = code)
  (coded.find? (·.range = range)).or (coded.find? (·.range.contains range))

end Validation

/-- The word for a kind of document, or for none. -/
def Kind.labelOf : Option Kind → String
  | some kind => kind.label
  | none => "none"

/-! ## Validators -/

/-- The rules for one kind of document, or no rules at all. -/
structure Validator where
  kind? : Option Kind
deriving DecidableEq, Repr

namespace Validator

/-- A validator for each kind, in the order in which they are tried. -/
def all : List Validator := Kind.all.map fun kind => ⟨some kind⟩

/-- The rules of a validator in the order in which they run. -/
def rules (validator : Validator) : List Rule := (validator.kind?.map Kind.rules).getD []

/-- The rule with an id. -/
def rule? (validator : Validator) (id : String) : Option Rule :=
  validator.rules.find? (·.id = id)

/-- What texts of a kind have in them, letter case aside: at least one of these. -/
def markers : Option Kind → List String
  | some .definition => ["policyrule", "policy-definition", "policydefinition"]
  | some .collection => ["policydefinitions", "policy-set-definition", "policysetdefinition"]
  | some .assignment => ["nodename", "definitionentry", "policy-assignment", "policyassignment"]
  | none => []

/-- Whether a text could be of the validator's kind, as far as can be told without reading it. -/
def mightAccept (validator : Validator) (text : String) : Bool :=
  let lower := Text.foldCase text
  (markers validator.kind?).any (Text.contains lower)

/-- Whether a document is clean and of the validator's kind. -/
def accepts (validator : Validator) (doc : Document) : Bool :=
  doc.isClean && doc.value?.any fun value => Kind.of? value = validator.kind?

/-- Whether a text is a clean document of the validator's kind. -/
def canValidate (validator : Validator) (text : String) : Bool :=
  validator.mightAccept text && validator.accepts (.ofText text)

/-- The validator for a document. -/
def select? (doc : Document) : Option Validator :=
  all.find? fun validator => validator.mightAccept doc.text && validator.accepts doc

/-! ## Runs -/

/-- A finding with the severity that the options give it. -/
def adjust (options : LintOptions) (issue : Issue) : Issue :=
  { issue with severity := options.severity issue.ruleId issue.severity }

/-- The findings of the enabled rules that the options do not disable, with the severities that the options
give them. A rule that fails finds nothing. -/
def findings (ctx : Context) (options : LintOptions) :
    List Rule → Registry → List Issue × Registry
  | [], registry => ([], registry)
  | rule :: rest, registry =>
    if !rule.enabled || options.isDisabled rule.id then findings ctx options rest registry
    else
      let (outcome, registry) := rule.check ctx registry
      let (more, registry) := findings ctx options rest registry
      ((outcome.toOption.getD []).map (adjust options) ++ more, registry)

/-- The findings up to the one that makes the number of errors reach `limit`, where `errors` have been
counted before, and whether there is such a finding. -/
def cut (limit errors : Nat) : List Issue → List Issue × Bool
  | [] => ([], false)
  | issue :: rest =>
    let errors := if issue.isError then errors + 1 else errors
    if limit ≤ errors then ([issue], true)
    else
      let (kept, truncated) := cut limit errors rest
      (issue :: kept, truncated)

/-- The findings that the options leave, and whether some are left out. -/
def limited (options : LintOptions) (issues : List Issue) : List Issue × Bool :=
  match options.maxErrors? with
  | some limit => cut limit 0 issues
  | none => (issues, false)

/-- The findings of a run, and whether it stopped early. -/
def run (validator : Validator) (ctx : Context) (options : LintOptions) (registry : Registry) :
    (List Issue × Bool) × Registry :=
  let (issues, registry) := findings ctx options validator.rules registry
  (limited options issues, registry)

/-- The validation of one version of a document. -/
def validate (validator : Validator) (ctx : Context) (options : LintOptions)
    (registry : Registry) (documentId : String) (version : Nat) : Validation × Registry :=
  let ((issues, truncated), registry) := validator.run ctx options registry
  (⟨documentId, version, validator.kind?, issues, truncated⟩, registry)

/-! ## Fixes -/

/-- Whether an issue can be fixed by the rule that it belongs to. -/
def canFix (validator : Validator) (issue : Issue) : Bool :=
  (validator.rule? issue.ruleId).any (·.canFix issue)

/-- The edit that resolves an issue. Rules that are disabled fix nothing, and where the fix fails there
is no edit. -/
def fix? (validator : Validator) (ctx : Context) (options : LintOptions) (issue : Issue) :
    Option Edit :=
  match validator.rule? issue.ruleId with
  | none => none
  | some rule =>
    if rule.canFix issue ∧ ¬options.isDisabled rule.id then
      match rule.fix ctx issue with
      | .ok edit => edit
      | .error _ => none
    else none

/-! ## Listing rules -/

/-- What is shown of a rule. -/
structure RuleInfo where
  rule : Rule
  kind? : Option Kind
  disabled : Bool

/-- The rules of a validator, each with whether it is disabled. -/
def listRules (validator : Validator) (options : LintOptions) : List RuleInfo :=
  validator.rules.map fun rule => ⟨rule, validator.kind?, !rule.enabled || options.isDisabled rule.id⟩

/-- Whether a rule can fix some of its findings. -/
def RuleInfo.canFix (info : RuleInfo) : Bool := !info.rule.fixableCodes.isEmpty

/-- The members of a rule in reports. -/
def RuleInfo.toJson (info : RuleInfo) : Json :=
  .object [("id", .string info.rule.id), ("name", .string info.rule.title),
    ("description", .string info.rule.description),
    ("category", .string info.rule.category.label),
    ("doc_type", .string (Kind.labelOf info.kind?)),
    ("default_severity", .string info.rule.severity.label),
    ("codes", .array (info.rule.codes.map .string)), ("can_fix", .bool info.canFix),
    ("disabled", .bool info.disabled)]

end Validator

end PolicyAudit
