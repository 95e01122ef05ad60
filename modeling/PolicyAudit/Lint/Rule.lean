-- SUMMARY: The rules, what they are called and what they report.
import PolicyAudit.Lint.Issue
import PolicyAudit.Policy.Kind

/-! ## Categories -/

namespace PolicyAudit

/-- What a rule is about. -/
inductive Category where
  | schema
  | structural
  | reference
  | naming
  | scope
deriving DecidableEq, Repr

/-- The word for a category. -/
def Category.label : Category → String
  | schema => "schema"
  | structural => "structure"
  | reference => "reference"
  | naming => "naming"
  | scope => "scope"

/-! ## Codes -/

namespace Code

def schemaViolation : String := "SCHEMA_VIOLATION"
def noSchema : String := "NO_SCHEMA_RESOLVED"
def missingEffectParameter : String := "MISSING_EFFECT_PARAMETER"
def fixedEffect : String := "EFFECT_NOT_PARAMETERIZED"
def invalidReference : String := "INVALID_DEFINITION_REFERENCE"
def duplicateReferenceId : String := "DUPLICATE_REFERENCE_ID"
def missingReferenceId : String := "MISSING_REFERENCE_ID"
def emptyDefinitions : String := "EMPTY_DEFINITIONS"
def nameLength : String := "NAME_LENGTH"
def missingScope : String := "MISSING_SCOPE"
def invalidScope : String := "INVALID_SCOPE"
def conflictingReferences : String := "CONFLICTING_DEFINITION_REFERENCES"

end Code

/-! ## Rules -/

/-- A rule for documents. -/
inductive Rule where
  | schemaValidation
  | effectParameter
  | referenceIntegrity
  | nonEmptyCollection
  | nameLength
  | assignmentScope
  | exclusiveReference
deriving DecidableEq, Repr

namespace Rule

/-- The name that settings and issues know a rule by. -/
def id : Rule → String
  | schemaValidation => "schema-validation"
  | effectParameter => "effect-parameter"
  | referenceIntegrity => "reference-integrity"
  | nonEmptyCollection => "non-empty-collection"
  | nameLength => "name-length"
  | assignmentScope => "assignment-scope"
  | exclusiveReference => "exclusive-definition-reference"

/-- The title of a rule. -/
def title : Rule → String
  | schemaValidation => "Schema Validation"
  | effectParameter => "Effect Parameter"
  | referenceIntegrity => "Reference Integrity"
  | nonEmptyCollection => "Non-Empty Collection"
  | nameLength => "Assignment Name Length"
  | assignmentScope => "Assignment Scope"
  | exclusiveReference => "Exclusive Definition Reference"

/-- What a rule demands. -/
def description : Rule → String
  | schemaValidation => "Document must satisfy the JSON schema for its type"
  | effectParameter => "The policy effect should come from a declared parameter"
  | referenceIntegrity => "Each entry names one definition and has a unique reference id"
  | nonEmptyCollection => "A collection should reference at least one definition"
  | nameLength => "Assignment names must be at most 24 characters"
  | assignmentScope =>
    "Every leaf node needs a scope, and scopes must be management group or subscription paths"
  | exclusiveReference => "A node references its definitions one way only"

/-- What a rule is about. -/
def category : Rule → Category
  | schemaValidation => .schema
  | effectParameter => .structural
  | referenceIntegrity => .reference
  | nonEmptyCollection => .structural
  | nameLength => .naming
  | assignmentScope => .scope
  | exclusiveReference => .reference

/-- The severity of a rule's findings where nothing else is said. -/
def severity : Rule → Severity
  | nonEmptyCollection => .warning
  | _ => .error

/-- Whether a rule runs where the settings do not disable it. -/
def enabled : Rule → Bool
  | _ => true

/-- The codes of a rule's findings. -/
def codes : Rule → List String
  | schemaValidation => [Code.schemaViolation, Code.noSchema]
  | effectParameter => [Code.missingEffectParameter, Code.fixedEffect]
  | referenceIntegrity =>
    [Code.invalidReference, Code.duplicateReferenceId, Code.missingReferenceId]
  | nonEmptyCollection => [Code.emptyDefinitions]
  | nameLength => [Code.nameLength]
  | assignmentScope => [Code.missingScope, Code.invalidScope]
  | exclusiveReference => [Code.conflictingReferences]

/-- The codes of the findings that a rule can fix. -/
def fixableCodes : Rule → List String
  | effectParameter => [Code.missingEffectParameter, Code.fixedEffect]
  | referenceIntegrity => [Code.duplicateReferenceId, Code.missingReferenceId]
  | nameLength => [Code.nameLength]
  | assignmentScope => [Code.missingScope]
  | _ => []

/-- Whether a rule can fix an issue: it must be the rule's own, of a code that it fixes. -/
def canFix (rule : Rule) (issue : Issue) : Bool :=
  issue.ruleId = rule.id && issue.code ∈ rule.fixableCodes

/-- A finding of a rule, with the rule's severity and nothing more than a message. -/
def issue (rule : Rule) (code message : String) (range : Range) (data : Json) : Issue :=
  { code, message, severity := rule.severity, range, source := Issue.defaultSource,
    ruleId := rule.id, data, suggestion? := none }

end Rule

/-- The rules for a kind in the order in which they run. -/
def Kind.rules : Kind → List Rule
  | .definition => [.schemaValidation, .effectParameter]
  | .collection => [.schemaValidation, .referenceIntegrity, .nonEmptyCollection]
  | .assignment => [.schemaValidation, .nameLength, .assignmentScope, .exclusiveReference]

end PolicyAudit
