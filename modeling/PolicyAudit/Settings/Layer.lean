-- SUMMARY: Reading a layer of settings from TOML or from environment variables.
import PolicyAudit.Decimal.Word
import PolicyAudit.Settings.Basic
import PolicyAudit.Text.Blank
import PolicyAudit.Toml.Reader

/-! ## Values of settings -/

namespace PolicyAudit

namespace Toml

/-- The texts in an array of strings. -/
def strings? (value : Toml) : Option (List String) :=
  value.items?.bind fun items => items.mapM string?

/-- The entries of a table, each read in the same way. -/
def mapEntries? {α : Type} (read? : Toml → Option α) (value : Toml) : Option (Keyed α) :=
  value.entries?.bind fun entries =>
    entries.mapM fun (name, value) => (read? value).map (name, ·)

/-- Whether a table or array has nothing in it. -/
def isEmpty : Toml → Bool
  | .array _ items => items.isEmpty
  | .table _ entries => entries.isEmpty
  | _ => false

/-- A severity: its word, or a table with its word over something empty. -/
def severity? : Toml → Option Severity
  | .string word => Severity.ofLabel? word
  | .table _ [(word, value)] => if value.isEmpty then Severity.ofLabel? word else none
  | _ => none

/-- The values of the fields of a section, each of which may be absent. A section may also be written
as an array of the values of all its fields, in their order. -/
def fields? (names : List String) : Toml → Option (List (Option Toml))
  | .table _ entries => some (names.map fun name => Keyed.find? name entries)
  | .array _ items =>
    if names.length ≤ items.length then some ((items.take names.length).map some) else none
  | _ => none

end Toml

namespace Settings.Layer

/-- Reads a value where there is one. -/
def present? {α : Type} (read? : Toml → Option α) : Option Toml → Option (Option α)
  | none => some none
  | some value => (read? value).map some

/-! ## Sections

A section that is absent sets nothing, and unknown sections and fields do not count. A field of the
wrong kind makes the whole text wrong. -/

/-- The part of a layer about schemas. -/
def withSchemas? (layer : Layer) (part : Toml) : Option Layer := do
  match ← part.fields? ["dir", "aliases"] with
  | [folder, aliases] =>
    return { layer with
      schemaFolder? := ← present? Toml.string? folder
      aliases := (← present? (Toml.mapEntries? Toml.string?) aliases).getD [] }
  | _ => none

/-- The part of a layer about rules. -/
def withRules? (layer : Layer) (part : Toml) : Option Layer := do
  match ← part.fields? ["disabled", "severity_overrides", "strict", "max_errors"] with
  | [disabled, overrides, strict, maxErrors] =>
    return { layer with
      disabled := (← present? Toml.strings? disabled).getD []
      overrides := (← present? (Toml.mapEntries? Toml.severity?) overrides).getD []
      strict? := ← present? Toml.bool? strict
      maxErrors? := ← present? Toml.nat? maxErrors }
  | _ => none

/-- The part of a layer about the service. -/
def withService? (layer : Layer) (part : Toml) : Option Layer := do
  match ← part.fields? ["debounce_ms", "cache_capacity"] with
  | [delay, capacity] =>
    return { layer with
      delay? := ← present? Toml.nat? delay
      capacity? := ← present? Toml.nat? capacity }
  | _ => none

/-- Reads a section where there is one. -/
def withSection? (table : Toml) (name : String) (read? : Layer → Toml → Option Layer)
    (layer : Layer) : Option Layer :=
  match table.entries?.bind (Keyed.find? name) with
  | none => some layer
  | some found => read? layer found

/-- The layer that a table sets. -/
def ofToml? (table : Toml) : Option Layer := do
  let layer ← withSection? table "schemas" withSchemas? .empty
  let layer ← withSection? table "rules" withRules? layer
  withSection? table "service" withService? layer

/-- The layer that a text sets. -/
def ofText? (text : String) : Option Layer := (Toml.ofText? text).bind ofToml?

/-! ## Environment variables -/

/-- Whether the value of a variable means yes. -/
def isYes (value : String) : Bool := ["1", "true", "yes", "on"].contains (Text.foldCase value)

/-- The entries of a list with commas, without blanks around them and without empty ones. -/
def commaList (value : String) : List String :=
  (((Text.pieces ',' value.toList).map Text.trim).filter (· ≠ [])).map String.ofList

/-- The layer that environment variables set. -/
def ofVariables (environment : Keyed String) : Except AuditError Layer := do
  let delayName := "POLICY_LINT_DEBOUNCE_MS"
  let delay? ← match Keyed.find? delayName environment with
    | none => pure none
    | some value =>
      match Decimal.word value.toList with
      | .ok delay => pure (some delay)
      | .error fault =>
        throw (.config s!"invalid {delayName} value {value}: {fault.message}")
  return { Layer.empty with
    schemaFolder? := Keyed.find? "POLICY_LINT_SCHEMAS_DIR" environment
    delay?
    strict? := (Keyed.find? "POLICY_LINT_STRICT" environment).map isYes
    disabled := ((Keyed.find? "POLICY_LINT_DISABLED_RULES" environment).map commaList).getD [] }

end Settings.Layer

end PolicyAudit
