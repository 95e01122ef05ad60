-- SUMMARY: Settings and the layers that make them up.
import PolicyAudit.Lint.Options
import PolicyAudit.Schema.Registry
import PolicyAudit.Session.Service

/-! ## Settings -/

namespace PolicyAudit

/-- What can be set for the whole program. -/
structure Settings where
  /-- The folder of the schema files. -/
  schemaFolder? : Option String
  /-- Addresses that stand for schemas, each with the id of a schema or the name of a kind. -/
  aliases : Keyed String
  rules : LintOptions
  /-- The delay before a changed document is validated, in milliseconds. -/
  delay : Nat
  /-- The number of validations kept. -/
  capacity : Nat

namespace Settings

/-- The settings where nothing is set. -/
def default : Settings := ⟨none, [], .default, Service.defaultDelay, Service.defaultCapacity⟩

instance : Inhabited Settings := ⟨default⟩

/-! ## Layers

Settings come from several places, one layer each. A later layer replaces what an earlier one set,
except that aliases and severities are replaced one by one, and that disabled rules add up. -/

/-- The settings that one place makes. -/
structure Layer where
  schemaFolder? : Option String
  aliases : Keyed String
  disabled : List String
  overrides : Keyed Severity
  strict? : Option Bool
  maxErrors? : Option Nat
  delay? : Option Nat
  capacity? : Option Nat

/-- The layer that sets nothing. -/
def Layer.empty : Layer := ⟨none, [], [], [], none, none, none, none⟩

/-- The entries of both tables, those of the second where both have one. -/
def extend {α : Type} (table : Keyed α) (more : Keyed α) : Keyed α :=
  more.foldl (fun acc (name, value) => Keyed.insert name value acc) table

/-- The settings with one more layer on them. Its disabled rules come before the others. -/
def apply (settings : Settings) (layer : Layer) : Settings where
  schemaFolder? := layer.schemaFolder?.or settings.schemaFolder?
  aliases := extend settings.aliases layer.aliases
  rules :=
    { disabled := (layer.disabled ++ settings.rules.disabled).eraseDups
      overrides := extend settings.rules.overrides layer.overrides
      strict := layer.strict?.getD settings.rules.strict
      maxErrors? := layer.maxErrors?.or settings.rules.maxErrors? }
  delay := layer.delay?.getD settings.delay
  capacity := layer.capacity?.getD settings.capacity

/-! ## The registry of schemas -/

/-- The id of the schema that an alias stands for: the schema with that id, or the one for the kind of
that name. -/
def aliasTarget (target : String) : Except AuditError String :=
  if (Kind.ofSchemaId? target).isSome then .ok target
  else
    let name := Text.foldCase target
    let name := if name = "set" then Kind.collection.label else name
    match Kind.all.find? (·.label = name) with
    | some kind => .ok kind.schemaId
    | none =>
      let ids := "|".intercalate (Kind.all.map Kind.schemaId)
      let labels := "|".intercalate (Kind.all.map Kind.label)
      .error (.config s!"unknown schema alias target {target} (expected {ids} or {labels})")

/-- A registry over the texts of the schema files that knows the aliases of the settings. -/
def registry (settings : Settings) (folder? : Option (Keyed String)) :
    Except AuditError Registry :=
  settings.aliases.foldlM (fun registry (url, target) => do
    return registry.registerAlias url (← aliasTarget target)) (.new folder?)

/-! ## Reports -/

/-- The members of settings in reports. -/
def toJson (settings : Settings) : Json :=
  let orNull {α : Type} (f : α → Json) (value? : Option α) : Json := (value?.map f).getD .null
  .object [
    ("schemas", .object [("dir", orNull .string settings.schemaFolder?),
      ("aliases", .object (settings.aliases.map fun (url, target) => (url, .string target)))]),
    ("rules", .object [("disabled", .array (settings.rules.disabled.map .string)),
      ("severity_overrides",
        .object (settings.rules.overrides.map fun (id, severity) => (id, .string severity.label))),
      ("strict", .bool settings.rules.strict),
      ("max_errors", orNull .nat settings.rules.maxErrors?)]),
    ("service", .object [("debounce_ms", .nat settings.delay),
      ("cache_capacity", .nat settings.capacity)])]

end Settings

end PolicyAudit
