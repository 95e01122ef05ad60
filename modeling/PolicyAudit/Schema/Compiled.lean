-- SUMMARY: Schemas with all their references resolved.
import PolicyAudit.Schema.Language
import PolicyAudit.Schema.Reader

/-! ## Resolving references

A reference leads to a schema in its own document or in another one. Every schema that can be reached
through references is read before a value is checked, so a fault in one of them is a fault of the
whole. -/

namespace PolicyAudit

/-- A schema with the schemas that its references lead to. -/
structure CompiledSchema where
  root : Schema
  targets : Schema.Targets
deriving Repr

namespace CompiledSchema

/-- The schema that allows every value. -/
def permissive : CompiledSchema := ⟨.permissive, []⟩

/-- The schema at a reference. -/
def target? (catalog : Catalog) (ref : SchemaRef) : Option Schema := do
  let (base, value) ← catalog.find? ref
  Schema.read? base value

/-- Adds the schemas at new references, and those at the references in them, and so on. Fails when a
reference leads to no schema. -/
def resolve? (catalog : Catalog) : (rounds : Nat) → List SchemaRef → Schema.Targets →
    Option Schema.Targets
  | 0, _, targets => some targets
  | rounds + 1, refs, targets =>
    let new := (refs.filter fun ref => (targets.find? ref).isNone).eraseDups
    if new.isEmpty then some targets
    else
      match new.mapM fun ref => (target? catalog ref).map fun schema => (ref, schema) with
      | none => none
      | some found =>
        resolve? catalog rounds (found.flatMap fun (_, schema) => schema.references)
          (targets ++ found)

mutual

/-- The number of values in a value, itself included. -/
def jsonSize : Json → Nat
  | .scalar _ => 1
  | .array items => 1 + itemsSize items
  | .object members => 1 + membersSize members

/-- The number of values in the elements. -/
def itemsSize : List Json → Nat
  | [] => 0
  | item :: rest => jsonSize item + itemsSize rest

/-- The number of values in the members. -/
def membersSize : List (String × Json) → Nat
  | [] => 0
  | (_, value) :: rest => jsonSize value + membersSize rest

end

/-- The schema that a value with a base describes, with all its references. A reference is known by
its text and its base, and the base by the two places between which it was found, so there are no
more references than threefold choices of values. -/
def link? (catalog : Catalog) (base : Address) (value : Json) : Option CompiledSchema := do
  let root ← Schema.read? base value
  let values := catalog.schemas.foldl (fun size (_, value) => size + jsonSize value) 1
  let targets ← resolve? catalog (values * values * values) root.references []
  return ⟨root, targets⟩

/-- The violations of a schema in a value. -/
def violations (schema : CompiledSchema) (value : Json) : List Violation :=
  schema.root.check schema.targets value

/-! ## Documents -/

/-- The catalog of the schema language alone. -/
def languageCatalog : Catalog := ⟨[(Language.address, Language.document)], []⟩

/-- The schema of the schema language. -/
def language : CompiledSchema :=
  (link? languageCatalog Language.address Language.document).getD permissive

/-- The schema that a document describes, beside a library of other documents. -/
def ofJson (library : Library) (document : Json) : Except SchemaFault CompiledSchema := do
  let home ← Catalog.resolve Address.root ((Catalog.ownId? document).getD "")
  let (catalog, addresses) ← (languageCatalog.add home document).absorb home document
  let catalog ← Catalog.gather library (library.length + 2) catalog addresses
  match language.violations document with
  | violation :: _ => throw (.unlawful violation.cause)
  | [] => pure ()
  let base ← Catalog.enter home document
  match link? catalog base document with
  | some schema => return schema
  | none => throw .unreadable

end CompiledSchema

end PolicyAudit
