-- SUMMARY: What a value is checked against, and what the mark of the fallback says about it.
import PolicyAudit.Proofs.Schema.Reading

/-! ## Requests

A registry is asked for things and given aliases, in any order. The schema under an id is compiled when it is
checked against for the first time, and every later check uses what it was compiled to then. -/

namespace PolicyAudit

namespace Registry

variable {folder? : Option (Keyed String)} {listing : Listing} {r : Registry} {requests : List Request}
variable {request : Request} {id url : String} {value : Json} {compiled : CompiledSchema}

theorem Reached.reading (h : Reached folder? listing r) (ids : List String) : Reached folder? listing (r.reading ids) :=
  List.foldlRecOn ids _ h fun _ h id _ => h.load id

/-- The schema that the fallback is compiled to. -/
def fallback : CompiledSchema := ⟨.conditions [.required ["name", "properties"], .type [.object]], []⟩

/-- Whether a schema is the fallback. -/
def matchesFallback : CompiledSchema → Bool
  | ⟨.conditions [.required names, .type types], []⟩ =>
    decide (names = ["name", "properties"] ∧ types = [.object])
  | _ => false

theorem eq_fallback_of_matches {schema : CompiledSchema} (h : matchesFallback schema = true) : schema = fallback := by
  unfold matchesFallback at h
  split at h
  · obtain ⟨rfl, rfl⟩ := of_decide_eq_true h
    rfl
  · cases h

theorem compileDocument?_fallbackDocument (r : Registry) : r.compileDocument? fallbackDocument = some fallback := by
  rw [compileDocument?_of_independent (independent_fallbackDocument r)
    (independent_fallbackDocument (fresh none [] .byId))]
  have hcompiles : ((fresh none [] .byId).compileDocument? fallbackDocument).any matchesFallback = true := by
    decide +kernel
  cases hschema : (fresh none [] .byId).compileDocument? fallbackDocument with
  | none =>
    rw [hschema] at hcompiles
    cases hcompiles
  | some schema =>
    rw [hschema, Option.any_some] at hcompiles
    rw [eq_fallback_of_matches hcompiles]

theorem fallbackSchema_eq (r : Registry) : r.fallbackSchema = fallback := by
  rw [fallbackSchema, compileDocument?_fallbackDocument, Option.getD_some]

/-- The fallback stands in for the schema under an id: its file cannot be read as an object, or it does not
compile. -/
def StandsIn (r : Registry) (id : String) : Prop :=
  ∀ document, r.readDocument? id = some document → r.compileDocument? document = none

theorem StandsIn.compileSchema (h : r.StandsIn id) : r.compileSchema (r.readSchema id) = fallback := by
  rw [Registry.compileSchema, fallbackSchema_eq, readSchema]
  cases hread : r.readDocument? id with
  | none => rw [compileDocument?_fallbackDocument, Option.getD_some]
  | some document => rw [h document hread, Option.getD_none]

end Registry

end PolicyAudit
