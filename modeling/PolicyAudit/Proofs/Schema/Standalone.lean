-- SUMMARY: A document whose references lead into no other one is compiled in the same way beside all of them.
import PolicyAudit.Proofs.Schema.Library
import PolicyAudit.Proofs.Schema.Report

/-! ## References that lead nowhere

A reference to a document that is not in the library is taken to lead to one that allows everything. Such a
document has no references of its own. -/

namespace PolicyAudit

namespace Catalog

variable {library : Library} {catalog : Catalog} {addresses pending : List Address} {address : Address}

/-- The catalog once an address has been met that the library does not have. -/
def meet (catalog : Catalog) (address : Address) : Catalog :=
  match catalog.schemas.lookup address.whole with
  | some _ => catalog
  | none => catalog.add address.whole (.object [])

/-- A document without members brings no schemas and refers to nothing. -/
theorem absorb_empty (catalog : Catalog) (base : Address) :
    catalog.absorb base (.object []) = .ok (catalog, []) := rfl

theorem atPointer?_empty {pointer : List Char} {part : Json}
    (h : atPointer? (.object []) pointer = some part) : part = .object [] := by
  unfold atPointer? at h
  split at h
  · exact (Option.some.inj h).symm
  · next rest =>
    cases htokens : Text.pieces '/' rest with
    | nil =>
      rw [htokens] at h
      exact (Option.some.inj h).symm
    | cons token tokens =>
      rw [htokens] at h
      cases h
  · cases h

theorem fetch_of_absent
    (h : catalog.schemas.lookup address.whole = none → library.find? address.whole = none) :
    fetch library (catalog, pending) address = .ok (catalog.meet address, pending) := by
  simp only [fetch, meet]
  cases hknown : catalog.schemas.lookup address.whole with
  | some document => rfl
  | none =>
    have hlanguage : checkLanguage (.object []) = .ok () := rfl
    rw [h hknown, Option.getD_none, hlanguage]
    -- Neither the empty document nor a part of it brings anything.
    cases hpart : address.fragment?.bind (atPointer? (.object [])) with
    | none =>
      simp only [bind, Except.bind, pure, Except.pure, absorb_empty, List.append_nil]
    | some part =>
      obtain ⟨pointer, -, hpointer⟩ := Option.bind_eq_some_iff.mp hpart
      obtain rfl := atPointer?_empty hpointer
      simp only [bind, Except.bind, pure, Except.pure, hlanguage, absorb_empty, List.append_nil]

/-- What has been found stays found. -/
theorem lookup_meet {home : Address} (h : (catalog.meet address).schemas.lookup home = none) :
    catalog.schemas.lookup home = none := by
  unfold meet at h
  split at h
  · exact h
  · rw [add, List.lookup_cons] at h
    split at h
    · cases h
    · exact h

theorem foldlM_fetch_of_absent
    (h : ∀ address ∈ addresses, catalog.schemas.lookup address.whole = none →
      library.find? address.whole = none) :
    addresses.foldlM (fetch library) (catalog, pending) = .ok (addresses.foldl meet catalog, pending) := by
  induction addresses generalizing catalog with
  | nil => rfl
  | cons address rest ih =>
    rw [List.foldlM_cons, fetch_of_absent (h address List.mem_cons_self)]
    apply ih
    intro other hother hunknown
    exact h other (List.mem_cons_of_mem _ hother) (lookup_meet hunknown)

theorem gather_of_absent (rounds : Nat)
    (h : ∀ address ∈ addresses, catalog.schemas.lookup address.whole = none →
      library.find? address.whole = none) :
    gather library (rounds + 1) catalog addresses = .ok (addresses.foldl meet catalog) := by
  rw [gather, foldlM_fetch_of_absent h]
  rfl

end Catalog

/-! ## Documents by themselves -/

namespace CompiledSchema

variable {library library' : Library} {document : Json} {address : Address}

/-- The schemas inside a document beside those of the schema language, and the addresses it refers to. -/
def survey (document : Json) : Except SchemaFault (Catalog × List Address) := do
  let home ← Catalog.resolve Address.root ((Catalog.ownId? document).getD "")
  (languageCatalog.add home document).absorb home document

/-- A document refers to an address that is neither its own nor one of the schema language. -/
def RefersTo (document : Json) (address : Address) : Prop :=
  ∃ catalog addresses, survey document = .ok (catalog, addresses) ∧ address ∈ addresses ∧
    catalog.schemas.lookup address.whole = none

/-- A document with references to none of the documents in a library. -/
def Apart (library : Library) (document : Json) : Prop :=
  ∀ address, RefersTo document address → library.find? address.whole = none

/-- A document is compiled to the same beside two libraries from which the same documents are gathered. -/
theorem ofJson_congr (h : ∀ catalog addresses, survey document = .ok (catalog, addresses) →
      Catalog.gather library (library.length + 2) catalog addresses =
        Catalog.gather library' (library'.length + 2) catalog addresses) :
    ofJson library document = ofJson library' document := by
  unfold ofJson
  unfold survey at h
  cases hhome : Catalog.resolve Address.root ((Catalog.ownId? document).getD "") with
  | error fault => simp only [bind, Except.bind]
  | ok home =>
    rw [hhome] at h
    simp only [bind, Except.bind] at h ⊢
    cases habsorb : (languageCatalog.add home document).absorb home document with
    | error fault => dsimp only
    | ok found =>
      obtain ⟨catalog, addresses⟩ := found
      have hgather := h catalog addresses habsorb
      dsimp only
      rw [hgather]

theorem ofJson_of_apart (h : Apart library document) (h' : Apart library' document) :
    ofJson library document = ofJson library' document := by
  apply ofJson_congr
  intro catalog addresses hsurvey
  have habsent : ∀ {library}, Apart library document → ∀ address ∈ addresses,
      catalog.schemas.lookup address.whole = none → library.find? address.whole = none := by
    intro library hapart address haddress hunknown
    exact hapart address ⟨catalog, addresses, hsurvey, haddress, hunknown⟩
  rw [Catalog.gather_of_absent _ (habsent h), Catalog.gather_of_absent _ (habsent h')]

end CompiledSchema

/-! ## Schemas of a registry -/

namespace Registry

variable {r r' : Registry} {schema : LoadedSchema}

/-- The references of a document, with the name of its language or without it, lead to none of the
documents that a registry has read. -/
def Independent (r : Registry) (document : Json) : Prop :=
  CompiledSchema.Apart r.library document ∧ CompiledSchema.Apart r.library (document.erase "$schema")

/-- The schema that stands in for others refers only to the schema language. -/
theorem independent_fallbackDocument (r : Registry) : r.Independent fallbackDocument := by
  have hapart : ∀ {document}, (CompiledSchema.survey document).toOption.map Prod.snd = some [] →
      CompiledSchema.Apart r.library document := by
    intro document hnone
    rintro address ⟨catalog, addresses, hsurvey, haddress, -⟩
    rw [hsurvey] at hnone
    obtain rfl : addresses = [] := Option.some.inj hnone
    exact absurd haddress List.not_mem_nil
  constructor
  · apply hapart
    decide +kernel
  · apply hapart
    decide +kernel

theorem compileDocument?_of_independent {document : Json} (h : r.Independent document)
    (h' : r'.Independent document) : r.compileDocument? document = r'.compileDocument? document := by
  rw [compileDocument?, compileDocument?, CompiledSchema.ofJson_of_apart h.1 h'.1,
    CompiledSchema.ofJson_of_apart h.2 h'.2]

/-- What a schema is compiled to does not go by documents that it does not refer to. -/
theorem compileSchema_of_independent (h : r.Independent schema.document) (h' : r'.Independent schema.document) :
    r.compileSchema schema = r'.compileSchema schema := by
  have hfallback := compileDocument?_of_independent (independent_fallbackDocument r)
    (independent_fallbackDocument r')
  rw [compileSchema, compileSchema, compileDocument?_of_independent h h', fallbackSchema, fallbackSchema,
    hfallback]

/-- A document is apart from a library when none of the documents read declares an address that it refers
to. -/
theorem apart_library {document : Json} (h : ∀ address, CompiledSchema.RefersTo document address →
      ∀ id schema text, (id, schema) ∈ r.loaded → declared? schema.document = some text →
        text.toList ≠ address.whole.render) :
    CompiledSchema.Apart r.library document := by
  intro address hrefers
  rw [Library.find?, Option.map_eq_none_iff, List.find?_eq_none]
  rintro ⟨text, other⟩ hmem hsame
  obtain ⟨htext, id, schema, hloaded, rfl⟩ := exists_of_mem_library hmem
  exact h address hrefers id schema text hloaded htext (of_decide_eq_true hsame)

end Registry

end PolicyAudit
