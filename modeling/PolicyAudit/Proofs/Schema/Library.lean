-- SUMMARY: The order of the schemas read matters to references only where two of them declare one address.
import Mathlib.Data.List.Find
import Mathlib.Data.List.Induction
import Mathlib.Data.List.Pairwise
import PolicyAudit.Proofs.Keyed
import PolicyAudit.Schema.Registry

/-! ## What a library is made of

References lead into the library of a registry: the documents read, by the addresses that they declare. -/

namespace PolicyAudit

/-- The order of the ids the other way round. -/
def Listing.reversed : Listing := ⟨List.reverse, List.reverse_perm⟩

namespace Registry

variable {r r' : Registry} {text : String} {document : Json} {schema : LoadedSchema}

theorem ascending_library (r : Registry) : r.library.Ascending := by
  refine List.foldlRecOn (motive := Keyed.Ascending) (r.listing.list r.loaded) _ Keyed.ascending_nil ?_
  rintro library ih ⟨id, schema⟩ -
  dsimp only
  split
  · exact ih.insert _ _
  · exact ih

/-- An address leads to the document that declares it, the last one in the order of the registry. -/
theorem find?_library (r : Registry) (text : String) :
    Keyed.find? text r.library =
      ((r.listing.list r.loaded).reverse.find? fun entry => declared? entry.2.document = some text).map
        (·.2.document) := by
  unfold library
  induction r.listing.list r.loaded using List.reverseRecOn with
  | nil => rfl
  | append_singleton entries last ih =>
    obtain ⟨id, schema⟩ := last
    rw [List.foldl_append, List.foldl_cons, List.foldl_nil, List.reverse_append, List.reverse_singleton,
      List.singleton_append, List.find?_cons]
    dsimp only
    cases hdeclared : declared? schema.document with
    | none => simpa using ih
    | some other =>
      by_cases hsame : other = text
      · simp [hsame, Keyed.find?_insert_self]
      · simp [hsame, Keyed.find?_insert_of_ne hsame, ih]

/-- The documents in a library have been read, and each is under the address that it declares. -/
theorem exists_of_mem_library (h : (text, document) ∈ r.library) :
    declared? document = some text ∧ ∃ id schema, (id, schema) ∈ r.loaded ∧ schema.document = document := by
  have hfind := (ascending_library r).find?_eq_some_of_mem h
  rw [find?_library] at hfind
  obtain ⟨⟨id, schema⟩, hlast, rfl⟩ := Option.map_eq_some_iff.mp hfind
  have hlisted := List.mem_reverse.mp (List.mem_of_find?_eq_some hlast)
  exact ⟨by simpa using List.find?_some hlast, id, schema, (r.listing.perm _).mem_iff.mp hlisted, rfl⟩

/-! ## The order

Which of the documents with one address a reference gets is left to the order in which a registry goes through
its schemas. -/

/-- No address is declared by two of the schemas read. -/
def Unambiguous (r : Registry) : Prop := (r.loaded.filterMap fun entry => declared? entry.2.document).Nodup

instance (r : Registry) : Decidable r.Unambiguous := inferInstanceAs (Decidable (List.Nodup _))

theorem Unambiguous.subsingleton (h : r.Unambiguous) (text : String) :
    {entry ∈ r.loaded | declared? entry.2.document = some text}.Subsingleton := by
  rintro a ⟨ha, hatext⟩ b ⟨hb, hbtext⟩
  have hsymm : Std.Symm fun a b : String × LoadedSchema => ∀ x, declared? a.2.document = some x →
      ∀ y, declared? b.2.document = some y → x ≠ y := ⟨fun a b hab x hx y hy => (hab y hy x hx).symm⟩
  by_contra hne
  exact (List.pairwise_filterMap.mp h).forall ha hb hne text hatext text hbtext rfl

theorem library_congr (hloaded : r'.loaded = r.loaded) (h : r'.listing = r.listing ∨ r.Unambiguous) :
    r'.library = r.library := by
  rcases h with hlisting | hunambiguous
  · simp only [library, hloaded, hlisting]
  · apply (ascending_library r').ext (ascending_library r)
    intro text
    rw [find?_library, find?_library, hloaded]
    have hperm : ∀ listing : Listing, (listing.list r.loaded).reverse.Perm r.loaded := fun listing =>
      (List.reverse_perm _).trans (listing.perm _)
    rw [List.find?_eq_find?_of_perm ((hperm r'.listing).trans (hperm r.listing).symm)]
    apply (hunambiguous.subsingleton text).anti
    rintro entry ⟨hlisted, htext⟩
    exact ⟨(hperm r'.listing).mem_iff.mp hlisted, of_decide_eq_true htext⟩

/-- What a schema that has not been compiled is compiled to goes by the documents that references may lead
into. -/
theorem compileSchema_congr (h : r'.library = r.library) (schema : LoadedSchema) :
    r'.compileSchema schema = r.compileSchema schema := by
  simp only [compileSchema, fallbackSchema, compileDocument?, h]

end Registry

end PolicyAudit
