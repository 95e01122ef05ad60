-- SUMMARY: The validator chosen for a document is that of its kind, unless no marker of the kind is in sight.
import PolicyAudit.Lint.Validator
import PolicyAudit.Proofs.Syntax.Quoting
import PolicyAudit.Proofs.Text.Pattern

/-! ## Markers

A marker in a text is one in every text around it. -/

namespace PolicyAudit

open Text

variable {value : Json} {kind : Kind} {s text : String}

namespace Kind

/-- A text has a marker of a kind in it, letter case aside. -/
def Marks (kind : Kind) (s : String) : Prop :=
  ∃ marker ∈ Validator.markers (some kind), contains (foldCase s) marker = true

instance (kind : Kind) (s : String) : Decidable (kind.Marks s) := inferInstanceAs (Decidable (∃ _, _))

theorem Marks.of_infix (h : kind.Marks s) (hpart : s.toList <:+: text.toList) : kind.Marks text := by
  obtain ⟨marker, hmarker, hcontains⟩ := h
  exact ⟨marker, hmarker, contains_foldCase_of_infix hcontains hpart⟩

/-! ## Signs

Every sign of a kind but a declared schema comes with a marker of the kind. -/

/-- A value quotes a text with a marker of a kind. -/
def Shows (kind : Kind) (value : Json) : Prop := ∃ s, value.Quotes s ∧ kind.Marks s

theorem Shows.of_field {field : Field} {found : Json} (h : value.field? field = some found)
    (hmarks : ∀ name ∈ field.spellings, kind.Marks name) : kind.Shows value := by
  obtain ⟨⟨name, hname, hquotes⟩, -⟩ := Json.quotes_of_field? h
  exact ⟨name, hquotes, hmarks name hname⟩

theorem Shows.of_properties (h : kind.Shows (Part.properties value).value) : kind.Shows value := by
  obtain ⟨s, hs, hmarks⟩ := h
  exact ⟨s, Json.quotes_of_properties hs, hmarks⟩

theorem shows_of_provenance (h : ofProvenance? value = some kind) : kind.Shows value := by
  obtain ⟨source, hsource, h⟩ := Option.bind_eq_some_iff.mp h
  obtain ⟨metadata, hmetadata, htext⟩ := Option.bind_eq_some_iff.mp hsource
  obtain ⟨⟨marker, _⟩, hfind, rfl⟩ := Option.map_eq_some_iff.mp h
  refine ⟨source, ?_, ?_⟩
  · have hquotes := Json.quotes_of_text? htext
    rcases Option.or_eq_some_iff.mp hmetadata with hin | ⟨-, hin⟩
    · exact Json.quotes_of_properties ((Json.quotes_of_field? hin).2 source hquotes)
    · exact (Json.quotes_of_field? hin).2 source hquotes
  · -- the address has the marker of a source, and that has a marker of the kind
    have hall : ∀ e ∈ [("policysetdefinitions", collection), ("policydefinitions", definition),
        ("policyassignments", assignment)],
        ∃ marker ∈ Validator.markers (some e.2), contains e.1 marker = true := by decide +kernel
    obtain ⟨short, hshort, hcontains⟩ := hall _ (List.mem_of_find?_eq_some hfind)
    exact ⟨short, hshort, contains_of_contains (by simpa using List.find?_some hfind) hcontains⟩

theorem shows_of_nodeName (h : ofNodeName? value = some kind) : kind.Shows value := by
  unfold ofNodeName? at h
  split at h
  · next hfield =>
    obtain ⟨found, hfound⟩ := Option.isSome_iff_exists.mp hfield
    obtain rfl := Option.some.inj h
    exact .of_field hfound (by decide +kernel)
  · cases h

theorem shows_of_rule (h : ofRule? value = some kind) : kind.Shows value := by
  unfold ofRule? at h
  dsimp only at h
  split at h
  · next hrule =>
    obtain rfl := Option.some.inj h
    rw [Bool.and_eq_true] at hrule
    obtain ⟨-, hrule⟩ := hrule
    unfold hasRule at hrule
    split at hrule
    · next hfound => exact .of_properties (.of_field hfound (by decide +kernel))
    · cases hrule
  · cases h

theorem shows_of_definitions (h : ofDefinitions? value = some kind) : kind.Shows value := by
  obtain ⟨items, hitems, h⟩ := Option.bind_eq_some_iff.mp h
  obtain ⟨found, hfound, -⟩ := Option.bind_eq_some_iff.mp hitems
  split at h
  · obtain rfl := Option.some.inj h
    exact .of_properties (.of_field hfound (by decide +kernel))
  · cases h

theorem shows_of_resourceType (h : ofResourceType? value = some kind) : kind.Shows value := by
  obtain ⟨type, htype, h⟩ := Option.bind_eq_some_iff.mp h
  have hname : kind.resourceType = type := by simpa using List.find?_some h
  refine ⟨type, Json.quotes_of_text? htype, hname ▸ ?_⟩
  cases kind <;> decide +kernel

/-- What decides the kind of a document is a declared schema or shows in its texts. -/
theorem of?_cases (h : of? value = some kind) :
    ofDeclaredSchema? value = some kind ∨ kind.Shows value := by
  unfold of? at h
  split at h
  · rcases Option.or_eq_some_iff.mp h with h | ⟨-, h⟩
    · exact .inl h
    rcases Option.or_eq_some_iff.mp h with h | ⟨-, h⟩
    · exact .inr (shows_of_provenance h)
    rcases Option.or_eq_some_iff.mp h with h | ⟨-, h⟩
    · exact .inr (shows_of_nodeName h)
    rcases Option.or_eq_some_iff.mp h with h | ⟨-, h⟩
    · exact .inr (shows_of_rule h)
    rcases Option.or_eq_some_iff.mp h with h | ⟨-, h⟩
    · exact .inr (shows_of_definitions h)
    · exact .inr (shows_of_resourceType h)
  · cases h

/-! ## Declared schemas

The address of a schema has a marker too, but for two spellings that the markers leave out: a set
definition with one hyphen of the two, and letters from outside ASCII. -/

/-- A set definition is spelled with one hyphen. -/
def OneHyphen (url : String) : Prop :=
  contains (foldCase url) "policyset-definition" = true ∨
    contains (foldCase url) "policy-setdefinition" = true

theorem marks_of_schemaUrl {url : String} (h : ofSchemaUrl? url = some kind)
    (hascii : ∀ c ∈ url.toList, foldsFromOutside c = false) :
    kind.Marks url ∨ kind = collection ∧ OneHyphen url := by
  have hoccurs : kind.schemaFile.occurs url.toList = true := by simpa using List.find?_some h
  obtain ⟨spelling, hspelling, hinfix⟩ := Pattern.exists_spelling_of_occurs hoccurs hascii
  have hall : ∀ kind : Kind, ∀ spelling ∈ Pattern.spellings kind.schemaFile,
      (∃ marker ∈ Validator.markers (some kind), occursIn marker.toList spelling = true) ∨
      kind = collection ∧ (occursIn "policyset-definition".toList spelling = true ∨
        occursIn "policy-setdefinition".toList spelling = true) := by
    intro kind
    cases kind <;> decide +kernel
  have hlift : ∀ needle : String, occursIn needle.toList spelling = true →
      contains (foldCase url) needle = true := by
    intro needle hneedle
    rw [contains_iff, toList_foldCase]
    exact ((occursIn_iff ..).mp hneedle).trans hinfix
  rcases hall kind spelling hspelling with ⟨marker, hmarker, hoccurs⟩ | ⟨hkind, hone⟩
  · exact .inl ⟨marker, hmarker, hlift marker hoccurs⟩
  · exact .inr ⟨hkind, hone.imp (hlift _) (hlift _)⟩

end Kind

/-! ## The choice -/

namespace Validator

variable {v : Json}

theorem mightAccept_iff : (⟨some kind⟩ : Validator).mightAccept text = true ↔ kind.Marks text :=
  List.any_eq_true

/-- Of a clean document the validator of its kind is chosen, where the text has a marker of the kind. -/
theorem select?_eq (hclean : (Document.ofText text).isClean = true)
    (hvalue : (Document.ofText text).value? = some v) :
    select? (.ofText text) = (Kind.of? v).bind fun kind =>
      if (⟨some kind⟩ : Validator).mightAccept text then some ⟨some kind⟩ else none := by
  have haccepts : ∀ kind, (⟨some kind⟩ : Validator).accepts (.ofText text) =
      decide (Kind.of? v = some kind) := by
    intro kind
    rw [accepts, hclean, hvalue, Bool.true_and, Option.any_some]
  cases hkind : Kind.of? v with
  | none => simp [select?, all, Kind.all, haccepts, hkind]
  | some kind =>
    have htext : (Document.ofText text).text = text := rfl
    cases hmight : (⟨some kind⟩ : Validator).mightAccept text <;> cases kind <;>
      simp [select?, all, Kind.all, haccepts, hkind, htext, hmight]

/-- **The choice of a validator.** Of a clean document the validator of its kind is chosen or none, and for
a document of no kind none. Where none is chosen for a kind, the text has an escape in it or the kind is that
of a declared schema, whose address has a letter from outside ASCII or, for a set definition, one hyphen
only. -/
theorem select?_of_isClean (hclean : (Document.ofText text).isClean = true)
    (hvalue : (Document.ofText text).value? = some v) :
    (Kind.of? v = none → select? (.ofText text) = none) ∧
    ∀ kind, Kind.of? v = some kind →
      (select? (.ofText text) = some ⟨some kind⟩ ∨ select? (.ofText text) = none) ∧
      (select? (.ofText text) = none ↔ (⟨some kind⟩ : Validator).mightAccept text = false) ∧
      (select? (.ofText text) = none → '\\' ∈ text.toList ∨
        ∃ url, v.text? .schema = some url ∧ Kind.ofSchemaUrl? url = some kind ∧
          ((∃ c ∈ url.toList, foldsFromOutside c = true) ∨ kind = .collection ∧ Kind.OneHyphen url)) := by
  rw [select?_eq hclean hvalue]
  refine ⟨fun hnone => by rw [hnone, Option.bind_none], fun kind hkind => ?_⟩
  rw [hkind, Option.bind_some]
  cases hmight : (⟨some kind⟩ : Validator).mightAccept text with
  | true => exact ⟨.inl rfl, by simp, nofun⟩
  | false =>
    refine ⟨.inr rfl, by simp, fun _ => Decidable.or_iff_not_imp_left.mpr fun hslash => ?_⟩
    have hunmarked : ¬kind.Marks text := fun hmarks =>
      Bool.eq_false_iff.mp hmight (mightAccept_iff.mpr hmarks)
    have hquoted : ∀ s, v.Quotes s → ¬kind.Marks s := fun s hs hmarks =>
      hunmarked (hmarks.of_infix (Document.infix_of_quotes hclean hvalue hslash hs))
    rcases Kind.of?_cases hkind with hdeclared | ⟨s, hs, hmarks⟩
    · obtain ⟨url, hurl, hschema⟩ := Option.bind_eq_some_iff.mp hdeclared
      refine ⟨url, hurl, hschema, ?_⟩
      cases houtside : url.toList.any foldsFromOutside with
      | true => exact .inl (List.any_eq_true.mp houtside)
      | false =>
        have hmarks := Kind.marks_of_schemaUrl hschema fun c hc => by
          simpa using List.any_eq_false.mp houtside c hc
        exact .inr (hmarks.resolve_left (hquoted url (Json.quotes_of_text? hurl)))
    · exact absurd hmarks (hquoted s hs)

/-- The address of a schema for set definitions with its second hyphen only. -/
theorem select?_of_isClean_of_hyphen :
    ∃ v, (Document.ofText "\x7b\"$schema\":\"policyset-definition.json\"\x7d").value? = some v ∧
      Kind.of? v = some .collection ∧
      select? (.ofText "\x7b\"$schema\":\"policyset-definition.json\"\x7d") = none ∧
      ∃ url, v.text? .schema = some url ∧ Kind.OneHyphen url := by
  have hclean : (Document.ofText "\x7b\"$schema\":\"policyset-definition.json\"\x7d").isClean = true := by
    decide +kernel
  have hkind : (Document.ofText "\x7b\"$schema\":\"policyset-definition.json\"\x7d").value?.map Kind.of? =
      some (some .collection) := by decide +kernel
  obtain ⟨v, hvalue, hkind⟩ := Option.map_eq_some_iff.mp hkind
  obtain ⟨-, hchoice, hreason⟩ := (select?_of_isClean hclean hvalue).2 .collection hkind
  have hnone := hchoice.mpr (by decide +kernel)
  refine ⟨v, hvalue, hkind, hnone, ?_⟩
  rcases hreason hnone with hslash | ⟨url, hurl, -, houtside | ⟨-, hone⟩⟩
  · exact absurd hslash (by decide +kernel)
  · have hschema : (Document.ofText "\x7b\"$schema\":\"policyset-definition.json\"\x7d").value?.all
        (fun v => (v.text? .schema).all fun url => !url.toList.any foldsFromOutside) = true := by
      decide +kernel
    rw [hvalue, Option.all_some, hurl, Option.all_some, List.any_eq_true.mpr houtside] at hschema
    cases hschema
  · exact ⟨url, hurl, hone⟩

end Validator

end PolicyAudit
