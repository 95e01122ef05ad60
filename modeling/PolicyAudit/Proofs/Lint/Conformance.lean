-- SUMMARY: A document is checked against the schema of its kind, unless signs of another kind come first there.
import PolicyAudit.Lint.Check
import PolicyAudit.Proofs.Keyed
import PolicyAudit.Proofs.Lint.Choice
import PolicyAudit.Proofs.Schema.Report
import PolicyAudit.Proofs.Text.Trimming

/-! ## Addresses

The addresses that are known from the start stand for the schemas that their file names name, so a registry
with no others goes by the file name or by the bare id. -/

namespace PolicyAudit

open Text

namespace Kind

variable {kind other : Kind} {url : String} {read : List Char}

/-- What may be trimmed off an address is no part of a file name. -/
theorem fits_schemaFile (h : kind.schemaFile.Fits read) :
    read ≠ [] ∧ (∀ c ∈ read, isBlank c = false) ∧ ∀ c ∈ read, decide (c = '#') = false := by
  refine ⟨?_, ?_, ?_⟩
  · rintro rfl
    have hspelling := h.mem_spellings fun c hc => absurd hc List.not_mem_nil
    exact absurd hspelling (by cases kind <;> decide +kernel)
  · apply h.lacks
    · cases kind <;> decide +kernel
    · exact fun p c => isBlank_of_matchesChar
  · apply h.lacks
    · cases kind <;> decide +kernel
    · intro p c hchar hc
      obtain rfl : c = '#' := of_decide_eq_true hc
      obtain rfl : '#' = p := by simpa [matchesChar] using hchar
      rfl

theorem occurs_normalizeUrl (kind : Kind) (url : String) :
    kind.schemaFile.occurs (Registry.normalizeUrl url).toList = kind.schemaFile.occurs url.toList := by
  rw [Registry.normalizeUrl, toList_foldCase, Pattern.occurs_map_toLower, String.toList_ofList, Bool.eq_iff_iff,
    Pattern.occurs_iff, Pattern.occurs_iff]
  have hends : ∀ read, kind.schemaFile.Fits read →
      (read <:+: ((trim url.toList).reverse.dropWhile (· = '#')).reverse ↔ read <:+: url.toList) := by
    intro read hfits
    obtain ⟨hne, hblank, hmark⟩ := fits_schemaFile hfits
    rw [infix_dropEnd_iff hne hmark, trim, trimEnd, infix_dropEnd_iff hne hblank, trimStart,
      infix_dropWhile_iff hne hblank]
  constructor
  · rintro ⟨read, hfits, hread⟩
    exact ⟨read, hfits, (hends read hfits).mp hread⟩
  · rintro ⟨read, hfits, hread⟩
    exact ⟨read, hfits, (hends read hfits).mpr hread⟩

theorem ofSchemaUrl?_normalizeUrl (url : String) :
    ofSchemaUrl? (Registry.normalizeUrl url) = ofSchemaUrl? url := by
  simp only [ofSchemaUrl?, occurs_normalizeUrl]

theorem schemaId_injective (h : kind.schemaId = other.schemaId) : kind = other := by
  cases kind <;> cases other <;> first | rfl | exact absurd h (by decide)

theorem schemaId_of_ofSchemaId? (h : ofSchemaId? url = some kind) : kind.schemaId = url := by
  simpa using List.find?_some h

theorem ofSchemaId?_schemaId (kind : Kind) : ofSchemaId? kind.schemaId = some kind := by
  cases kind <;> decide

theorem ofSchemaUrl?_schemaId (kind : Kind) : ofSchemaUrl? kind.schemaId = none := by
  cases kind <;> decide +kernel

end Kind

namespace Registry

variable {r : Registry} {url id : String} {pairs : List (String × String)}

/-- The addresses known from the start stand for the schemas whose files they name. -/
theorem ofSchemaUrl?_of_mem_knownAliases :
    ∀ entry ∈ knownAliases, (Kind.ofSchemaUrl? entry.1).map Kind.schemaId = some entry.2 := by
  decide +kernel

theorem resolve?_of_builtin (haliases : r.aliases = (new none).aliases) (url : String) :
    r.resolve? url = ((Kind.ofSchemaUrl? url).or (Kind.ofSchemaId? url)).map Kind.schemaId := by
  unfold resolve?
  rw [haliases, new_eq]
  cases halias : Keyed.find? (normalizeUrl url) knownAliases with
  | some id =>
    have hid := ofSchemaUrl?_of_mem_knownAliases _ (Keyed.mem_of_find? halias)
    rw [Kind.ofSchemaUrl?_normalizeUrl] at hid
    obtain ⟨kind, hkind, rfl⟩ := Option.map_eq_some_iff.mp hid
    rw [hkind]
    rfl
  | none =>
    cases hid : Kind.ofSchemaId? url with
    | none => simp
    | some kind =>
      obtain rfl := Kind.schemaId_of_ofSchemaId? hid
      simp [Kind.ofSchemaUrl?_schemaId]

end Registry

/-! ## The schema of a document

A document is checked against the schema that it declares, by an address or by a bare id, or else against
that of the kind that it looks like. Its own kind goes by its signs in an order of their own. -/

namespace Kind

variable {value : Json} {kind other : Kind}

/-- The kind of the schema that a document declares, by an address or by a bare id. -/
def declared? (value : Json) : Option Kind :=
  (value.text? .schema).bind fun url => (ofSchemaUrl? url).or (ofSchemaId? url)

/-- The kind of the schema that a document is checked against. -/
def checked? (value : Json) : Option Kind := (declared? value).or (guess? value)

/-- Signs by which a document of one kind is checked against the schema of another one. -/
inductive Strays (value : Json) : Kind → Kind → Prop
  /-- It declares the bare id of the other schema, which is no address. -/
  | declared {kind other : Kind} (hschema : value.text? .schema = some other.schemaId) :
      Strays value kind other
  /-- Its kind is that of its source, and it looks like the other one. -/
  | provenance {kind other : Kind} (hnone : declared? value = none) (hsource : ofProvenance? value = some kind)
      (hguess : guess? value = some other) : Strays value kind other
  /-- It has a node name, and beside it a rule or a list of policy definitions. -/
  | nodeName {other : Kind} (hnone : declared? value = none) (hnode : value.hasField .nodeName = true)
      (hguess : guess? value = some other) : Strays value assignment other
  /-- It has a list of policy definitions, and beside it a rule without a mode. -/
  | definitions (hnone : declared? value = none) (hlist : ofDefinitions? value = some collection)
      (hmode : (Part.properties value).value.hasField .mode = false)
      (hrule : hasRule (Part.properties value).value = true) : Strays value collection definition
  /-- Its kind is that of its resource type, and it looks like the other one. -/
  | resourceType {kind other : Kind} (hnone : declared? value = none)
      (htype : ofResourceType? value = some kind) (hguess : guess? value = some other) :
      Strays value kind other

theorem guess?_of_hasRule (hobject : value.isObject = true)
    (hrule : hasRule (Part.properties value).value = true) : guess? value = some definition := by
  simp only [guess?, hobject, hrule, if_true]

theorem isObject_of_of? (h : of? value = some kind) : value.isObject = true := by
  unfold of? at h
  split at h
  · next hobject => exact hobject
  · cases h

theorem ofDeclaredSchema?_of_declared? (h : declared? value = none) : ofDeclaredSchema? value = none := by
  unfold ofDeclaredSchema?
  unfold declared? at h
  cases hurl : value.text? .schema with
  | none => rfl
  | some url =>
    rw [hurl, Option.bind_some, Option.or_eq_none_iff] at h
    exact h.1

theorem eq_assignment_of_ofNodeName? (h : ofNodeName? value = some kind) :
    kind = assignment ∧ value.hasField .nodeName = true := by
  unfold ofNodeName? at h
  split at h
  · next hnode => exact ⟨(Option.some.inj h).symm, hnode⟩
  · cases h

theorem eq_definition_of_ofRule? (h : ofRule? value = some kind) :
    kind = definition ∧ hasRule (Part.properties value).value = true := by
  unfold ofRule? at h
  dsimp only at h
  split at h
  · next hboth =>
    rw [Bool.and_eq_true] at hboth
    exact ⟨(Option.some.inj h).symm, hboth.2⟩
  · cases h

/-- A rule without a mode says nothing about the kind. -/
theorem hasField_mode_of_ofRule? (h : ofRule? value = none)
    (hrule : hasRule (Part.properties value).value = true) :
    (Part.properties value).value.hasField .mode = false := by
  unfold ofRule? at h
  dsimp only at h
  split at h
  · cases h
  · next hboth => simpa [hrule] using hboth

theorem eq_collection_of_ofDefinitions? (h : ofDefinitions? value = some kind) :
    kind = collection ∧ (((Part.properties value).value.field? .definitions).map Json.isArray).getD false = true := by
  obtain ⟨items, hitems, h⟩ := Option.bind_eq_some_iff.mp h
  obtain ⟨found, hfound, hlist⟩ := Option.bind_eq_some_iff.mp hitems
  split at h
  · refine ⟨(Option.some.inj h).symm, ?_⟩
    rw [hfound]
    cases found <;> first | rfl | cases hlist
  · cases h

/-- A kind that strays is checked as the other one. -/
theorem Strays.checked?_eq (h : Strays value kind other) (hkind : of? value = some kind) :
    checked? value = some other := by
  unfold checked?
  cases h with
  | declared hschema =>
    rw [declared?, hschema, Option.bind_some, ofSchemaUrl?_schemaId, Option.none_or, ofSchemaId?_schemaId]
    rfl
  | provenance hnone _ hguess => rw [hnone, Option.none_or, hguess]
  | nodeName hnone _ hguess => rw [hnone, Option.none_or, hguess]
  | definitions hnone _ _ hrule => rw [hnone, Option.none_or, guess?_of_hasRule (isObject_of_of? hkind) hrule]
  | resourceType hnone _ hguess => rw [hnone, Option.none_or, hguess]

/-- A document that is not checked as its own kind strays. -/
theorem strays_of_checked? (hkind : of? value = some kind) (hchecked : checked? value = some other)
    (hne : other ≠ kind) : Strays value kind other := by
  have hobject := isObject_of_of? hkind
  rcases Option.or_eq_some_iff.mp hchecked with hdeclared | ⟨hnone, hguess⟩
  · obtain ⟨url, hurl, hschema⟩ := Option.bind_eq_some_iff.mp hdeclared
    rcases Option.or_eq_some_iff.mp hschema with haddress | ⟨-, hid⟩
    · have hsame : of? value = some other := by
        simp only [of?, hobject, if_true, ofDeclaredSchema?, hurl, Option.bind_some, haddress, Option.some_or]
      exact absurd (Option.some.inj (hsame.symm.trans hkind)) hne
    · exact .declared (by rw [hurl, schemaId_of_ofSchemaId? hid])
  · -- Both kinds go by the shape from here on: the signs in the order of the document's own kind.
    unfold of? at hkind
    rw [if_pos hobject, ofDeclaredSchema?_of_declared? hnone, Option.none_or] at hkind
    rcases Option.or_eq_some_iff.mp hkind with hsource | ⟨-, hkind⟩
    · exact .provenance hnone hsource hguess
    rcases Option.or_eq_some_iff.mp hkind with hmarked | ⟨-, hkind⟩
    · obtain ⟨rfl, hnode⟩ := eq_assignment_of_ofNodeName? hmarked
      exact .nodeName hnone hnode hguess
    rcases Option.or_eq_some_iff.mp hkind with hruled | ⟨hunruled, hkind⟩
    · obtain ⟨rfl, hrule⟩ := eq_definition_of_ofRule? hruled
      have hsame := hguess.symm.trans (guess?_of_hasRule hobject hrule)
      exact absurd (Option.some.inj hsame) hne
    rcases Option.or_eq_some_iff.mp hkind with hlist | ⟨-, htype⟩
    · obtain ⟨rfl, harray⟩ := eq_collection_of_ofDefinitions? hlist
      cases hrule : hasRule (Part.properties value).value with
      | true =>
        have hsame := hguess.symm.trans (guess?_of_hasRule hobject hrule)
        obtain rfl := Option.some.inj hsame
        exact .definitions hnone hlist (hasField_mode_of_ofRule? hunruled hrule) hrule
      | false =>
        have hcollection : guess? value = some collection := by
          simp only [guess?, hobject, hrule, harray, if_true, Bool.false_eq_true, if_false]
        exact absurd (Option.some.inj (hguess.symm.trans hcollection)) hne
    · exact .resourceType hnone htype hguess

end Kind

/-! ## The rule -/

namespace Structural

variable {registry : Registry} {ctx : Context} {value : Json} {kind : Kind} {id : String}

theorem schemaId?_of_builtin (haliases : registry.aliases = (Registry.new none).aliases) (value : Json) :
    schemaId? registry value = (Kind.checked? value).map Kind.schemaId := by
  have hdeclared : (value.text? .schema).bind registry.resolve? = (Kind.declared? value).map Kind.schemaId := by
    rw [Kind.declared?]
    cases value.text? .schema with
    | none => rfl
    | some url => rw [Option.bind_some, Option.bind_some, Registry.resolve?_of_builtin haliases]
  rw [schemaId?, hdeclared, Kind.checked?]
  cases Kind.declared? value <;> rfl

theorem resolve?_schemaId (haliases : registry.aliases = (Registry.new none).aliases) (kind : Kind) :
    registry.resolve? kind.schemaId = some kind.schemaId := by
  rw [Registry.resolve?_of_builtin haliases, Kind.ofSchemaUrl?_schemaId, Option.none_or,
    Kind.ofSchemaId?_schemaId, Option.map_some]

/-- **The schema of a document.** If a schema is found for a document of some kind, it is the schema of the
kind unless the document strays, and then it is that of the other kind. The schema rule is one of the kind's
rules, and it reports what the schema that was found has against the document. -/
theorem schemaId?_of_kind (haliases : registry.aliases = (Registry.new none).aliases)
    (hkind : Kind.of? ctx.value = some kind) (hid : schemaId? registry ctx.value = some id) :
    (id = kind.schemaId ↔ ∀ other, other ≠ kind → ¬ Kind.Strays ctx.value kind other) ∧
      (∀ other, other ≠ kind → Kind.Strays ctx.value kind other → id = other.schemaId) ∧
      Rule.schemaValidation ∈ kind.rules ∧
      (Rule.schemaValidation.check ctx registry).1 = .ok ((registry.check id ctx.value).1.errors.map
        (issueOf ctx.doc Rule.schemaValidation.id)) := by
  have hfound := (schemaId?_of_builtin haliases ctx.value).symm.trans hid
  obtain ⟨checked, hchecked, rfl⟩ := Option.map_eq_some_iff.mp hfound
  have hstrays : ∀ other, Kind.Strays ctx.value kind other → checked = other := fun other h =>
    Option.some.inj (hchecked.symm.trans (h.checked?_eq hkind))
  refine ⟨⟨?_, ?_⟩, ?_, ?_, ?_⟩
  · intro hsame other hne h
    exact hne ((hstrays other h).symm.trans (Kind.schemaId_injective hsame))
  · intro hstays
    by_cases hne : checked = kind
    · rw [hne]
    · exact absurd (Kind.strays_of_checked? hkind hchecked hne) (hstays checked hne)
  · intro other _ h
    rw [hstrays other h]
  · cases kind <;> exact List.mem_cons_self
  · have hresolve := resolve?_schemaId haliases checked
    simp only [Rule.check, check, hid, Registry.validate_of_resolve? hresolve]

/-- A node with an entry is an assignment by both orders. -/
theorem schemaId?_of_kind_of_entry :
    ∃ ctx, Context.ofDocument? (.ofText
        "\x7b\"nodeName\":\"/root\",\"definitionEntry\":\x7b\"policyName\":\"p\"\x7d\x7d") = some ctx ∧
      Kind.of? ctx.value = some .assignment ∧
      schemaId? (Registry.new none) ctx.value = some Kind.assignment.schemaId ∧
      (∀ other, other ≠ .assignment → ¬ Kind.Strays ctx.value .assignment other) ∧
      (Rule.schemaValidation.check ctx (Registry.new none)).1 =
        .ok (((Registry.new none).check Kind.assignment.schemaId ctx.value).1.errors.map
          (issueOf ctx.doc Rule.schemaValidation.id)) := by
  have hread : (Context.ofDocument? (.ofText
      "\x7b\"nodeName\":\"/root\",\"definitionEntry\":\x7b\"policyName\":\"p\"\x7d\x7d")).map (fun ctx =>
        (Kind.of? ctx.value, schemaId? (Registry.new none) ctx.value)) =
      some (some .assignment, some Kind.assignment.schemaId) := by decide +kernel
  obtain ⟨ctx, hctx, hread⟩ := Option.map_eq_some_iff.mp hread
  obtain ⟨hkind, hid⟩ := Prod.mk.inj hread
  obtain ⟨hstays, -, -, hcheck⟩ := schemaId?_of_kind rfl hkind hid
  exact ⟨ctx, hctx, hkind, hid, hstays.mp rfl, hcheck⟩

/-- A node with a rule is an assignment, but it is checked as a definition. -/
theorem schemaId?_of_rule :
    let doc := Document.ofText
      "\x7b\"nodeName\":\"/root\",\"policyRule\":\x7b\"if\":\x7b\x7d,\"then\":\x7b\x7d\x7d\x7d"
    doc.isClean = true ∧ ∃ value, doc.value? = some value ∧ Kind.of? value = some .assignment ∧
      schemaId? (Registry.new none) value = some Kind.definition.schemaId ∧
      Kind.definition.schemaId ≠ Kind.assignment.schemaId := by
  intro doc
  have hread : doc.value?.map (fun value => (Kind.of? value, schemaId? (Registry.new none) value)) =
      some (some .assignment, some Kind.definition.schemaId) := by decide +kernel
  obtain ⟨value, hvalue, hread⟩ := Option.map_eq_some_iff.mp hread
  obtain ⟨hkind, hid⟩ := Prod.mk.inj hread
  exact ⟨by decide +kernel, value, hvalue, hkind, hid, by decide⟩

end Structural

end PolicyAudit
