-- SUMMARY: What the change of one member leaves as it was: the other fields, and the kind of the document.
import PolicyAudit.Policy.Kind

/-! ## Spellings

No two fields share a spelling, so a member is of one field at most. -/

namespace PolicyAudit

namespace Field

variable {field other : Field} {name : String}

/-- The field that a spelling belongs to. -/
def ofSpelling? (name : String) : Option Field :=
  [schema, Field.name, type, properties, metadata, mode, parameters, rule, condition, consequence, effect,
    allowedValues, definitions, definitionId, definitionName, referenceId, nodeName, assignment, children, scope,
    entry, entries, policyId, policyName, policySetId, policySetName, provenance].find? (name ∈ ·.spellings)

theorem ofSpelling?_eq (h : name ∈ field.spellings) : ofSpelling? name = some field := by
  have hspellings : ∀ name ∈ field.spellings, ofSpelling? name = some field := by
    cases field <;> decide +kernel
  exact hspellings name h

theorem not_mem_spellings (h : name ∈ field.spellings) (hne : field ≠ other) : name ∉ other.spellings :=
  fun hother => hne (Option.some.inj ((ofSpelling?_eq h).symm.trans (ofSpelling?_eq hother)))

end Field

/-! ## Fields of a changed object -/

namespace Json

variable {value value' found found' : Json} {name : String} {field : Field}

theorem isObject_of_get? (h : value.get? name = some found) : value.isObject = true := by
  cases value with
  | object members => rfl
  | array items => cases h
  | scalar scalar => cases h

/-- Two values answer alike for every name but one. -/
def AlikeBut (name : String) (value value' : Json) : Prop :=
  ∀ other, other ≠ name → value'.get? other = value.get? other

theorem AlikeBut.spelling?_eq (h : AlikeBut name value value') (hname : name ∉ field.spellings) :
    value'.spelling? field = value.spelling? field := by
  unfold spelling?
  generalize field.spellings = spellings at hname ⊢
  induction spellings with
  | nil => rfl
  | cons spelling rest ih =>
    simp only [List.mem_cons, not_or] at hname
    rw [List.findSome?_cons, List.findSome?_cons, h spelling (Ne.symm hname.1), ih hname.2]

theorem AlikeBut.field?_eq (h : AlikeBut name value value') (hname : name ∉ field.spellings) :
    value'.field? field = value.field? field := by
  rw [field?, field?, h.spelling?_eq hname]

/-- A member of one field says nothing about another. -/
theorem AlikeBut.field?_eq_of_ne {other : Field} (h : AlikeBut name value value')
    (hname : name ∈ field.spellings) (hne : field ≠ other) : value'.field? other = value.field? other :=
  h.field?_eq (Field.not_mem_spellings hname hne)

/-- Before the spelling that an object has for a field it has none. -/
theorem spelling?_eq_some_iff :
    value.spelling? field = some (name, found) ↔
      value.get? name = some found ∧
        ∃ before after, field.spellings = before ++ name :: after ∧ ∀ other ∈ before, value.get? other = none := by
  simp only [spelling?, List.findSome?_eq_some_iff, Option.map_eq_some_iff, Option.map_eq_none_iff,
    Prod.mk.injEq]
  constructor
  · rintro ⟨before, _, after, hspellings, ⟨_, hfound, rfl, rfl⟩, hbefore⟩
    exact ⟨hfound, before, after, hspellings, hbefore⟩
  · rintro ⟨hfound, before, after, hspellings, hbefore⟩
    exact ⟨before, name, after, hspellings, ⟨found, hfound, rfl, rfl⟩, hbefore⟩

theorem mem_spellings_of_spelling? (h : value.spelling? field = some (name, found)) :
    name ∈ field.spellings := by
  obtain ⟨-, before, after, hspellings, -⟩ := spelling?_eq_some_iff.mp h
  rw [hspellings]
  simp

theorem isObject_of_spelling? (h : value.spelling? field = some (name, found)) : value.isObject = true :=
  isObject_of_get? (spelling?_eq_some_iff.mp h).1

/-- A field whose value is replaced keeps its spelling. -/
theorem AlikeBut.spelling?_of_replaced (h : AlikeBut name value value')
    (hold : value.spelling? field = some (name, found)) (hnew : value'.get? name = some found') :
    value'.spelling? field = some (name, found') := by
  obtain ⟨hfound, before, after, hspellings, hbefore⟩ := spelling?_eq_some_iff.mp hold
  refine spelling?_eq_some_iff.mpr ⟨hnew, before, after, hspellings, fun other hother => ?_⟩
  have hne : other ≠ name := by
    rintro rfl
    exact absurd (hfound.symm.trans (hbefore other hother)) (by simp)
  rw [h other hne, hbefore other hother]

/-- A field that an object did not have is found under the spelling that is added. -/
theorem AlikeBut.spelling?_of_added (h : AlikeBut name value value') (hold : value.field? field = none)
    (hname : name ∈ field.spellings) (hnew : value'.get? name = some found') :
    value'.spelling? field = some (name, found') := by
  have hnone : ∀ other ∈ field.spellings, value.get? other = none := by
    simpa [field?, spelling?, List.findSome?_eq_none_iff] using hold
  obtain ⟨before, after, hspellings, hbefore⟩ := List.eq_append_cons_of_mem hname
  refine spelling?_eq_some_iff.mpr ⟨hnew, before, after, hspellings, fun other hother => ?_⟩
  have hne : other ≠ name := fun heq => hbefore (heq ▸ hother)
  rw [h other hne]
  exact hnone other (hspellings ▸ List.mem_append_left _ hother)

end Json

/-! ## The kind of a changed document -/

namespace Kind

variable {value value' : Json} {name : String}

/-- The fields that the kind of a tree of assignments depends on. -/
def signFields : List Field := [.schema, .properties, .metadata, .nodeName]

theorem ofProvenance?_of_alikeBut (h : Json.AlikeBut name value value')
    (hname : ∀ field ∈ signFields, name ∉ field.spellings) :
    ofProvenance? value' = ofProvenance? value := by
  have hmetadata := h.field?_eq (hname .metadata (by decide))
  have hinner : (Part.properties value').value.field? .metadata =
      (Part.properties value).value.field? .metadata := by
    unfold Part.properties Part.field?
    simp only [Part.root, h.spelling?_eq (hname .properties (by decide))]
    split
    · split
      · rfl
      · exact hmetadata
    · exact hmetadata
  rw [ofProvenance?, ofProvenance?, Json.metadata?, Json.metadata?, hinner, hmetadata]

/-- An object with a node name keeps its kind when a member changes that is no sign of it. -/
theorem of?_of_alikeBut (h : Json.AlikeBut name value value')
    (hname : ∀ field ∈ signFields, name ∉ field.spellings) (hobject : value'.isObject = value.isObject)
    (hnode : value.hasField .nodeName = true) : of? value' = of? value := by
  have hschema : ofDeclaredSchema? value' = ofDeclaredSchema? value := by
    simp only [ofDeclaredSchema?, Json.text?, h.field?_eq (hname .schema (by decide))]
  have hnode' : ofNodeName? value = some assignment := by rw [ofNodeName?, if_pos hnode]
  have hnew : ofNodeName? value' = some assignment := by
    rw [ofNodeName?, Json.hasField, h.field?_eq (hname .nodeName (by decide)), ← Json.hasField, if_pos hnode]
  rw [of?, of?, hobject, hschema, ofProvenance?_of_alikeBut h hname, hnode', hnew, Option.some_or,
    Option.some_or]

end Kind

end PolicyAudit
