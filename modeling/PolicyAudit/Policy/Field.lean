-- SUMMARY: The fields of policy documents and their spellings.
import PolicyAudit.Json.Value
import PolicyAudit.Text.Blank

/-! ## Fields

Policy documents spell their fields in several ways. Each field has a list of spellings in order of
preference, and the first spelling that an object has is the one that counts, whatever its value. -/

namespace PolicyAudit

/-- A field of a policy document. -/
inductive Field where
  | schema | name | type | properties | metadata | mode | parameters | rule | condition
  | consequence | effect | allowedValues | definitions | definitionId | definitionName
  | referenceId | nodeName | assignment | children | scope | entry | entries | policyId
  | policyName | policySetId | policySetName | provenance
deriving DecidableEq, Repr

namespace Field

/-- The spellings of a field in order of preference. -/
def spellings : Field → List String
  | schema => ["$schema"]
  | name => ["name", "Name"]
  | type => ["type", "Type"]
  | properties => ["properties", "Properties"]
  | metadata => ["metadata", "Metadata"]
  | mode => ["mode", "Mode"]
  | parameters => ["parameters", "Parameters"]
  | rule => ["policyRule", "PolicyRule", "policyrule"]
  | condition => ["if", "If"]
  | consequence => ["then", "Then"]
  | effect => ["effect", "Effect"]
  | allowedValues => ["allowedValues", "AllowedValues"]
  | definitions => ["policyDefinitions", "PolicyDefinitions"]
  | definitionId => ["policyDefinitionId", "PolicyDefinitionId", "policyDefinitionID"]
  | definitionName => ["policyDefinitionName", "PolicyDefinitionName"]
  | referenceId =>
    ["policyDefinitionReferenceId", "PolicyDefinitionReferenceId", "policyDefinitionReferenceID"]
  | nodeName => ["nodeName", "NodeName"]
  | assignment => ["assignment", "Assignment"]
  | children => ["children", "Children"]
  | scope => ["scope", "Scope"]
  | entry => ["definitionEntry", "DefinitionEntry"]
  | entries => ["definitionEntryList", "DefinitionEntryList"]
  | policyId => ["policyId", "PolicyId"]
  | policyName => ["policyName", "PolicyName"]
  | policySetId => ["policySetId", "PolicySetId"]
  | policySetName => ["policySetName", "PolicySetName"]
  | provenance => ["source", "Source", "epacSource", "epacCloneSource"]

end Field

namespace Json

/-- The spelling that an object has for a field, with the value there. -/
def spelling? (value : Json) (field : Field) : Option (String × Json) :=
  field.spellings.findSome? fun name => (value.get? name).map fun found => (name, found)

/-- The value of a field. -/
def field? (value : Json) (field : Field) : Option Json := (value.spelling? field).map (·.2)

/-- Whether an object has a field. -/
def hasField (value : Json) (field : Field) : Bool := (value.field? field).isSome

/-- The text of a field that is a string. -/
def text? (value : Json) (field : Field) : Option String :=
  (value.field? field).bind Json.string?

/-- The text of a field that is a string with more than blanks in it. -/
def filledText? (value : Json) (field : Field) : Option String :=
  (value.text? field).filter fun s => !Text.blank s

/-- The value of a field is smaller than the object. -/
theorem sizeOf_field?_lt {value found : Json} {field : Field}
    (h : value.field? field = some found) : sizeOf found < sizeOf value := by
  simp only [field?, spelling?, Option.map_eq_some_iff] at h
  obtain ⟨⟨name, v⟩, h, rfl⟩ := h
  obtain ⟨spelling, -, h⟩ := List.exists_of_findSome?_eq_some h
  simp only [Option.map_eq_some_iff, Prod.mk.injEq] at h
  obtain ⟨w, hw, -, rfl⟩ := h
  exact sizeOf_get?_lt hw

end Json

/-! ## Parts of a document

A part is a value together with its path, so that what is found in the value can be shown in the
text. -/

/-- A value and the path that leads to it. -/
structure Part where
  path : Path
  value : Json
deriving Inhabited

namespace Part

/-- A whole document. -/
def root (value : Json) : Part := ⟨[], value⟩

/-- The part under a field, by the spelling used. -/
def field? (part : Part) (field : Field) : Option Part :=
  (part.value.spelling? field).map fun (name, found) => ⟨part.path ++ [.name name], found⟩

/-- The elements of an array. -/
def items? (part : Part) : Option (List Part) :=
  part.value.items?.map fun items =>
    items.mapIdx fun index item => ⟨part.path ++ [.index index], item⟩

/-- The elements of an array, and nothing for any other part. -/
def items (part : Part) : List Part := part.items?.getD []

/-- The members of an object. -/
def members? (part : Part) : Option (List (String × Part)) :=
  part.value.members?.map fun members =>
    members.map fun (name, found) => (name, ⟨part.path ++ [.name name], found⟩)

/-- The part that holds the properties of a resource: its `properties` object, or the whole document
where there is no such object. -/
def properties (value : Json) : Part :=
  match (root value).field? .properties with
  | some part => if part.value.isObject then part else root value
  | none => root value

theorem field?_value {part found : Part} {field : Field}
    (h : part.field? field = some found) : part.value.field? field = some found.value := by
  simp only [field?, Option.map_eq_some_iff] at h
  obtain ⟨⟨name, v⟩, h, rfl⟩ := h
  simp [Json.field?, h]

theorem field?_value_eq_none {part : Part} {field : Field} (h : part.field? field = none) :
    part.value.field? field = none := by
  rw [Json.field?, Option.map_eq_none_iff.mp h, Option.map_none]

/-- The elements of a part are smaller than the part. -/
theorem sizeOf_items_lt {part item : Part} (h : item ∈ part.items) :
    sizeOf item.value < sizeOf part.value := by
  simp only [items, items?, Json.items?] at h
  split at h
  · rename_i values hv
    simp only [Option.map_some, Option.getD_some, List.mem_mapIdx] at h
    obtain ⟨i, hi, rfl⟩ := h
    have := List.sizeOf_lt_of_mem (List.getElem_mem hi)
    simp only [hv]; simp; omega
  · simp at h

end Part

namespace Json

/-- The metadata of a resource, from its properties or else from the document itself. -/
def metadata? (value : Json) : Option Json :=
  ((Part.properties value).value.field? .metadata).or (value.field? .metadata)

end Json

end PolicyAudit
