-- SUMMARY: Reading schemas from JSON.
import PolicyAudit.Schema.Catalog

/-! ## Keywords

Reading takes the keywords it knows and fails where one of them has a value that it cannot have. The others ask for
nothing here. Of the keywords of the language these are `const`, `not`, `if`, `then`, `else`, `pattern`,
`patternProperties`, `propertyNames`, `contains`, `additionalItems`, `dependencies`, `multipleOf`, `maximum`,
`exclusiveMaximum`, `maxItems`, `minProperties` and `maxProperties`, and all formats but those of addresses. -/

namespace PolicyAudit.Schema

/-- The limit that a number sets: a natural number, written with or without a zero fraction, and zero
for a negative one. -/
def limit? : Json → Option Nat
  | .number (.int n) => some n.toNat
  | .number (.float x) => if x.floor == x then some x.toUInt64.toNat else none
  | _ => none

/-- The types that a type keyword names. -/
def types? : Json → Option (List JsonType)
  | .string word => (JsonType.ofLabel? word).map ([·])
  | .array words => words.mapM fun word => word.string?.bind JsonType.ofLabel?
  | _ => none

/-- A number. -/
def number? : Json → Option Number
  | .number x => some x
  | _ => none

/-- The conditions of a keyword whose value holds no schema. -/
def plainKeyword? (name : String) (value : Json) : Option (List (Keyword Schema)) :=
  if name = "enum" then value.items?.map fun options => [.enumeration options]
  else if name = "exclusiveMinimum" then (number? value).map fun limit => [.exclusiveMinimum limit]
  else if name = "format" then
    value.string?.map fun word => ((TextFormat.ofLabel? word).map .format).toList
  else if name = "maxLength" then (limit? value).map fun limit => [.maxLength limit]
  else if name = "minItems" then (limit? value).map fun limit => [.minItems limit]
  else if name = "minLength" then (limit? value).map fun limit => [.minLength limit]
  else if name = "minimum" then (number? value).map fun limit => [.minimum limit]
  else if name = "required" then
    (value.items?.bind fun names => names.mapM Json.string?).map fun names => [.required names]
  else if name = "type" then (types? value).map fun types => [.type types]
  else if name = "uniqueItems" then some (if value.bool? = some true then [.uniqueItems] else [])
  else some []

/-- Whether the keyword for other members takes over the listed ones. -/
def takesOverMembers (members : List (String × Json)) : Bool :=
  match Keyed.find? "additionalProperties" members with
  | some (.object _) | some (.bool false) => true
  | _ => false

/-! ## Schemas -/

/-- The schema of an object with the given members: a reference, or else their conditions. A reference
hides the keywords beside it. -/
def ofMembers? (base : Address) (members : List (String × Json))
    (conditions? : Option (List (Keyword Schema))) : Option Schema :=
  match Keyed.find? "$ref" members with
  | some (.string text) => some (.reference ⟨base, text⟩)
  | some _ => none
  | none => conditions?.map .conditions

mutual

/-- The schema that a value inside a schema describes, where `base` is the base of that schema. -/
def readInner? (base : Address) : Json → Option Schema
  | .bool allows => some (.constant allows)
  | .object members =>
    match Catalog.enter base (.object members) with
    | .ok base => ofMembers? base members (keywords? base members (listed? base members) members)
    | .error _ => none
  | _ => none

/-- The schemas of the elements of an array. -/
def readElements? (base : Address) : Json → Option (List Schema)
  | .array items => readItems? base items
  | _ => none

/-- The schemas of the members of an object. -/
def readEntries? (base : Address) : Json → Option (List (String × Schema))
  | .object members => readMembers? base members
  | _ => none

/-- The schemas of a list. -/
def readItems? (base : Address) : List Json → Option (List Schema)
  | [] => some []
  | item :: rest => do return (← readInner? base item) :: (← readItems? base rest)

/-- The schemas of the entries of a list. -/
def readMembers? (base : Address) : List (String × Json) → Option (List (String × Schema))
  | [] => some []
  | (name, value) :: rest => do
    return (name, ← readInner? base value) :: (← readMembers? base rest)

/-- The schemas of the members that a schema lists, if it does. -/
def listed? (base : Address) : List (String × Json) → Option (Option (List (String × Schema)))
  | [] => some none
  | (name, value) :: rest =>
    if name = "properties" then (readEntries? base value).map some else listed? base rest

/-- The conditions of a schema's keywords, in their order. -/
def keywords? (base : Address) (all : List (String × Json))
    (listed? : Option (Option (List (String × Schema)))) :
    List (String × Json) → Option (List (Keyword Schema))
  | [] => some []
  | (name, value) :: rest => do
    let here : List (Keyword Schema) ←
      if name = "additionalProperties" then
        if value.bool? = some true then some []
        else if value.bool? = some false then
          listed?.map fun
            | some listed => [.closed listed]
            | none => [.noMembers]
        else do
          let others ← readInner? base value
          let listed ← listed?
          some [.additional (listed.getD []) others]
      else if name = "allOf" then (readElements? base value).map fun schemas => [.allOf schemas]
      else if name = "anyOf" then (readElements? base value).map fun schemas => [.anyOf schemas]
      else if name = "items" then
        if value.isArray then (readElements? base value).map fun schemas => [.tuple schemas]
        else if value.isObject || value.bool? = some false then
          (readInner? base value).map fun each => [.items each]
        else some []
      else if name = "oneOf" then (readElements? base value).map fun schemas => [.oneOf schemas]
      else if name = "properties" then
        if takesOverMembers all then some []
        else (readEntries? base value).map fun members => [.properties members]
      else plainKeyword? name value
    return here ++ (← keywords? base all listed? rest)

end

/-- The schema that a value describes, where references start from `base`. -/
def read? (base : Address) : Json → Option Schema
  | .bool allows => some (.constant allows)
  | .object members =>
    ofMembers? base members (keywords? base members (listed? base members) members)
  | _ => none

end PolicyAudit.Schema
