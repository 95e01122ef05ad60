-- SUMMARY: How a value can violate a schema, and finding every violation.
import PolicyAudit.Json.Printer
import PolicyAudit.Schema.Basic

/-! ## Violations -/

namespace PolicyAudit

/-- Why a value does not satisfy a condition. -/
inductive ViolationCause where
  | wrongType (value : Json) (types : List JsonType)
  | missing (name : String)
  | notListed (value : Json) (options : List Json)
  | tooShort (value : Json) (limit : Nat)
  | tooLong (value : Json) (limit : Nat)
  | noAlternative (value : Json)
  | severalAlternatives (value : Json)
  | noOption (value : Json)
  | forbidden (value : Json)
  /-- Members that a closed object does not list. -/
  | unexpected (names : List String)
  | tooFew (value : Json) (limit : Nat)
  | repeated (value : Json)
  | tooSmall (value : Json) (limit : Number)
  | notGreater (value : Json) (limit : Number)
  | misformatted (value : Json) (format : TextFormat)
deriving Repr

namespace ViolationCause

/-- A number of things in words. -/
private def counted (n : Nat) (thing : String) : String :=
  if n = 1 then s!"1 {thing}" else s!"{n} {thing}s"

/-- A text in quotation marks, as it is. -/
private def marked (s : String) : String := "\"" ++ s ++ "\""

/-- The types that a value should have one of, in words. -/
private def namedTypes : List JsonType → String
  | [type] => "type " ++ marked type.label
  | types =>
    let types := JsonType.all.filter (· ∈ types)
    "types " ++ ", ".intercalate (types.map fun type => marked type.label)

/-- The message for a cause. Values are shown in their compact form. -/
def message : ViolationCause → String
  | wrongType value types => value.render ++ " is not of " ++ namedTypes types
  | missing name => s!"{String.ofList (Quoted.render name)} is a required property"
  | notListed value options => s!"{value.render} is not one of {(Json.array options).render}"
  | tooShort value limit => value.render ++ " is shorter than " ++ counted limit "character"
  | tooLong value limit => value.render ++ " is longer than " ++ counted limit "character"
  | noAlternative value =>
    value.render ++ " is not valid under any of the schemas listed in the 'oneOf' keyword"
  | severalAlternatives value =>
    value.render ++ " is valid under more than one of the schemas listed in the 'oneOf' keyword"
  | noOption value =>
    value.render ++ " is not valid under any of the schemas listed in the 'anyOf' keyword"
  | forbidden value => "False schema does not allow " ++ value.render
  | unexpected names =>
    let words := ", ".intercalate (names.map fun name => s!"'{name}'")
    let verb := if names.length = 1 then "was" else "were"
    s!"Additional properties are not allowed ({words} {verb} unexpected)"
  | tooFew value limit => value.render ++ " has less than " ++ counted limit "item"
  | repeated value => s!"{value.render} has non-unique elements"
  | tooSmall value limit => s!"{value.render} is less than the minimum of {String.ofList limit.render}"
  | notGreater value limit =>
    s!"{value.render} is less than or equal to the minimum of {String.ofList limit.render}"
  | misformatted value format => s!"{value.render} is not a {marked format.label}"

end ViolationCause

/-- A condition that a part of a value does not satisfy. -/
structure Violation where
  /-- The path of the part in the value. -/
  path : Path
  /-- The path of the keyword in the schema, through references. -/
  keywordPath : Path
  cause : ViolationCause
deriving Repr

/-! ## Equality of values

Two numbers are equal when they are the same number, whichever way they are kept. -/

namespace Number

/-- Whether two numbers are the same. -/
def same : Number → Number → Bool
  | .int a, .int b => a == b
  | .float a, .float b => a == b
  | .int a, .float b | .float b, .int a =>
    let whole : Int := if b < 0 then -((-b).toUInt64.toNat : Int) else b.toUInt64.toNat
    b.floor == b && b.abs < Float.ofNat 0x10000000000000000 && whole == a

/-- Whether a number is less than another. -/
def less : Number → Number → Bool
  | .int a, .int b => a < b
  | .float a, .float b => a < b
  | .int a, .float b => Float.ofInt a < b
  | .float a, .int b => a < Float.ofInt b

end Number

namespace Json

/-- Whether two scalars are equal. -/
def sameScalar : Scalar → Scalar → Bool
  | .null, .null => true
  | .bool a, .bool b => a == b
  | .number a, .number b => a.same b
  | .string a, .string b => a == b
  | _, _ => false

mutual

/-- Whether two values are equal. -/
def same : Json → Json → Bool
  | .scalar a, .scalar b => sameScalar a b
  | .array a, .array b => sameItems a b
  | .object a, .object b => sameMembers a b
  | _, _ => false

/-- Whether two lists have equal elements. -/
def sameItems : List Json → List Json → Bool
  | [], [] => true
  | a :: as, b :: bs => same a b && sameItems as bs
  | _, _ => false

/-- Whether two objects have equal members. -/
def sameMembers : List (String × Json) → List (String × Json) → Bool
  | [], [] => true
  | (name, a) :: as, (name', b) :: bs => name == name' && same a b && sameMembers as bs
  | _, _ => false

end

/-- Whether no two elements are equal. -/
def allDistinct : List Json → Bool
  | [] => true
  | item :: rest => !rest.any item.same && allDistinct rest

mutual

/-- The number of containers on the deepest way into a value. -/
def depth : Json → Nat
  | .scalar _ => 0
  | .array items => 1 + itemsDepth items
  | .object members => 1 + membersDepth members

/-- The greatest depth of the elements. -/
def itemsDepth : List Json → Nat
  | [] => 0
  | item :: rest => max (depth item) (itemsDepth rest)

/-- The greatest depth of the members. -/
def membersDepth : List (String × Json) → Nat
  | [] => 0
  | (_, value) :: rest => max (depth value) (membersDepth rest)

end

end Json

/-! ## Checking

The schemas that references lead to stand in a table. A check goes down into the schema, into the
value, or along a reference, and may take a limited number of such steps, which `Schema.check`
chooses large enough for every schema whose references do not chase each other. -/

namespace Schema

/-- The schemas that references lead to. -/
abbrev Targets : Type := List (SchemaRef × Schema)

/-- The schema that a reference leads to. -/
def Targets.find? (targets : Targets) (ref : SchemaRef) : Option Schema :=
  (targets.lookup ref)

/-- The place that a check has come to. -/
structure Place where
  path : Path
  keywordPath : Path

namespace Place

def into (place : Place) (key : Key) : Place := { place with path := place.path ++ [key] }

def under (place : Place) (keyword : String) : Place :=
  { place with keywordPath := place.keywordPath ++ [.name keyword] }

def at? (place : Place) (index : Nat) : Place :=
  { place with keywordPath := place.keywordPath ++ [.index index] }

def violation (place : Place) (cause : ViolationCause) : Violation :=
  ⟨place.path, place.keywordPath, cause⟩

end Place

/-- The violations of a condition, given how to find those of a schema. -/
def checkKeyword (check : Schema → Place → Json → List Violation) (place : Place) (value : Json) :
    Keyword Schema → List Violation
  | .additional listed others =>
    (value.members?.getD []).flatMap fun (name, member) =>
      let place := place.into (.name name)
      match Keyed.find? name listed with
      | some schema => check schema ((place.under "properties").under name) member
      | none => check others (place.under "additionalProperties") member
  | .closed listed =>
    let members := value.members?.getD []
    let strangers := members.filter fun (name, _) => (Keyed.find? name listed).isNone
    (members.flatMap fun (name, member) =>
      match Keyed.find? name listed with
      | some schema =>
        check schema (((place.into (.name name)).under "properties").under name) member
      | none => []) ++
    (if strangers.isEmpty then []
      else [(place.under "additionalProperties").violation (.unexpected (strangers.map (·.1)))])
  | .noMembers =>
    match value.members? with
    | some ((_, member) :: _) =>
      [(place.under "additionalProperties").violation (.forbidden member)]
    | _ => []
  | .allOf schemas =>
    (schemas.mapIdx fun i schema => check schema ((place.under "allOf").at? i) value).flatten
  | .anyOf schemas =>
    let place := place.under "anyOf"
    if schemas.any fun schema => (check schema place value).isEmpty then []
    else [place.violation (.noOption value)]
  | .enumeration options =>
    if options.any value.same then []
    else [(place.under "enum").violation (.notListed value options)]
  | .format format =>
    match value.string? with
    | some text =>
      if format.admits text then []
      else [(place.under "format").violation (.misformatted value format)]
    | none => []
  | .items each =>
    ((value.items?.getD []).mapIdx fun i item =>
      check each ((place.into (.index i)).under "items") item).flatten
  | .tuple schemas =>
    ((schemas.zip (value.items?.getD [])).mapIdx fun i (schema, item) =>
      check schema (((place.into (.index i)).under "items").at? i) item).flatten
  | .maxLength limit =>
    match value.string? with
    | some text =>
      if limit < text.length then [(place.under "maxLength").violation (.tooLong value limit)]
      else []
    | none => []
  | .minItems limit =>
    match value.items? with
    | some items =>
      if items.length < limit then [(place.under "minItems").violation (.tooFew value limit)]
      else []
    | none => []
  | .minLength limit =>
    match value.string? with
    | some text =>
      if text.length < limit then [(place.under "minLength").violation (.tooShort value limit)]
      else []
    | none => []
  | .minimum limit =>
    match value with
    | .number x =>
      if x.less limit then [(place.under "minimum").violation (.tooSmall value limit)] else []
    | _ => []
  | .exclusiveMinimum limit =>
    match value with
    | .number x =>
      if limit.less x then []
      else [(place.under "exclusiveMinimum").violation (.notGreater value limit)]
    | _ => []
  | .oneOf schemas =>
    let place := place.under "oneOf"
    let satisfied := schemas.filter fun schema => (check schema place value).isEmpty
    match satisfied with
    | [] => [place.violation (.noAlternative value)]
    | [_] => []
    | _ => [place.violation (.severalAlternatives value)]
  | .properties members =>
    members.flatMap fun (name, schema) =>
      match value.get? name with
      | some member =>
        check schema (((place.into (.name name)).under "properties").under name) member
      | none => []
  | .required names =>
    match value.members? with
    | some members =>
      names.filterMap fun name =>
        match Keyed.find? name members with
        | some _ => none
        | none => some ((place.under "required").violation (.missing name))
    | none => []
  | .type types =>
    if types.any (·.admits value) then []
    else [(place.under "type").violation (.wrongType value types)]
  | .uniqueItems =>
    match value.items? with
    | some items =>
      if Json.allDistinct items then [] else [(place.under "uniqueItems").violation (.repeated value)]
    | none => []

/-- The violations of a schema within a number of steps. -/
def checkWithin (targets : Targets) : (steps : Nat) → Schema → Place → Json → List Violation
  | 0, _, _, _ => []
  | _ + 1, .constant true, _, _ => []
  | _ + 1, .constant false, place, value => [place.violation (.forbidden value)]
  | steps + 1, .reference target, place, value =>
    match targets.find? target with
    | some schema => checkWithin targets steps schema (place.under "$ref") value
    | none => []
  | steps + 1, .conditions keywords, place, value =>
    keywords.flatMap (checkKeyword (checkWithin targets steps) place value)

/-- The violations of a schema, keyword by keyword. -/
def check (targets : Targets) (schema : Schema) (value : Json) : List Violation :=
  let schemas := targets.foldl (fun size (_, target) => size + target.size) schema.size
  checkWithin targets ((value.depth + 1) * (schemas + 1)) schema ⟨[], []⟩ value

end Schema

end PolicyAudit
