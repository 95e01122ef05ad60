-- SUMMARY: Structural schemas.
import PolicyAudit.Address.Basic
import PolicyAudit.Json.Value

/-! ## Schemas

A schema is a list of conditions on a value, or a reference to another schema, or one of the two
schemas that allow everything and nothing. Its conditions stand in the order of their keywords. -/

namespace PolicyAudit

/-- The types that a schema tells apart. An integer is a number without a fractional part. -/
inductive JsonType where
  | array | boolean | integer | null | number | object | string
deriving DecidableEq, Repr

namespace JsonType

/-- All types in the order of their labels. -/
def all : List JsonType := [array, boolean, integer, null, number, object, string]

/-- The word for a type. -/
def label : JsonType → String
  | array => "array"
  | boolean => "boolean"
  | integer => "integer"
  | null => "null"
  | number => "number"
  | object => "object"
  | string => "string"

/-- The type that a word stands for. -/
def ofLabel? (word : String) : Option JsonType := all.find? (·.label = word)

/-- Whether a value is of a type. -/
def admits : JsonType → Json → Bool
  | array, .array _ => true
  | boolean, .bool _ => true
  | integer, .number (.int _) => true
  | integer, .number (.float x) => x.floor == x
  | null, .null => true
  | number, .number _ => true
  | object, .object _ => true
  | string, .string _ => true
  | _, _ => false

end JsonType

/-- The forms that a schema may ask of a text. -/
inductive TextFormat where
  /-- An absolute address. -/
  | address
  /-- An address, absolute or relative. -/
  | reference
deriving DecidableEq, Repr

namespace TextFormat

/-- The word for a form. -/
def label : TextFormat → String
  | address => "uri"
  | reference => "uri-reference"

/-- The form that a word stands for. -/
def ofLabel? (word : String) : Option TextFormat := [address, reference].find? (·.label = word)

/-- Whether a text has a form. -/
def admits : TextFormat → String → Bool
  | address, text => Address.isAbsolute text
  | reference, text => Address.isReference text

end TextFormat

/-- A reference to a schema: its text, and the address that it starts from. -/
structure SchemaRef where
  base : Address
  text : String
deriving DecidableEq, Repr

/-- A condition of a schema, over a type of schemas. -/
inductive Keyword (σ : Type) where
  /-- Members that are not among the listed ones satisfy `others`, and the listed ones their own
  schemas. -/
  | additional (listed : List (String × σ)) (others : σ)
  /-- There are no members but the listed ones, which satisfy their own schemas. -/
  | closed (listed : List (String × σ))
  /-- There are no members. -/
  | noMembers
  | allOf (schemas : List σ)
  | anyOf (schemas : List σ)
  | enumeration (options : List Json)
  | format (format : TextFormat)
  | items (each : σ)
  | tuple (schemas : List σ)
  | maxLength (limit : Nat)
  | minItems (limit : Nat)
  | minLength (limit : Nat)
  | minimum (limit : Number)
  | exclusiveMinimum (limit : Number)
  | oneOf (schemas : List σ)
  | properties (members : List (String × σ))
  | required (names : List String)
  | type (types : List JsonType)
  | uniqueItems
deriving Repr

/-- A structural schema. -/
inductive Schema where
  | constant (allows : Bool)
  | reference (target : SchemaRef)
  | conditions (keywords : List (Keyword Schema))
deriving Repr

namespace Schema

/-- The schema that allows every value. -/
def permissive : Schema := .conditions []

/-! ## References -/

mutual

/-- The references in a schema. -/
def references : Schema → List SchemaRef
  | .constant _ => []
  | .reference target => [target]
  | .conditions keywords => keywordReferences keywords

/-- The references in a list of conditions. -/
def keywordReferences : List (Keyword Schema) → List SchemaRef
  | [] => []
  | .additional listed others :: rest =>
    memberReferences listed ++ others.references ++ keywordReferences rest
  | .allOf schemas :: rest | .anyOf schemas :: rest | .oneOf schemas :: rest
  | .tuple schemas :: rest => itemReferences schemas ++ keywordReferences rest
  | .items each :: rest => each.references ++ keywordReferences rest
  | .closed members :: rest | .properties members :: rest =>
    memberReferences members ++ keywordReferences rest
  | .noMembers :: rest | .enumeration _ :: rest | .format _ :: rest | .maxLength _ :: rest
  | .minItems _ :: rest | .minLength _ :: rest | .minimum _ :: rest | .exclusiveMinimum _ :: rest
  | .required _ :: rest | .type _ :: rest | .uniqueItems :: rest => keywordReferences rest

/-- The references in a list of schemas. -/
def itemReferences : List Schema → List SchemaRef
  | [] => []
  | schema :: rest => schema.references ++ itemReferences rest

/-- The references in a table of schemas. -/
def memberReferences : List (String × Schema) → List SchemaRef
  | [] => []
  | (_, schema) :: rest => schema.references ++ memberReferences rest

end

mutual

/-- The number of schemas in a schema, itself included. -/
def size : Schema → Nat
  | .constant _ | .reference _ => 1
  | .conditions keywords => 1 + keywordSize keywords

/-- The number of schemas in a list of conditions. -/
def keywordSize : List (Keyword Schema) → Nat
  | [] => 0
  | .additional listed others :: rest => memberSize listed + others.size + keywordSize rest
  | .allOf schemas :: rest | .anyOf schemas :: rest | .oneOf schemas :: rest
  | .tuple schemas :: rest => itemSize schemas + keywordSize rest
  | .items each :: rest => each.size + keywordSize rest
  | .closed members :: rest | .properties members :: rest => memberSize members + keywordSize rest
  | .noMembers :: rest | .enumeration _ :: rest | .format _ :: rest | .maxLength _ :: rest
  | .minItems _ :: rest | .minLength _ :: rest | .minimum _ :: rest | .exclusiveMinimum _ :: rest
  | .required _ :: rest | .type _ :: rest | .uniqueItems :: rest => keywordSize rest

/-- The number of schemas in a list of schemas. -/
def itemSize : List Schema → Nat
  | [] => 0
  | schema :: rest => schema.size + itemSize rest

/-- The number of schemas in a table of schemas. -/
def memberSize : List (String × Schema) → Nat
  | [] => 0
  | (_, schema) :: rest => schema.size + memberSize rest

end

end Schema

end PolicyAudit
