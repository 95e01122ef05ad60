-- SUMMARY: The schema of the schema language.
import PolicyAudit.Address.Basic
import PolicyAudit.Json.Value

/-! ## The schema language

The language of schemas has a schema of its own, which says what value each keyword may have, in the
language itself. -/

namespace PolicyAudit.Language

/-- A reference inside the document. -/
private def see (place : String) : Json := .object [("$ref", .string place)]

/-- Any schema. -/
private def schema : Json := see "#"

/-- A natural number. -/
private def natural : Json := see "#/definitions/nonNegativeInteger"

/-- A natural number, zero unless it is given. -/
private def naturalOrZero : Json := see "#/definitions/nonNegativeIntegerDefault0"

/-- A list of schemas, one at least. -/
private def schemas : Json := see "#/definitions/schemaArray"

/-- One of the words for types. -/
private def typeWord : Json := see "#/definitions/simpleTypes"

/-- A list of texts. -/
private def texts : Json := see "#/definitions/stringArray"

/-- Any text. -/
private def text : Json := .object [("type", .string "string")]

/-- A text of some form. -/
private def textOf (format : String) : Json :=
  .object [("format", .string format), ("type", .string "string")]

/-- Any number. -/
private def number : Json := .object [("type", .string "number")]

/-- A truth value, false unless it is given. -/
private def flag : Json := .object [("default", .bool false), ("type", .string "boolean")]

/-- Any array. -/
private def list : Json := .object [("items", .bool true), ("type", .string "array")]

/-- An object of schemas. -/
private def table : Json :=
  .object [("additionalProperties", schema), ("default", .object []), ("type", .string "object")]

/-- The definitions. -/
private def definitions : Json :=
  .object
    [("nonNegativeInteger", .object [("minimum", .nat 0), ("type", .string "integer")]),
      ("nonNegativeIntegerDefault0",
        .object [("allOf", .array [natural, .object [("default", .nat 0)]])]),
      ("schemaArray",
        .object [("items", schema), ("minItems", .nat 1), ("type", .string "array")]),
      ("simpleTypes", .object
        [("enum", .array [.string "array", .string "boolean", .string "integer", .string "null",
          .string "number", .string "object", .string "string"])]),
      ("stringArray", .object
        [("default", .array []), ("items", text), ("type", .string "array"),
          ("uniqueItems", .bool true)])]

/-- The schemas of keyword values. -/
private def keywords : Json :=
  .object
    [("$comment", text), ("$id", textOf "uri-reference"), ("$ref", textOf "uri-reference"),
      ("$schema", textOf "uri"), ("additionalItems", schema), ("additionalProperties", schema),
      ("allOf", schemas), ("anyOf", schemas), ("const", .bool true), ("contains", schema),
      ("contentEncoding", text), ("contentMediaType", text), ("default", .bool true),
      ("definitions", table),
      ("dependencies", .object
        [("additionalProperties", .object [("anyOf", .array [schema, texts])]),
          ("type", .string "object")]),
      ("description", text), ("else", schema), ("enum", list), ("examples", list),
      ("exclusiveMaximum", number), ("exclusiveMinimum", number), ("format", text),
      ("if", schema),
      ("items", .object [("anyOf", .array [schema, schemas]), ("default", .bool true)]),
      ("maxItems", natural), ("maxLength", natural), ("maxProperties", natural),
      ("maximum", number), ("minItems", naturalOrZero), ("minLength", naturalOrZero),
      ("minProperties", naturalOrZero), ("minimum", number),
      ("multipleOf", .object [("exclusiveMinimum", .nat 0), ("type", .string "number")]),
      ("not", schema), ("oneOf", schemas), ("pattern", textOf "regex"),
      ("patternProperties", .object
        [("additionalProperties", schema), ("default", .object []),
          ("propertyNames", .object [("format", .string "regex")]), ("type", .string "object")]),
      ("properties", table), ("propertyNames", schema), ("readOnly", flag), ("required", texts),
      ("then", schema), ("title", text),
      ("type", .object
        [("anyOf", .array
          [typeWord,
            .object [("items", typeWord), ("minItems", .nat 1), ("type", .string "array"),
              ("uniqueItems", .bool true)]])]),
      ("uniqueItems", flag)]

/-- Where the schema of the language is published. -/
def address : Address :=
  ⟨some "http".toList, some ⟨none, "json-schema.org".toList, none⟩, "/draft-07/schema".toList, none,
    none⟩

/-- The schema of the language. -/
def document : Json :=
  .object
    [("$id", .string "http://json-schema.org/draft-07/schema#"),
      ("$schema", .string "http://json-schema.org/draft-07/schema#"), ("default", .bool true),
      ("definitions", definitions), ("properties", keywords),
      ("title", .string "Core schema meta-schema"),
      ("type", .array [.string "object", .string "boolean"])]

end PolicyAudit.Language
