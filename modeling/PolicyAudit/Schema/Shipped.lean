-- SUMMARY: The schemas of the three kinds of documents.
import PolicyAudit.Json.Printer
import PolicyAudit.Policy.Kind

/-! ## Building blocks -/

namespace PolicyAudit.Shipped

/-- A schema for values of a type, with more keywords. -/
private def typed (type : String) (more : List (String × Json)) : Json :=
  .ofMembers (("type", .string type) :: more)

/-- Any text. -/
private def text : Json := typed "string" []

/-- A text of `least` characters or more. -/
private def longText (least : Nat) : Json := typed "string" [("minLength", .nat least)]

/-- A text of `greatest` characters or fewer. -/
private def shortText (greatest : Nat) : Json := typed "string" [("maxLength", .nat greatest)]

/-- Any object. -/
private def object : Json := typed "object" []

/-- An object whose members satisfy schemas of their own. -/
private def objectOf (members : List (String × Json)) : Json :=
  typed "object" [("properties", .ofMembers members)]

/-- Such an object that must have some of its members. -/
private def objectWith (required : List String) (members : List (String × Json)) : Json :=
  typed "object" [("properties", .ofMembers members), ("required", .array (required.map .string))]

/-- An array whose elements satisfy a schema. -/
private def arrayOf (items : Json) : Json := typed "array" [("items", items)]

/-- The schema that is defined under a name. -/
private def defined (name : String) : Json :=
  .ofMembers [("$ref", .string s!"#/definitions/{name}")]

/-- One of some texts. -/
private def oneOfTexts (options : List String) : Json :=
  typed "string" [("enum", .array (options.map .string))]

/-- A schema document with an id and a title. -/
private def document (file title : String) (members : List (String × Json)) : Json :=
  .ofMembers <|
    [("$schema", .string "http://json-schema.org/draft-07/schema#"),
      ("$id", .string <|
        "https://raw.githubusercontent.com/Azure/enterprise-azure-policy-as-code/main/Schemas/"
          ++ file),
      ("title", .string title)] ++ members

/-! ## The schemas -/

/-- The schema of definitions. -/
def definition : Json :=
  document "policy-definition-schema.json" "Policy definition"
    [("type", .string "object"),
      ("required", .array [.string "name", .string "properties"]),
      ("properties", .ofMembers
        [("$schema", text),
          ("name", typed "string" [("minLength", .nat 1), ("maxLength", .nat 64)]),
          ("type", text),
          ("properties", objectOf
            [("displayName", shortText 128),
              ("description", text),
              ("mode", text),
              ("version", text),
              ("metadata", object),
              ("parameters", typed "object" [("additionalProperties", defined "parameter")]),
              ("policyRule", objectWith ["if", "then"]
                [("if", object),
                  ("then", objectWith ["effect"] [("effect", text), ("details", .object [])])])])]),
      ("definitions", .ofMembers
        [("parameter", objectWith ["type"]
          [("type", oneOfTexts
              ["String", "Array", "Object", "Boolean", "Integer", "Float", "DateTime"]),
            ("metadata", object),
            ("allowedValues", typed "array" []),
            ("defaultValue", .object [])])])]

/-- The schema of collections. -/
def collection : Json :=
  document "policy-set-definition-schema.json" "Policy set definition"
    [("type", .string "object"),
      ("required", .array [.string "name", .string "properties"]),
      ("properties", .ofMembers
        [("$schema", text),
          ("name", typed "string" [("minLength", .nat 1), ("maxLength", .nat 64)]),
          ("type", text),
          ("properties", objectOf
            [("displayName", shortText 128),
              ("description", text),
              ("metadata", object),
              ("parameters", object),
              ("policyDefinitionGroups", arrayOf object),
              ("policyDefinitions", arrayOf (defined "reference"))])]),
      ("definitions", .ofMembers
        [("reference", objectOf
          [("policyDefinitionReferenceId", text),
            ("policyDefinitionId", text),
            ("policyDefinitionName", text),
            ("parameters", object),
            ("groupNames", arrayOf text)])])]

/-- The schema of trees of assignments. -/
def assignment : Json :=
  document "policy-assignment-schema.json" "Policy assignment tree"
    [("allOf", .array [defined "node"]),
      ("definitions", .ofMembers
        [("node", objectWith ["nodeName"]
            [("$schema", text),
              ("nodeName", longText 1),
              ("assignment", defined "assignment"),
              ("definitionEntry", defined "definitionEntry"),
              ("definitionEntryList", arrayOf (defined "definitionEntry")),
              ("scope", defined "scopeMap"),
              ("notScope", defined "scopeMap"),
              ("parameters", object),
              ("enforcementMode", oneOfTexts ["Default", "DoNotEnforce"]),
              ("children", arrayOf (defined "node"))]),
          ("assignment", objectOf
            [("name", longText 1), ("displayName", text), ("description", text)]),
          ("definitionEntry", objectOf
            [("policyId", text),
              ("policyName", text),
              ("policySetId", text),
              ("policySetName", text),
              ("displayName", text),
              ("assignment", defined "assignment")]),
          ("scopeMap", typed "object"
            [("additionalProperties", .ofMembers
              [("oneOf", .array [text, arrayOf text])])])])]

/-- The schema of a kind. -/
def schema : Kind → Json
  | .definition => definition
  | .collection => collection
  | .assignment => assignment

/-- The texts of the schemas by id. -/
def folder : Keyed String :=
  Kind.all.foldl (fun acc kind => Keyed.insert kind.schemaId (schema kind).render acc) []

end PolicyAudit.Shipped
