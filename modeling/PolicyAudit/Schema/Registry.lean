-- SUMMARY: The registry of schemas: addresses, loading, compiling and checking.
import PolicyAudit.Error
import PolicyAudit.Json.Reader
import PolicyAudit.Policy.Kind
import PolicyAudit.Schema.Compiled
import PolicyAudit.Text.Word

/-! ## Schema addresses -/

namespace PolicyAudit

/-- A schema document under its id. -/
structure LoadedSchema where
  id : String
  document : Json
  /-- The document stands in for one that could not be read. -/
  isFallback : Bool
deriving Repr

/-- A violation as it is reported: where in the value, by which keyword, and what it is. -/
structure Discrepancy where
  /-- The pointer into the value. -/
  path : String
  /-- The pointer into the schema. -/
  schemaPath : String
  message : String
deriving DecidableEq, Repr

/-- The outcome of checking a value. -/
structure StructureReport where
  schemaId : String
  errors : List Discrepancy
  /-- The schema that stands in for an unreadable one was used. -/
  isFallback : Bool
deriving Repr

/-- A value is valid when nothing is reported. -/
def StructureReport.valid (report : StructureReport) : Bool := report.errors.isEmpty

namespace Discrepancy

def ofViolation (v : Violation) : Discrepancy :=
  ⟨Pointer.write v.path, Pointer.write v.keywordPath, v.cause.message⟩

/-- The keyword that a value fails: the last token of the schema path that is not a position. -/
def keyword? (d : Discrepancy) : Option String :=
  ((Text.pieces '/' d.schemaPath.toList).reverse.find? fun token =>
    !token.isEmpty && (Pointer.position? token).isNone).map String.ofList

/-! ## Missing schema languages

A message that says that the language of a schema is unknown is about the schema and not about the
value. Such a message has one of a few verbs, and later on the same line one of a few nouns. -/

/-- What says that something was not found. -/
def unknownWords : List String :=
  ["unknown", "unresolvable", "unrecognized", "failed to resolve"]

/-- What the language of a schema is called. -/
def languageWords : Text.Pattern :=
  [["meta-schema", "metaschema", "specification", "$schema"]]

/-- Whether a text does not go on with a word character. -/
def endsWord : List Char → Bool
  | [] => true
  | c :: _ => !Text.isWordChar c

/-- Whether a text starts with a verb, as a whole word's end, with a noun later on the line. -/
def startsUnknownLanguage (text : List Char) : Bool :=
  unknownWords.any fun word =>
    match Text.stripWord? word.toList text with
    | some rest => endsWord rest && languageWords.occursOnLine rest
    | none => false

/-- Whether a text has a verb with a noun later on the line. -/
def mentionsUnknownLanguage : List Char → Bool
  | [] => false
  | c :: text => startsUnknownLanguage (c :: text) || mentionsUnknownLanguage text

/-- Whether a message says that the language of a schema is unknown. -/
def isUnknownLanguage (message : String) : Bool := mentionsUnknownLanguage message.toList

end Discrepancy

/-! ## The registry -/

/-- An order to go through the schemas read. Their table has none of its own: it may be another one in
every registry, and a registry may change it with each schema that it reads. -/
structure Listing where
  list : Keyed LoadedSchema → List (String × LoadedSchema)
  perm : ∀ loaded, (list loaded).Perm loaded

/-- The order of the ids. -/
def Listing.byId : Listing := ⟨id, .refl⟩

/-- The schemas known, with the documents read and compiled so far. A schema is read and compiled
once, when it is first needed. -/
structure Registry where
  /-- The texts of the schema files by id, if there is a folder of them. -/
  folder? : Option (Keyed String)
  aliases : Keyed String
  loaded : Keyed LoadedSchema
  compiled : Keyed CompiledSchema
  /-- The order in which the schemas read are gone through. -/
  listing : Listing

namespace Registry

/-- The form of an address that aliases are compared in. -/
def normalizeUrl (url : String) : String :=
  let trimmed := Text.trim url.toList
  Text.foldCase (String.ofList (trimmed.reverse.dropWhile (· = '#')).reverse)

/-- Makes an address stand for a schema id. -/
def registerAlias (registry : Registry) (url id : String) : Registry :=
  { registry with aliases := Keyed.insert (normalizeUrl url) id registry.aliases }

/-- Where the schema files are published. -/
private def publishedBase : String :=
  "https://raw.githubusercontent.com/Azure/enterprise-azure-policy-as-code/main/Schemas/"

/-- Where the schemas of the resource types are published. -/
private def resourceBase : String :=
  "https://schema.management.azure.com/schemas/2019-09-01/"

/-- The name of a schema's file. -/
def fileName (id : String) : String := s!"{id}-schema.json"

/-- The addresses known from the start. -/
def builtinAliases : List (String × String) :=
  Kind.all.map (fun kind => (publishedBase ++ fileName kind.schemaId, kind.schemaId)) ++
    [(resourceBase ++ "policyDefinition.json", Kind.definition.schemaId),
      (resourceBase ++ "policySetDefinition.json", Kind.collection.schemaId),
      (resourceBase ++ "policyAssignment.json", Kind.assignment.schemaId)]

/-- A registry that has read nothing yet. -/
def new (folder? : Option (Keyed String)) (listing : Listing := .byId) : Registry :=
  builtinAliases.foldl (fun registry (url, id) => registry.registerAlias url id)
    ⟨folder?, [], [], [], listing⟩

/-- The schema id for an address or an id. -/
def resolve? (registry : Registry) (url : String) : Option String :=
  match Keyed.find? (normalizeUrl url) registry.aliases with
  | some id => some id
  | none =>
    if (Kind.ofSchemaId? url).isSome then some url
    else (Kind.ofSchemaUrl? url).map Kind.schemaId

/-! ## Loading -/

/-- The schema that stands in for one that cannot be read: any object with a name and
properties. -/
def fallbackDocument : Json :=
  .ofMembers [("$schema", .string "http://json-schema.org/draft-07/schema#"),
    ("type", .string "object"),
    ("required", .array [.string "name", .string "properties"])]

/-- The schema in the folder, where its file is strict JSON of an object. -/
def readDocument? (registry : Registry) (id : String) : Option Json := do
  let folder ← registry.folder?
  let text ← Keyed.find? id folder
  let document ← Json.ofText? text
  if document.isObject then some document else none

/-- The schema under an id, read from the folder. -/
def readSchema (registry : Registry) (id : String) : LoadedSchema :=
  match registry.readDocument? id with
  | some document => ⟨id, document, false⟩
  | none => ⟨id, fallbackDocument, true⟩

/-- The schema under an id, read unless it has been read before. -/
def load (registry : Registry) (id : String) : LoadedSchema × Registry :=
  match Keyed.find? id registry.loaded with
  | some schema => (schema, registry)
  | none =>
    let schema := registry.readSchema id
    (schema, { registry with loaded := Keyed.insert id schema registry.loaded })

/-- Reads the schemas of all kinds. -/
def warmUp (registry : Registry) : Registry :=
  Kind.all.foldl (fun registry kind => (registry.load kind.schemaId).2) registry

/-! ## Compiling -/

/-- The text that a document declares as its id. -/
def declared? (document : Json) : Option String := (document.get? "$id").bind Json.string?

/-- The documents that references may lead into: those read so far, by the ids that they declare. Of two that
declare one id, the one that is listed later is taken. -/
def library (registry : Registry) : Library :=
  (registry.listing.list registry.loaded).foldl
    (fun acc (_, schema) =>
      match declared? schema.document with
      | some id => Keyed.insert id schema.document acc
      | none => acc) []

/-- The compiled form of a document. One whose only fault is a language that is not known is compiled
without the name of its language. -/
def compileDocument? (registry : Registry) (document : Json) : Option CompiledSchema :=
  match CompiledSchema.ofJson registry.library document with
  | .ok schema => some schema
  | .error fault =>
    if Discrepancy.isUnknownLanguage fault.message then
      (CompiledSchema.ofJson registry.library (document.erase "$schema")).toOption
    else none

/-- The fallback schema, compiled. -/
def fallbackSchema (registry : Registry) : CompiledSchema :=
  (registry.compileDocument? fallbackDocument).getD .permissive

/-- The compiled form of a schema, or of the fallback where it does not compile. -/
def compileSchema (registry : Registry) (schema : LoadedSchema) : CompiledSchema :=
  (registry.compileDocument? schema.document).getD registry.fallbackSchema

/-- The compiled form of a schema, compiled unless it has been before. -/
def compile (registry : Registry) (schema : LoadedSchema) : CompiledSchema × Registry :=
  match Keyed.find? schema.id registry.compiled with
  | some compiled => (compiled, registry)
  | none =>
    let compiled := registry.compileSchema schema
    (compiled, { registry with compiled := Keyed.insert schema.id compiled registry.compiled })

/-! ## Checking -/

/-- What a compiled schema finds in a value. Messages about unknown schema languages are left out. -/
def discrepancies (schema : CompiledSchema) (value : Json) : List Discrepancy :=
  ((schema.violations value).map Discrepancy.ofViolation).filter fun d =>
    !Discrepancy.isUnknownLanguage d.message

/-- Checks a value against the schema with an id. -/
def check (registry : Registry) (id : String) (value : Json) : StructureReport × Registry :=
  let (schema, registry) := registry.load id
  let (compiled, registry) := registry.compile schema
  (⟨id, discrepancies compiled value, schema.isFallback⟩, registry)

/-- Checks a value against the schema under an address or id. -/
def validate (registry : Registry) (url : String) (value : Json) :
    Except AuditError StructureReport × Registry :=
  match registry.resolve? url with
  | none => (.error (.notFound s!"schema '{url}'"), registry)
  | some id =>
    let (report, registry) := registry.check id value
    (.ok report, registry)

end Registry

end PolicyAudit
