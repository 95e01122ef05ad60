-- SUMMARY: The schemas inside documents, and the documents that references lead into.
import PolicyAudit.Address.Resolve
import PolicyAudit.Json.Pointer
import PolicyAudit.Schema.Fault

/-! ## Schemas inside schemas

A schema holds others at its keywords. One with an id of its own starts a new base for the references
inside it, and an id that is only a fragment gives it a name instead. Beside a reference an id has no
meaning. -/

namespace PolicyAudit.Catalog

/-- The keywords whose value is a schema. -/
def schemaKeywords : List String :=
  ["additionalItems", "additionalProperties", "contains", "else", "if", "not", "propertyNames",
    "then"]

/-- The keywords whose value is a list of schemas. -/
def listKeywords : List String := ["allOf", "anyOf", "oneOf"]

/-- The keywords whose value is an object of schemas. -/
def tableKeywords : List String := ["definitions", "patternProperties", "properties"]

/-- The schemas at a keyword. -/
def schemasAt (keyword : String) (value : Json) : List Json :=
  if keyword ∈ schemaKeywords then [value]
  else if keyword ∈ listKeywords then value.items?.getD []
  else if keyword ∈ tableKeywords then (value.members?.getD []).map (·.2)
  else if keyword = "items" then value.items?.getD [value]
  else if keyword = "dependencies" then ((value.members?.getD []).map (·.2)).filter Json.isObject
  else []

/-- The schemas directly inside a schema. -/
def inner (schema : Json) : List Json :=
  (schema.members?.getD []).flatMap fun (keyword, value) => schemasAt keyword value

/-- The id of a schema, without the marks at its end. -/
def ownId? (schema : Json) : Option String :=
  match schema.get? "$ref", (schema.get? "$id").bind Json.string? with
  | none, some id =>
    if id.toList.head? = some '#' then none
    else some (String.ofList (id.toList.reverse.dropWhile (· = '#')).reverse)
  | _, _ => none

/-- The name of a schema. -/
def ownName? (schema : Json) : Option (List Char) :=
  match ((schema.get? "$id").bind Json.string?).map String.toList with
  | some ('#' :: name) => some name
  | _ => none

/-- The address that a text leads to from a base. -/
def resolve (base : Address) (text : String) : Except SchemaFault Address :=
  match base.resolve? text with
  | some address => .ok address
  | none =>
    .error (if Address.isReference text then .unrelatedAddress text base.text
      else .malformedAddress text)

/-- The base of the references in a schema inside one with the given base. -/
def enter (base : Address) (schema : Json) : Except SchemaFault Address :=
  match ownId? schema with
  | some id => resolve base id
  | none => .ok base

/-- The known schema languages. -/
def languages : List String :=
  ["http://json-schema.org/draft-04/schema", "http://json-schema.org/draft-06/schema",
    "http://json-schema.org/draft-07/schema", "https://json-schema.org/draft/2019-09/schema",
    "https://json-schema.org/draft/2020-12/schema"]

/-- Requires that the language of a schema is known if it names one. -/
def checkLanguage (schema : Json) : Except SchemaFault Unit :=
  match (schema.get? "$schema").bind Json.string? with
  | none => .ok ()
  | some name =>
    let name := String.ofList (name.toList.reverse.dropWhile (· = '#')).reverse
    if name ∈ languages then .ok () else .error (.unknownLanguage name)

/-- The schemas on at most `levels` levels inside some, with the bases of their references, level by
level. -/
def spread : (levels : Nat) → List (Address × Json) → Except SchemaFault (List (Address × Json))
  | 0, _ => .ok []
  | levels + 1, front => do
    let here ← front.mapM fun (base, schema) => return (← enter base schema, schema)
    let below := here.flatMap fun (base, schema) => (inner schema).map fun part => (base, part)
    below.forM fun (_, schema) => checkLanguage schema
    return here ++ (← spread levels below)

/-! ## Places in documents

A fragment that starts with a slash is a pointer. -/

/-- The name that a token of a pointer stands for. A tilde and the character after it belong
together, and stand for themselves unless they stand for a tilde or a slash. -/
def decodeToken : List Char → List Char
  | '~' :: '0' :: rest => '~' :: decodeToken rest
  | '~' :: '1' :: rest => '/' :: decodeToken rest
  | '~' :: c :: rest => '~' :: c :: decodeToken rest
  | c :: rest => c :: decodeToken rest
  | [] => []

/-- The value at the tokens of a pointer. A position has no superfluous zeros. -/
def atTokens? (value : Json) : List (List Char) → Option Json
  | [] => some value
  | token :: rest =>
    let child := match value with
      | .object members => Keyed.find? (String.ofList (decodeToken token)) members
      | .array items =>
        if token.head? = some '0' ∧ token.length ≠ 1 then none
        else (Pointer.word? token).bind (items[·]?)
      | .scalar _ => none
    child.bind (atTokens? · rest)

/-- The value at a pointer. -/
def atPointer? (value : Json) : List Char → Option Json
  | [] => some value
  | '/' :: pointer => atTokens? value (Text.pieces '/' pointer)
  | _ => none

/-- The number of containers on the deepest way into a schema, and one more. -/
def levels (schema : Json) : Nat := schema.depth + 1

/-! ## References to other documents -/

/-- Where the languages are published. -/
def languageFolders : List String :=
  ["https://json-schema.org/draft/2020-12/", "https://json-schema.org/draft/2019-09/",
    "http://json-schema.org/draft-07/", "http://json-schema.org/draft-06/",
    "http://json-schema.org/draft-04/"]

/-- Whether a text is an address of a language. -/
def isLanguageAddress (text : String) : Bool :=
  languageFolders.any fun folder => folder.toList.isPrefixOf text.toList

/-- The addresses that a schema itself refers to, in other documents. A reference to a place inside
the schema counts for what stands there. A base that is only a name leads to no other documents. -/
def outgoing (base : Address) : (levels : Nat) → Json → Except SchemaFault (List Address)
  | 0, _ => .ok []
  | levels + 1, schema => do
    let texts := ["$ref", "$schema"].filterMap fun key => (schema.get? key).bind Json.string?
    let found ← texts.mapM fun text =>
      if base.scheme? = some "urn".toList || isLanguageAddress text then .ok []
      else
        match text.toList with
        | '#' :: pointer =>
          match pointer.dropWhile (· = '#') with
          | [] => .ok []
          | pointer =>
            match atPointer? schema pointer with
            | some target => outgoing base levels target
            | none => .ok []
        | _ => (resolve base.whole text).map ([·])
    return found.flatten

end Catalog

/-! ## The catalog

A catalog keeps what it was given last first, so the last of two schemas with one address counts. -/

/-- Documents that references may lead into, by their ids. -/
abbrev Library : Type := Keyed Json

/-- The document with an address for its id. -/
def Library.find? (library : Library) (home : Address) : Option Json :=
  (List.find? (fun (id, _) => id.toList = home.render) library).map (·.2)

/-- Schemas by address, and schemas by the address they are at and their name. -/
structure Catalog where
  schemas : List (Address × Json)
  named : List ((Address × List Char) × Json)
deriving Repr

namespace Catalog

/-- Adds a schema under an address. -/
def add (catalog : Catalog) (home : Address) (schema : Json) : Catalog :=
  { catalog with schemas := (home, schema) :: catalog.schemas }

/-- Adds a schema under its id and its name. -/
def record (catalog : Catalog) (base : Address) (schema : Json) : Catalog :=
  let catalog := if (ownId? schema).isSome then catalog.add base schema else catalog
  match ownName? schema with
  | some name => { catalog with named := ((base, name), schema) :: catalog.named }
  | none => catalog

/-- Adds the schemas in a document at an address, and tells what they refer to. -/
def absorb (catalog : Catalog) (base : Address) (document : Json) :
    Except SchemaFault (Catalog × List Address) := do
  let found ← spread (levels document) [(base, document)]
  let addresses ← found.mapM fun (base, schema) => outgoing base (levels schema) schema
  return (found.foldl (fun catalog (base, schema) => catalog.record base schema) catalog,
    addresses.flatten)

/-- Adds the document at an address unless it is known. What is not in the library is a schema that
allows everything. -/
def fetch (library : Library) (state : Catalog × List Address) (address : Address) :
    Except SchemaFault (Catalog × List Address) := do
  let (catalog, pending) := state
  let home := address.whole
  match catalog.schemas.lookup home with
  | some _ => return state
  | none =>
    let document := (library.find? home).getD (.object [])
    checkLanguage document
    let catalog := catalog.add home document
    let (catalog, pending) ←
      match address.fragment?.bind (atPointer? document) with
      | none => pure (catalog, pending)
      | some part => do
        checkLanguage part
        let (catalog, more) ← catalog.absorb address part
        pure (catalog, pending ++ more)
    let (catalog, more) ← catalog.absorb home document
    return (catalog, pending ++ more)

/-- Adds the documents at addresses and those that they refer to, in at most `rounds` rounds. -/
def gather (library : Library) : (rounds : Nat) → Catalog → List Address →
    Except SchemaFault Catalog
  | 0, catalog, _ => .ok catalog
  | rounds + 1, catalog, addresses => do
    let (catalog, further) ← addresses.foldlM (fetch library) (catalog, [])
    if further.isEmpty then return catalog else gather library rounds catalog further

/-! ## Looking up -/

/-- Whether the value at a path, which is an object or not, is certainly a schema. -/
def leadsToSchema (isObject : Bool) : Path → Bool
  | [] => true
  | .index _ :: rest => leadsToSchema isObject rest
  | [.name name] => ((name = "items" || name = "dependencies") && isObject) || name ∈ schemaKeywords
  | .name name :: key :: rest =>
    if (name = "items" || name = "dependencies") && isObject then true
    else if name ∈ schemaKeywords then leadsToSchema isObject (key :: rest)
    else (name ∈ listKeywords || name ∈ tableKeywords) && leadsToSchema isObject rest

/-- The value that tokens lead to from one at a path from the last base, and the base of the
references there. -/
def follow? (base : Address) (path : Path) (value : Json) :
    List (List Char) → Option (Address × Json)
  | [] => some (base, value)
  | token :: rest => do
    let (key, child) ← match value with
      | .object members =>
        let name := String.ofList (decodeToken token)
        (Keyed.find? name members).map fun child => (Key.name name, child)
      | .array items =>
        (Pointer.position? token).bind fun i => items[i]?.map fun child => (Key.index i, child)
      | .scalar _ => none
    let path := path ++ [key]
    if leadsToSchema child.isObject path then
      let entered ← (enter base child).toOption
      follow? entered (if entered = base then path else []) child rest
    else follow? base path child rest

/-- The schema at a reference, and the base of the references in it. -/
def find? (catalog : Catalog) (ref : SchemaRef) : Option (Address × Json) := do
  let reference ← Address.ofText? ref.text.toList
  let home := (← ref.base.resolve? ref.text).whole
  let document ← catalog.schemas.lookup home
  match reference.fragment?.getD [] with
  | [] => some (home, document)
  | '/' :: pointer =>
    let decoded ← Address.decode? pointer
    follow? home [] document (Text.pieces '/' decoded)
  | name => (catalog.named.lookup (home, name)).map (home, ·)

end Catalog

end PolicyAudit
