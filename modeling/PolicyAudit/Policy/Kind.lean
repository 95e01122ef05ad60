-- SUMMARY: The kinds of policy documents and the signs they are known by.
import PolicyAudit.Policy.Field
import PolicyAudit.Text.Fold
import PolicyAudit.Text.Pattern

/-! ## Kinds -/

namespace PolicyAudit

/-- What a policy document describes: one policy, a set of policies, or a tree of assignments. -/
inductive Kind where
  | definition
  | collection
  | assignment
deriving DecidableEq, Repr

namespace Kind

/-- All kinds in the order in which they are tried. -/
def all : List Kind := [definition, collection, assignment]

/-- The word for a kind. -/
def label : Kind → String
  | definition => "definition"
  | collection => "collection"
  | assignment => "assignment"

/-- The id of the schema for a kind. -/
def schemaId : Kind → String
  | definition => "policy-definition"
  | collection => "policy-set-definition"
  | assignment => "policy-assignment"

/-- The kind that a schema id is for. -/
def ofSchemaId? (id : String) : Option Kind := all.find? (·.schemaId = id)

/-- The type of the resources of a kind. -/
def resourceType : Kind → String
  | definition => "Microsoft.Authorization/policyDefinitions"
  | collection => "Microsoft.Authorization/policySetDefinitions"
  | assignment => "Microsoft.Authorization/policyAssignments"

/-! ## Schema addresses

The address of a schema names its kind in its file name. A collection's file name ends like a
definition's, so collections are tried first. -/

/-- How the file name of a kind's schema ends, hyphens being optional. -/
def schemaFile : Kind → Text.Pattern
  | definition => [["policy"], ["-", ""], ["definition"], ["-schema", ""], [".json"]]
  | collection =>
    [["policy"], ["-", ""], ["set"], ["-", ""], ["definition"], ["-schema", ""], [".json"]]
  | assignment => [["policy"], ["-", ""], ["assignment"], ["-schema", ""], [".json"]]

/-- The kind whose schema an address names. -/
def ofSchemaUrl? (url : String) : Option Kind :=
  [collection, definition, assignment].find? fun kind => kind.schemaFile.occurs url.toList

/-! ## Signs of a kind

The signs of a kind are tried in a fixed order, and the first that says something decides, even where
a later one would say something else. -/

/-- The kind that the declared schema is for. -/
def ofDeclaredSchema? (value : Json) : Option Kind :=
  (value.text? .schema).bind ofSchemaUrl?

/-- What a source address of each kind has in it. -/
private def sourceMarkers : List (String × Kind) :=
  [("policysetdefinitions", collection), ("policydefinitions", definition),
    ("policyassignments", assignment)]

/-- The kind that the source in the metadata names. -/
def ofProvenance? (value : Json) : Option Kind :=
  (value.metadata?.bind (·.text? .provenance)).bind fun source =>
    (sourceMarkers.find? fun (marker, _) => Text.contains (Text.foldCase source) marker).map (·.2)

/-- A node name makes a tree of assignments. -/
def ofNodeName? (value : Json) : Option Kind :=
  if value.hasField .nodeName then some assignment else none

/-- Whether properties hold a rule with a condition and a consequence. -/
def hasRule (props : Json) : Bool :=
  match props.field? .rule with
  | some rule =>
    ((rule.field? .condition).map Json.isObject).getD false
      && ((rule.field? .consequence).map Json.isObject).getD false
  | none => false

/-- A mode and a rule make a definition. -/
def ofRule? (value : Json) : Option Kind :=
  let props := (Part.properties value).value
  if props.hasField .mode && hasRule props then some definition else none

/-- A list of objects as policy definitions makes a collection. -/
def ofDefinitions? (value : Json) : Option Kind :=
  (((Part.properties value).value.field? .definitions).bind Json.items?).bind fun items =>
    if items.all Json.isObject then some collection else none

/-- The kind whose resources have the declared type. -/
def ofResourceType? (value : Json) : Option Kind :=
  (value.text? .type).bind fun type => all.find? (·.resourceType = type)

/-- The kind of a document. -/
def of? (value : Json) : Option Kind :=
  if value.isObject then
    (ofDeclaredSchema? value).or <| (ofProvenance? value).or <| (ofNodeName? value).or <|
      (ofRule? value).or <| (ofDefinitions? value).or <| ofResourceType? value
  else none

/-! ## Guessing

A document without a schema of its own is checked against the schema for its guessed kind. -/

/-- The ways of naming a policy or a set of policies, with their labels. -/
def referenceFields : List (String × Field) :=
  [("policyId", .policyId), ("policyName", .policyName), ("policySetId", .policySetId),
    ("policySetName", .policySetName)]

/-- Whether an entry names a policy or a set of policies. -/
def namesPolicy (entry : Json) : Bool :=
  referenceFields.any fun (_, field) => (entry.filledText? field).isSome

/-- Whether an object refers to a definition by id or through its entries. -/
def refersToDefinition (value : Json) : Bool :=
  (value.filledText? .definitionId).isSome
    || ((value.field? .entry).map namesPolicy).getD false
    || ((value.field? .entries).bind Json.items?).any (·.any namesPolicy)

/-- The kind that a document looks like: a rule makes a definition, a list of policy definitions a
collection, and a reference to a definition an assignment. -/
def guess? (value : Json) : Option Kind :=
  if value.isObject then
    let props := (Part.properties value).value
    if hasRule props then some definition
    else if ((props.field? .definitions).map Json.isArray).getD false then some collection
    else if refersToDefinition value || refersToDefinition props then some assignment
    else none
  else none

end Kind

end PolicyAudit
