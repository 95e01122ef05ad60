-- SUMMARY: The rules for trees of assignments, and their fixes.
import PolicyAudit.Lint.Context

/-! ## Nodes

An assignment document is a tree of nodes, each an object, linked by lists of children. A scope holds
for a node and for everything below it. -/

namespace PolicyAudit.Assignment

/-- The nodes directly below a node. -/
def children (part : Part) : List Part := ((part.field? .children).map Part.items).getD []

/-- What is below a node is smaller than the node. -/
theorem sizeOf_children_lt {part child : Part} (h : child ∈ children part) :
    sizeOf child.value < sizeOf part.value := by
  simp only [children] at h
  cases hf : part.field? .children with
  | none => simp [hf] at h
  | some list =>
    simp only [hf, Option.map_some, Option.getD_some] at h
    exact Nat.lt_trans (Part.sizeOf_items_lt h) (Json.sizeOf_field?_lt (Part.field?_value hf))

/-- A node of the tree. -/
structure Node where
  part : Part
  /-- The node or one above it has a scope. -/
  covered : Bool
deriving Inhabited

/-- Whether a node has nothing below it. -/
def Node.leaf (node : Node) : Bool := (children node.part).isEmpty

/-- The node at a part and all nodes below it, each before those below it. What is no object is no
node. -/
def nodesFrom (inherited : Bool) (part : Part) : List Node :=
  if part.value.isObject then
    let covered := inherited || part.value.hasField .scope
    ⟨part, covered⟩ ::
      (children part).attach.flatMap fun ⟨child, _⟩ => nodesFrom covered child
  else []
termination_by sizeOf part.value
decreasing_by exact sizeOf_children_lt ‹_›

/-- All nodes of a document. -/
def nodes (value : Json) : List Node := nodesFrom false (Part.root value)

/-! ## Names -/

/-- The greatest number of characters in the name of an assignment. -/
def maxNameLength : Nat := 24

/-- The places on a node that may hold an assignment: the node and its definition entries. -/
def holders (part : Part) : List Part :=
  part :: ((part.field? .entries).map Part.items).getD []

/-- The name of the assignment that a part holds. -/
def name? (holder : Part) : Option (Part × String) := do
  let assignment ← holder.field? .assignment
  let part ← assignment.field? .name
  let text ← part.value.string?
  return (part, text)

/-- The names of the assignments on a node. -/
def names (part : Part) : List (Part × String) := (holders part).filterMap name?

/-- The finding that a name is too long. -/
def nameIssues (ctx : Context) (part : Part) (name : String) : List Issue :=
  let length := name.length
  if length ≤ maxNameLength then []
  else
    let message :=
      s!"Assignment name '{name}' is {length} characters; the limit is {maxNameLength}"
    [{ ctx.issueAt .nameLength Code.nameLength message part.path [("name", .string name)] with
      suggestion? := some "Shorten the name to 24 characters or fewer" }]

/-- The findings about the names of a document. -/
def checkNames (ctx : Context) : List Issue :=
  (nodes ctx.value).flatMap fun node =>
    (names node.part).flatMap fun (part, name) => nameIssues ctx part name

/-- The edit that cuts a name off at its greatest length. -/
def fixName (ctx : Context) (issue : Issue) : Except AuditError (Option Edit) :=
  match Context.requirePath issue with
  | .error e => .error e
  | .ok path =>
    .ok <| (ctx.doc.at? path).bind fun tree =>
      tree.string?.map fun name =>
        Edit.replaceValue ctx.doc tree
          (.string (String.ofList (name.toList.take maxNameLength)))

/-! ## Scopes -/

/-- What scope paths start with, in lower case. -/
def scopeRoots : List String :=
  ["/providers/microsoft.management/managementgroups/", "/subscriptions/"]

/-- Whether a text is the path of a management group or of a subscription: it goes on after one of the
roots. -/
def isScopePath (path : String) : Bool :=
  let lower := (Text.trim path.toList).map Char.toLower
  scopeRoots.any fun root =>
    root.toList.isPrefixOf lower && root.toList.length < lower.length

/-- The places of an environment that should each hold a scope path: the elements of its list, or its
value itself. -/
def scopePlaces (part : Part) : List Part := part.items?.getD [part]

/-- The finding that a place of an environment holds no scope path. -/
def placeIssues (ctx : Context) (environment : String) (part : Part) : List Issue :=
  match part.value.string? with
  | some scope =>
    if isScopePath scope then []
    else
      let message :=
        s!"Scope '{scope}' for '{environment}' is not a management group or subscription path"
      [ctx.issueAt .assignmentScope Code.invalidScope message part.path []]
  | none =>
    let message := s!"Scope for '{environment}' must be a path or a list of paths"
    [ctx.issueAt .assignmentScope Code.invalidScope message part.path []]

/-- The finding that a leaf has no scope. -/
def missingScopeIssues (ctx : Context) (node : Node) : List Issue :=
  if node.leaf && !node.covered then
    let label := (node.part.value.text? .nodeName).getD "<unnamed>"
    [ctx.issueAt .assignmentScope Code.missingScope
      s!"Node '{label}' has no scope, and no ancestor defines one" node.part.path []]
  else []

/-- The findings about a node's own scope. -/
def ownScopeIssues (ctx : Context) (part : Part) : List Issue :=
  match part.field? .scope with
  | none => []
  | some scope =>
    match scope.members? with
    | some environments =>
      environments.flatMap fun (environment, part) =>
        (scopePlaces part).flatMap (placeIssues ctx environment)
    | none =>
      [ctx.issueAt .assignmentScope Code.invalidScope
        "Scope must map environments to scope paths" scope.path []]

/-- The findings about the scopes of a document. -/
def checkScopes (ctx : Context) : List Issue :=
  (nodes ctx.value).flatMap fun node =>
    missingScopeIssues ctx node ++ ownScopeIssues ctx node.part

/-- The scope path that a fix writes, to be completed by hand. -/
def placeholderPath : Json :=
  .string "/providers/Microsoft.Management/managementGroups/<management-group-id>"

/-- The environment that a fix writes where the document has none. -/
def placeholderEnvironment : String := "default"

/-- The scope that a fix writes: one with the environments of the first scope of the document, each a
list or a text as there. -/
def placeholderScope (value : Json) : Json :=
  let scopes := (nodes value).filterMap fun node =>
    (node.part.value.field? .scope).bind Json.members?
  match scopes.head? with
  | some (first :: rest) =>
    .object <| (first :: rest).map fun (environment, paths) =>
      (environment, if paths.isArray then .array [placeholderPath] else placeholderPath)
  | _ => .object [(placeholderEnvironment, .array [placeholderPath])]

/-- The edit that gives a node a scope. -/
def fixScope (ctx : Context) (issue : Issue) : Except AuditError (Option Edit) :=
  match Context.requirePath issue with
  | .error e => .error e
  | .ok path =>
    match ctx.doc.at? path with
    | none => .ok none
    | some tree =>
      (Edit.insertMember ctx.doc tree "scope" (placeholderScope ctx.value)).map some

/-! ## References -/

/-- The references on a node: its definition entry and those of its list. -/
def references (part : Part) : List Part :=
  (part.field? .entry).toList ++ ((part.field? .entries).map Part.items).getD []

/-- The finding that a node has both an entry and a list of entries. -/
def bothIssues (ctx : Context) (part : Part) : List Issue :=
  match part.field? .entry, part.field? .entries with
  | some entry, some _ =>
    [ctx.issueAt .exclusiveReference Code.conflictingReferences
      "definitionEntry and definitionEntryList cannot be used on the same node" entry.path []]
  | _, _ => []

/-- The finding that a reference names a policy in more than one way. -/
def referenceIssues (ctx : Context) (part : Part) : List Issue :=
  let named := Kind.referenceFields.filter fun (_, field) =>
    (part.value.filledText? field).isSome
  if 1 < named.length then
    let labels := ", ".intercalate (named.map (·.1))
    [ctx.issueAt .exclusiveReference Code.conflictingReferences
      s!"Reference sets {labels}; use exactly one" part.path []]
  else []

/-- The findings about the references of a document. -/
def checkReferences (ctx : Context) : List Issue :=
  (nodes ctx.value).flatMap fun node =>
    bothIssues ctx node.part ++ (references node.part).flatMap (referenceIssues ctx)

end PolicyAudit.Assignment
