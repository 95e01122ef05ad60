-- SUMMARY: The rules for the definitions that a collection refers to, and their fixes.
import PolicyAudit.Lint.Context

/-! ## Entries

A collection lists the definitions that it refers to. Each entry names one definition, by id or by
name, and has a reference id that no other entry has, letter case aside. -/

namespace PolicyAudit.Reference

/-- The list of a collection. -/
def list? (value : Json) : Option Part := (Part.properties value).field? .definitions

/-- The entries of a collection. -/
def entries (value : Json) : List Part := ((list? value).bind Part.items?).getD []

/-- The reference ids in use, without letter case. -/
def usedIds (value : Json) : List String :=
  (entries value).filterMap fun entry => (entry.value.text? .referenceId).map Text.foldCase

/-- Whether an id is in use, letter case aside. -/
def inUse (used : List String) (id : String) : Bool := used.contains (Text.foldCase id)

/-- The `n`-th variant of an id. -/
def variant (base : String) (n : Nat) : String := s!"{base}-{n}"

/-- An id that is not in use: the given one, or its first free variant from the second on. One of as
many variants as there are ids in use and one more is free. -/
def freshId (base : String) (used : List String) : String :=
  if inUse used base then
    let variants := (List.range (used.length + 1)).map fun n => variant base (n + 2)
    (variants.find? fun id => !inUse used id).getD base
  else base

/-! ## Findings -/

/-- The finding that an entry names both or neither of a definition id and a definition name. -/
def nameIssues (ctx : Context) (index : Nat) (entry : Part) : List Issue :=
  let hasId := (entry.value.filledText? .definitionId).isSome
  let hasName := (entry.value.filledText? .definitionName).isSome
  if hasId = hasName then
    let which := if hasId then "both policyDefinitionId and" else "neither policyDefinitionId nor"
    let message := s!"Entry {index} sets {which} policyDefinitionName"
    [ctx.issueAt .referenceIntegrity Code.invalidReference message entry.path []]
  else []

/-- The reference id of an entry with its place, where it is a string with more than blanks. -/
def referenceId? (entry : Part) : Option (Part × String) := do
  let part ← entry.field? .referenceId
  let id ← part.value.string?
  if Text.blank id then none else some (part, id)

/-- The finding that an entry has no reference id, or one of those seen before. -/
def idIssues (ctx : Context) (seen : List String) (index : Nat) (entry : Part) : List Issue :=
  match referenceId? entry with
  | some (part, id) =>
    if seen.contains (Text.foldCase id) then
      [ctx.issueAt .referenceIntegrity Code.duplicateReferenceId
        s!"Reference id '{id}' is already used" part.path [("referenceId", .string id)]]
    else []
  | none =>
    [ctx.issueAt .referenceIntegrity Code.missingReferenceId
      s!"Entry {index} has no policyDefinitionReferenceId" entry.path []]

/-- The ids seen once an entry has been looked at. -/
def see (seen : List String) (entry : Part) : List String :=
  match referenceId? entry with
  | some (_, id) => if seen.contains (Text.foldCase id) then seen else Text.foldCase id :: seen
  | none => seen

/-- The findings about the entries from position `index` on. -/
def checkFrom (ctx : Context) (seen : List String) (index : Nat) : List Part → List Issue
  | [] => []
  | entry :: rest =>
    nameIssues ctx index entry ++ idIssues ctx seen index entry
      ++ checkFrom ctx (see seen entry) (index + 1) rest

/-- The findings about the entries of a collection. -/
def check (ctx : Context) : List Issue := checkFrom ctx [] 0 (entries ctx.value)

/-- The finding that a collection has an empty list. -/
def checkNotEmpty (ctx : Context) : List Issue :=
  match list? ctx.value with
  | none => []
  | some list =>
    match list.items? with
    | some [] =>
      [ctx.issueAt .nonEmptyCollection Code.emptyDefinitions
        "Collection does not reference any definitions" list.path []]
    | _ => []

/-! ## Fixes -/

/-- The spelling of the member that a fix adds. -/
def referenceIdName : String := "policyDefinitionReferenceId"

/-- The id to derive from what an entry names: the last token of the definition id, or the definition
name. -/
def derivedId? (entry : Json) : Option String :=
  match entry.filledText? .definitionId with
  | some id =>
    let trimmed := (id.toList.reverse.dropWhile (· = '/')).reverse
    let token := (trimmed.reverse.takeWhile (· ≠ '/')).reverse
    if token.isEmpty then none else some (String.ofList token)
  | none => entry.filledText? .definitionName

/-- Gives an entry a reference id, in the place of one that is no filled text or as a new member. -/
def addId (ctx : Context) (tree : Tree) (entry : Part) (id : String) :
    Except AuditError (Option Edit) :=
  match entry.field? .referenceId with
  | some part =>
    .ok <| (ctx.doc.at? part.path).map fun found =>
      Edit.replaceValue ctx.doc found (.string id)
  | none => (Edit.insertMember ctx.doc tree referenceIdName (.string id)).map some

/-- The edit that resolves an issue: a duplicate id gives way to a fresh variant, and a missing one is
derived from what the entry names. -/
def fix (ctx : Context) (issue : Issue) : Except AuditError (Option Edit) :=
  match Context.requirePath issue with
  | .error e => .error e
  | .ok path =>
    match ctx.doc.at? path with
    | none => .ok none
    | some tree =>
      let used := usedIds ctx.value
      if issue.code = Code.duplicateReferenceId then
        .ok <| (issue.text? "referenceId").map fun id =>
          Edit.replaceValue ctx.doc tree (.string (freshId id used))
      else if issue.code = Code.missingReferenceId then
        match ctx.value.at? path with
        | none => .ok none
        | some value =>
          match derivedId? value with
          | none => .ok none
          | some base => addId ctx tree ⟨path, value⟩ (freshId base used)
      else .ok none

end PolicyAudit.Reference
