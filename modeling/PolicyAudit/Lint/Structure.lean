-- SUMMARY: The rule that checks documents against their schemas.
import PolicyAudit.Lint.Context
import PolicyAudit.Schema.Locate
import PolicyAudit.Schema.Registry

/-! ## Reports of violations -/

namespace PolicyAudit.Structural

/-- A path with dots before names and positions in brackets. -/
def dotted (path : Path) : String :=
  path.foldl
    (fun acc key =>
      match key with
      | .name name => if acc.isEmpty then name else acc ++ "." ++ name
      | .index index => s!"{acc}[{index}]") ""

/-- The finding about a violation, under the id of the rule that found it. The place is looked for in
the document, and a violation of the document as a whole is shown without a path. -/
def issueOf (doc : Document) (ruleId : String) (d : Discrepancy) : Issue :=
  let path := Pointer.read d.path
  { code := Code.schemaViolation
    message := if path.isEmpty then d.message else s!"{dotted path}: {d.message}"
    severity := .error
    range := (doc.locate path).1
    source := Issue.defaultSource
    ruleId
    data := .ofMembers [("path", path.toJson),
      ("keyword", (d.keyword?.map Json.string).getD .null),
      ("schemaPath", .string d.schemaPath)]
    suggestion? := none }

/-! ## The rule -/

/-- The id of the schema for a document: that of its declared schema, or else of its guessed kind. -/
def schemaId? (registry : Registry) (value : Json) : Option String :=
  match (value.text? .schema).bind registry.resolve? with
  | some id => some id
  | none => (Kind.guess? value).map Kind.schemaId

/-- The finding that there is no schema for a document. -/
def noSchema (doc : Document) : Issue :=
  { Rule.schemaValidation.issue Code.noSchema "No schema could be resolved for this document"
      doc.firstLine .null with
    severity := .warning
    suggestion? := some "Add a \"$schema\" property naming the policy schema" }

/-- Checks a document against its schema. -/
def check (ctx : Context) (registry : Registry) : Except AuditError (List Issue) × Registry :=
  match schemaId? registry ctx.value with
  | none => (.ok [noSchema ctx.doc], registry)
  | some id =>
    match registry.validate id ctx.value with
    | (.error e, registry) => (.error e, registry)
    | (.ok report, registry) =>
      (.ok (report.errors.map (issueOf ctx.doc Rule.schemaValidation.id)), registry)

end PolicyAudit.Structural
