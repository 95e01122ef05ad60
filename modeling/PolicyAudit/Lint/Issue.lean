-- SUMMARY: Findings about documents: their severities, places and data.
import PolicyAudit.Json.Value
import PolicyAudit.Text.Position

/-! ## Severities -/

namespace PolicyAudit

/-- How much a finding matters. Only errors make a document invalid. -/
inductive Severity where
  | info
  | warning
  | error
deriving DecidableEq, Repr

namespace Severity

/-- The word for a severity. -/
def label : Severity → String
  | info => "info"
  | warning => "warning"
  | error => "error"

/-- The severity that a word stands for. -/
def ofLabel? (word : String) : Option Severity :=
  [info, warning, error].find? (·.label = word)

end Severity

/-! ## Issues -/

/-- A finding about a document. -/
structure Issue where
  /-- What kind of finding this is, such as `NAME_LENGTH`. -/
  code : String
  message : String
  severity : Severity
  range : Range
  /-- Who reports the finding. -/
  source : String
  /-- The rule that found it. -/
  ruleId : String
  /-- What a fix needs to know, or `null`. -/
  data : Json
  /-- A hint for fixing by hand. -/
  suggestion? : Option String
deriving Repr

/-- The form of a path in the data of an issue: a list of names and positions. -/
def Path.toJson (path : Path) : Json :=
  .array <| path.map fun
    | .name name => .string name
    | .index index => .nat index

/-- The key that an element of a listed path stands for. -/
def Key.ofJson? : Json → Option Key
  | .string text => some (.name text)
  | value => value.nat?.map .index

/-- The path that a list of names and positions stands for. -/
def Path.ofJson? (value : Json) : Option Path :=
  value.items?.bind fun items => items.mapM Key.ofJson?

/-- The members of a range in the data of reports. -/
def Range.toJson (range : Range) : Json :=
  .object [("start_line", .nat range.start.line), ("start_col", .nat range.start.column),
    ("end_line", .nat range.stop.line), ("end_col", .nat range.stop.column)]

namespace Issue

/-- The name that the library reports findings under. -/
def defaultSource : String := "policy-lint"

/-- The path that an issue is about. -/
def path? (issue : Issue) : Option Path := (issue.data.get? "path").bind Path.ofJson?

/-- A text in the data of an issue. -/
def text? (issue : Issue) (name : String) : Option String :=
  (issue.data.get? name).bind Json.string?

/-- Whether an issue makes its document invalid. -/
def isError (issue : Issue) : Bool := issue.severity = .error

/-- The line that shows an issue. -/
def render (issue : Issue) : String :=
  let hint := match issue.suggestion? with
    | some suggestion => s!" (hint: {suggestion})"
    | none => ""
  let severity := issue.severity.label
  s!"[{severity}] {issue.code} {issue.ruleId}: {issue.message} at {issue.range.render}{hint}"

/-- The members of an issue in reports. Data and suggestion are left out when there are none. -/
def toJson (issue : Issue) : Json :=
  .object <|
    [("code", .string issue.code), ("message", .string issue.message),
      ("severity", .string issue.severity.label), ("range", issue.range.toJson),
      ("source", .string issue.source), ("rule_id", .string issue.ruleId)]
    ++ (match issue.data with
      | .null => []
      | data => [("data", data)])
    ++ (match issue.suggestion? with
      | some suggestion => [("suggestion", .string suggestion)]
      | none => [])

end Issue

end PolicyAudit
