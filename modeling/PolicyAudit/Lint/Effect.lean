-- SUMMARY: The rule that effects come from declared parameters, and its fixes.
import PolicyAudit.Lint.Context

/-! ## Effects

The effect of a definition should be an expression that names a parameter, and that parameter should
be declared. -/

namespace PolicyAudit.Effect

/-- The name in an expression that takes the value of a parameter, like `[parameters('effect')]`,
with blanks anywhere between its tokens. -/
def parameterOf? (effect : String) : Option String := do
  let blanks := List.dropWhile Text.isBlank
  let token (word : String) (text : List Char) := Text.stripWord? word.toList text
  let text ← token "[" (Text.trim effect.toList)
  let text ← token "parameters(" (blanks text)
  let text ← token "'" (blanks text)
  let name := text.takeWhile (· ≠ '\'')
  if name.isEmpty then none
  else
    let text ← token "'" (text.drop name.length)
    let text ← token ")" (blanks text)
    let text ← token "]" (blanks text)
    if text.isEmpty then some (String.ofList name) else none

/-- The expression that takes the value of a parameter. -/
def expression (parameter : String) : String := s!"[parameters('{parameter}')]"

/-- The effect of a definition, where it is a string. -/
def effectPart? (value : Json) : Option (Part × String) := do
  let rule ← (Part.properties value).field? .rule
  let consequence ← rule.field? .consequence
  let effect ← consequence.field? .effect
  let text ← effect.value.string?
  return (effect, text)

/-- The declared parameters of a definition. -/
def parameters? (value : Json) : Option (Keyed Json) :=
  ((Part.properties value).value.field? .parameters).bind Json.members?

/-- Whether a parameter is declared, letter case aside. -/
def isDeclared (value : Json) (parameter : String) : Bool :=
  match parameters? value with
  | some parameters => parameters.any fun (name, _) => Text.sameFolded name parameter
  | none => false

/-- Whether a declaration allows a value, letter case aside. -/
def allows (declaration : Json) (effect : String) : Bool :=
  match (declaration.field? .allowedValues).bind Json.items? with
  | some values =>
    let wanted := String.ofList (Text.trim effect.toList)
    (values.filterMap (·.string?)).any fun allowed => Text.sameFolded allowed wanted
  | none => false

/-- The declared parameter that a fixed effect should come from: the first whose name speaks of an
effect, or else the first that allows the effect. -/
def parameterFor? (value : Json) (effect : String) : Option String := do
  let parameters ← parameters? value
  let byName := parameters.names.find? fun name => Text.contains (Text.foldCase name) "effect"
  byName.or <| parameters.findSome? fun (name, declaration) =>
    if allows declaration effect then some name else none

/-- Whether an effect is an expression of some kind. -/
def isExpression (effect : String) : Bool :=
  (Text.trimStart effect.toList).head? = some '['

/-- The findings about the effect of a definition. -/
def check (ctx : Context) : List Issue :=
  match effectPart? ctx.value with
  | none => []
  | some (part, effect) =>
    match parameterOf? effect with
    | some parameter =>
      if isDeclared ctx.value parameter then []
      else
        let message := s!"Effect refers to parameter '{parameter}' which is not declared"
        [{ ctx.issueAt .effectParameter Code.missingEffectParameter message part.path
            [("parameter", .string parameter)] with
          suggestion? := some s!"Declare '{parameter}' under properties.parameters" }]
    | none =>
      if isExpression effect then []
      else
        match parameterFor? ctx.value effect with
        | none => []
        | some parameter =>
          let message := s!"Effect '{effect}' is hard-coded but parameter '{parameter}' is declared"
          [{ ctx.issueAt .effectParameter Code.fixedEffect message part.path
              [("effect", .string effect), ("parameter", .string parameter)] with
            severity := .warning
            suggestion? := some ("Use \"" ++ expression parameter ++ "\"") }]

/-! ## Fixes -/

/-- The declaration of an effect parameter. -/
def declaration : Json :=
  .ofMembers [("type", .string "String"),
    ("metadata", .ofMembers [("displayName", .string "Effect"),
      ("description", .string "Enable or disable the execution of the policy")]),
    ("allowedValues", .array [.string "Audit", .string "Deny", .string "Disabled"]),
    ("defaultValue", .string "Audit")]

/-- Declares a parameter among the others, or in a new parameters object. -/
def declare (ctx : Context) (parameter : String) : Except AuditError Edit :=
  let props := Part.properties ctx.value
  match props.field? .parameters with
  | some part =>
    match ctx.doc.at? part.path with
    | some tree => Edit.insertMember ctx.doc tree parameter declaration
    | none => .error (.fix Code.missingEffectParameter "parameters not in tree")
  | none =>
    match ctx.doc.at? props.path with
    | some tree =>
      Edit.insertMember ctx.doc tree "parameters" (.object [(parameter, declaration)])
    | none => .error (.fix Code.missingEffectParameter "properties not in tree")

/-- The parameter that an issue is about. -/
def requireParameter (issue : Issue) : Except AuditError String :=
  match issue.text? "parameter" with
  | some parameter => .ok parameter
  | none => .error (.fix issue.code "issue has no parameter name")

/-- The edit that resolves an issue: the missing parameter is declared, and the fixed effect gives way
to an expression. -/
def fix (ctx : Context) (issue : Issue) : Except AuditError (Option Edit) :=
  if issue.code = Code.missingEffectParameter then
    match requireParameter issue with
    | .error e => .error e
    | .ok parameter => (declare ctx parameter).map some
  else if issue.code = Code.fixedEffect then
    match requireParameter issue with
    | .error e => .error e
    | .ok parameter =>
      .ok <| (issue.path?.bind ctx.doc.at?).map fun tree =>
        Edit.replaceValue ctx.doc tree (.string (expression parameter))
  else .ok none

end PolicyAudit.Effect
