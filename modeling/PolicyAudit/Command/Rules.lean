-- SUMMARY: Showing the rules.
import PolicyAudit.Command.Outcome
import PolicyAudit.Session.Service

/-! ## One rule -/

namespace PolicyAudit.Command

/-- The words for yes and no. -/
def yesNo (value : Bool) : String := if value then "Yes" else "No"

/-- The lines about one rule, with the kinds of documents it is for. -/
def explanation (palette : Palette) (info : Validator.RuleInfo) (kinds : List String) :
    List String :=
  palette.title s!"Rule: {info.rule.id}" ++
    [palette.entry "Name" info.rule.title,
      palette.entry "Applies to" (", ".intercalate kinds),
      palette.entry "Severity" info.rule.severity.label,
      palette.entry "Codes" (", ".intercalate info.rule.codes),
      palette.entry "Auto-fix" (yesNo info.canFix),
      palette.entry "Disabled" (yesNo info.disabled), ""]
    ++ palette.heading "Description" ++ [info.rule.description]

/-! ## All rules -/

/-- The line of a rule in a list. -/
def ruleLine (palette : Palette) (info : Validator.RuleInfo) : String :=
  let rule := info.rule
  let fixable := if info.canFix then palette.paint .green " [fixable]" else ""
  let disabled := if info.disabled then palette.paint .dimmed " [disabled]" else ""
  s!"- {rule.id} - {rule.title} ({rule.severity.label}){fixable}{disabled}"

/-- The lines of the rules, by the kind of document they are for. -/
def ruleLines (palette : Palette) (rules : List Validator.RuleInfo) : List String :=
  palette.title "Available Rules" ++ Kind.all.flatMap fun kind =>
    palette.heading kind.label
      ++ (rules.filter (·.kind? = some kind)).map (ruleLine palette) ++ [""]

/-! ## The command -/

/-- Shows the rules, or one of them in detail. -/
def runRules (disk : Disk) (palette : Palette) (human : Bool) (service : Service)
    (explain? : Option String) : Outcome :=
  let rules := service.listRules
  match explain? with
  | none => .printed disk <|
    if human then Palette.print (ruleLines palette rules)
    else Response.print ⟨.ok, .array (rules.map Validator.RuleInfo.toJson)⟩
  | some id =>
    match rules.filter (·.rule.id = id) with
    | [] => .failed disk (.notFound s!"rule '{id}'")
    | info :: others => .printed disk <|
      if human then
        let kinds := (info :: others).map fun info => Kind.labelOf info.kind?
        Palette.print (explanation palette info kinds)
      else Response.print ⟨.ok, info.toJson⟩

end PolicyAudit.Command
