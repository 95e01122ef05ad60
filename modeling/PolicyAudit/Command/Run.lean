-- SUMMARY: Running what the command line asks for.
import PolicyAudit.Command.Arguments
import PolicyAudit.Command.Classify
import PolicyAudit.Command.Fix
import PolicyAudit.Command.Rules
import PolicyAudit.Settings.Load

/-! ## Runs

Settings are loaded first, whatever the command. Only the commands that need rules build a service
from them, so only they fail over an alias that stands for nothing. -/

namespace PolicyAudit

namespace Settings

/-- The settings with the choices about rules for one run. -/
def choose (settings : Settings) (choice : RuleChoice) : Settings :=
  let rules := settings.rules
  { settings with
    rules :=
      { rules with
        strict := rules.strict || choice.strict
        maxErrors? := choice.maxErrors?.or rules.maxErrors?
        disabled := choice.skip.foldl
          (fun disabled id => if id ∈ disabled then disabled else disabled ++ [id])
          rules.disabled } }

/-- A service with the settings, which has read the schemas of all kinds. -/
def service (settings : Settings) (disk : Disk) : Except AuditError Service := do
  let registry ← settings.registry (settings.schemaTexts? disk)
  return .new registry.warmUp settings.rules settings.delay settings.capacity

end Settings

namespace Invocation

/-- The settings for a run. -/
def settings (invocation : Invocation) (around : Surroundings) : Except AuditError Settings := do
  let project := Settings.projectFolder around.disk
  let settings ← Settings.load around invocation.settingsFile? project
  return { settings with schemaFolder? := invocation.schemaFolder?.or settings.schemaFolder? }

/-- Does what is asked for. -/
def run (invocation : Invocation) (around : Surroundings) (palette : Palette) : Outcome :=
  let disk := around.disk
  let human : Bool := invocation.format = .human
  match invocation.settings around with
  | .error e => .failed disk e
  | .ok settings =>
    let withService (choice : RuleChoice) (command : Service → Outcome) : Outcome :=
      match (settings.choose choice).service disk with
      | .error e => .failed disk e
      | .ok service => command service
    match invocation.command with
    | .classify paths => Command.runClassify disk palette human paths
    | .check paths choice onlyIssues => withService choice fun service =>
      Command.runCheck disk palette human service paths onlyIssues
    | .fix paths choice dryRun => withService choice fun service =>
      Command.runFix disk palette human service paths dryRun
    | .rules explain? => withService ⟨false, none, []⟩ fun service =>
      Command.runRules disk palette human service explain?

end Invocation

end PolicyAudit
