-- SUMMARY: The command line: what may be given on it, and what it asks for.
import PolicyAudit.Decimal.Word
import PolicyAudit.Keyed
import PolicyAudit.Text.Split

/-! ## Requests -/

namespace PolicyAudit

/-- How results are shown. -/
inductive OutputFormat where
  | human
  | json
deriving DecidableEq, Repr

/-- The choices about rules that hold for one run. -/
structure RuleChoice where
  strict : Bool
  maxErrors? : Option Nat
  /-- The ids of more rules that do not run. -/
  skip : List String
deriving Repr

/-- What is to be done. -/
inductive Command where
  /-- Shows the findings about documents, if asked for only those with findings. -/
  | check (paths : List String) (rules : RuleChoice) (onlyIssues : Bool)
  /-- Fixes documents, or shows how they would be fixed. -/
  | fix (paths : List String) (rules : RuleChoice) (dryRun : Bool)
  /-- Shows the kinds of documents. -/
  | classify (paths : List String)
  /-- Shows the rules, or one of them in detail. -/
  | rules (explain? : Option String)
deriving Repr

/-- What the command line asks for. -/
structure Invocation where
  command : Command
  /-- Another program reads the results. -/
  robot : Bool
  format : OutputFormat
  settingsFile? : Option String
  schemaFolder? : Option String
deriving Repr

/-- Why the command line asks for nothing that can be done. Help and the version are shown instead of
doing anything. -/
inductive UsageFault where
  | helpWanted
  | versionWanted
  /-- There are no arguments at all. -/
  | nothingGiven
  | missingCommand
  | unknownCommand
  | unknownArgument
  | missingPath
  /-- An argument is given twice, or together with one that rules it out. -/
  | conflict
  /-- A value is missing or not one of those possible. -/
  | invalidValue
  /-- A value is not a number. -/
  | malformedValue
  /-- A value is given to an argument that takes none. -/
  | unwantedValue
deriving DecidableEq, Repr

/-! ## Arguments -/

/-- The names of the commands. -/
inductive CommandName where
  | check
  | fix
  | classify
  | rules
deriving DecidableEq, Repr

/-- What can be given on the command line besides the command. -/
inductive Argument where
  | robot
  | format
  | verbose
  | quiet
  | settings
  | schemas
  | help
  | version
  | strict
  | maxErrors
  | skip
  | onlyIssues
  | dryRun
  | explain
  /-- A path, which stands without a name. -/
  | path
deriving DecidableEq, Repr

namespace CommandName

/-- The word for a command. -/
def label : CommandName → String
  | check => "check"
  | fix => "fix"
  | classify => "classify"
  | rules => "rules"

/-- The command with a word. -/
def ofLabel? (word : String) : Option CommandName :=
  [check, fix, classify, rules].find? (·.label = word)

/-- Whether a command needs paths. -/
def takesPaths (name : CommandName) : Bool := name ≠ rules

/-- The arguments that only one command takes. -/
def own : CommandName → List Argument
  | check => [.strict, .maxErrors, .skip, .onlyIssues]
  | fix => [.strict, .maxErrors, .skip, .dryRun]
  | classify => []
  | rules => [.explain]

end CommandName

namespace Argument

/-- The name of an argument, which two hyphens stand before. -/
def long : Argument → String
  | robot => "robot"
  | format => "format"
  | verbose => "verbose"
  | quiet => "quiet"
  | settings => "config"
  | schemas => "schemas"
  | help => "help"
  | version => "version"
  | strict => "strict"
  | maxErrors => "max-errors"
  | skip => "skip"
  | onlyIssues => "only-issues"
  | dryRun => "dry-run"
  | explain => "explain"
  | path => ""

/-- The short name of an argument, which one hyphen stands before. -/
def short? : Argument → Option Char
  | verbose => some 'v'
  | quiet => some 'q'
  | help => some 'h'
  | version => some 'V'
  | _ => none

/-- Whether an argument is there for its value. -/
def takesValue (argument : Argument) : Bool :=
  [format, settings, schemas, maxErrors, skip, explain, path].contains argument

/-- Whether an argument can be given more than once. -/
def isRepeatable (argument : Argument) : Bool := [verbose, skip, path].contains argument

/-- The arguments that can be given before and after any command. -/
def common : List Argument := [robot, format, verbose, quiet, settings, schemas, help]

/-- The arguments that can be given before a command, or after it. -/
def all : Option CommandName → List Argument
  | none => common ++ [version]
  | some command => common ++ command.own

/-- Refuses a text that is no value of an argument. -/
def checkValue (argument : Argument) (text : String) : Except UsageFault Unit :=
  match argument with
  | format => if text = "human" ∨ text = "json" then .ok () else .error .invalidValue
  | settings | schemas | path => if text = "" then .error .invalidValue else .ok ()
  | maxErrors =>
    match Decimal.word text.toList with
    | .ok _ => .ok ()
    | .error _ => .error .malformedValue
  | _ => .ok ()

end Argument

/-! ## Reading arguments

The arguments before the command and those after it are read apart. An argument whose values may
still go on is pending, and its values are looked at only when the next argument shows that they do
not. So a later argument that is unknown is reported before an earlier one with a wrong value. -/

/-- What has been given before the command, or after it. -/
structure Given where
  settled : List (Argument × List String)
  pending? : Option (Argument × List String)
  /-- Everything from here on is a path. -/
  trailing : Bool

namespace Given

/-- Nothing. -/
def empty : Given := ⟨[], none, false⟩

/-- Whether an argument is given. -/
def has (given : Given) (argument : Argument) : Bool := given.settled.any (·.1 = argument)

/-- The values of an argument. -/
def values (given : Given) (argument : Argument) : List String :=
  (given.settled.filter (·.1 = argument)).flatMap (·.2)

/-- Takes an argument with its values. -/
def add (given : Given) (argument : Argument) (values : List String) : Except UsageFault Given := do
  if argument.takesValue ∧ values = [] then throw .invalidValue
  if argument = .help then throw .helpWanted
  if argument = .version then throw .versionWanted
  if ¬argument.isRepeatable ∧ given.has argument then throw .conflict
  let values := if argument = .skip then values.flatMap (Text.split ',') else values
  values.forM argument.checkValue
  return { given with settled := given.settled ++ [(argument, values)] }

/-- Takes what is pending. -/
def flush (given : Given) : Except UsageFault Given :=
  match given.pending? with
  | none => .ok given
  | some (argument, values) => { given with pending? := none }.add argument values

/-- Takes what is pending, and then an argument with its values. -/
def accept (given : Given) (argument : Argument) (values : List String) :
    Except UsageFault Given := do
  (← given.flush).add argument values

/-- Reads an argument by its long name, with a value after an equals sign perhaps. -/
def readLong (scope : Option CommandName) (given : Given) (text : List Char) :
    Except UsageFault Given :=
  let name := text.takeWhile (· ≠ '=')
  let attached := text.drop name.length
  match (Argument.all scope).find? (·.long = String.ofList name) with
  | none => throw .unknownArgument
  | some argument =>
    if argument.takesValue then
      match attached with
      | _ :: value => given.accept argument [String.ofList value]
      | [] => do return { ← given.flush with pending? := some (argument, []) }
    else if attached = [] then given.accept argument []
    else throw .unwantedValue

/-- Reads arguments by their short names. -/
def readShort (scope : Option CommandName) : Given → List Char → Except UsageFault Given
  | given, [] => .ok given
  | given, c :: rest =>
    match (Argument.all scope).find? (·.short? = some c) with
    | none => throw .unknownArgument
    | some argument => do readShort scope (← given.accept argument []) rest

/-- Whether a word stands for a command, that for help included. -/
def isCommandWord (word : String) : Bool := word = "help" ∨ (CommandName.ofLabel? word).isSome

/-- Takes a word without hyphens: a path, where paths are expected. -/
def readOperand (scope : Option CommandName) (given : Given) (word : String) :
    Except UsageFault Given :=
  match scope with
  | none => throw (if given.trailing ∧ isCommandWord word then .unknownArgument else .unknownCommand)
  | some command =>
    if command.takesPaths then
      match given.pending? with
      | some (.path, paths) => .ok { given with pending? := some (.path, paths ++ [word]) }
      | _ => do return { ← given.flush with pending? := some (.path, [word]) }
    else throw .unknownArgument

/-- What the words after `help` ask for: help about one command at most. -/
def helpOn : List String → UsageFault
  | [] => .helpWanted
  | [word] => if isCommandWord word then .helpWanted else .unknownCommand
  | _ => .unknownCommand

/-- Reads arguments up to the command, where one may come, and gives the rest after it. -/
def read (scope : Option CommandName) (given : Given) :
    List String → Except UsageFault (Given × Option (CommandName × List String))
  | [] => .ok (given, none)
  | word :: rest =>
    let isValue : Bool := match given.pending? with
      | some (_, []) => true
      | _ => false
    if given.trailing then do read scope (← readOperand scope given word) rest
    else if scope = none ∧ ¬isValue ∧ word = "help" then throw (helpOn rest)
    else
      let command? := if scope = none ∧ ¬isValue then CommandName.ofLabel? word else none
      match command?, word.toList with
      | some command, _ => .ok (given, some (command, rest))
      | none, ['-', '-'] => read scope { given with trailing := true } rest
      | none, '-' :: '-' :: text => do read scope (← given.readLong scope text) rest
      | none, '-' :: c :: text => do read scope (← given.readShort scope (c :: text)) rest
      | none, _ =>
        match given.pending? with
        | some (argument, []) => read scope { given with pending? := some (argument, [word]) } rest
        | _ => do read scope (← readOperand scope given word) rest

/-! ## Checking arguments -/

/-- Takes what is pending at the end. The file of settings may also be named in a variable, whose
value has to be one as well. -/
def close (given : Given) (settingsFile? : Option String) : Except UsageFault Given := do
  let given ← given.flush
  match settingsFile? with
  | some name => if given.has .settings then pure () else Argument.settings.checkValue name
  | none => pure ()
  return given

/-- Refuses arguments that rule each other out, and a lack of paths. -/
def check (given : Given) (scope : Option CommandName) : Except UsageFault Unit := do
  if given.has .quiet ∧ given.has .verbose then throw .conflict
  if scope.any CommandName.takesPaths ∧ ¬given.has .path then throw .missingPath

/-- The choices about rules. -/
def ruleChoice (given : Given) : RuleChoice where
  strict := given.has .strict
  maxErrors? := (given.values .maxErrors).head?.bind fun text => (Decimal.word text.toList).toOption
  skip := given.values .skip

/-- The command with what is given after it. -/
def command (given : Given) : CommandName → Command
  | .check => .check (given.values .path) given.ruleChoice (given.has .onlyIssues)
  | .fix => .fix (given.values .path) given.ruleChoice (given.has .dryRun)
  | .classify => .classify (given.values .path)
  | .rules => .rules (given.values .explain).head?

end Given

namespace Invocation

/-- What a command line asks for, where a file of settings may be named in a variable. What is given
after the command counts more than what is given before it. -/
def ofArguments (settingsFile? : Option String) (arguments : List String) :
    Except UsageFault Invocation := do
  let (before, command?) ← Given.empty.read none arguments
  match command? with
  | none =>
    let before ← before.close settingsFile?
    throw (if before.settled.isEmpty ∧ settingsFile?.isNone then .nothingGiven else .missingCommand)
  | some (name, rest) =>
    let (after, _) ← Given.empty.read (some name) rest
    let after ← after.close settingsFile?
    after.check (some name)
    let before ← before.close settingsFile?
    before.check none
    let value? (argument : Argument) : Option String :=
      ((after.values argument).head?).or (before.values argument).head?
    let robot := before.has .robot ∨ after.has .robot
    return {
      command := after.command name
      robot
      format := if robot ∨ value? .format = some "json" then .json else .human
      settingsFile? := value? .settings
      schemaFolder? := value? .schemas }

end Invocation

end PolicyAudit
