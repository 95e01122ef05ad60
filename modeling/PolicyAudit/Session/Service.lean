-- SUMMARY: The service that keeps documents validated while they are edited.
import PolicyAudit.Session.Cache
import PolicyAudit.Session.Debounce
import PolicyAudit.Session.Diagnostic

/-! ## The service

The service knows the latest text of each open document, validates it when it is opened and some time
after it was last changed, shows the findings, and fixes them on request. Versions may arrive in any
order; an older one never takes the place of a newer one. -/

namespace PolicyAudit

/-- The latest text of a document. -/
structure Stored where
  text : String
  version : Nat
deriving DecidableEq, Repr

/-- The state of the service. -/
structure Service where
  registry : Registry
  options : LintOptions
  cache : ResultCache
  debouncer : Debouncer Unit
  documents : Keyed Stored
  board : Board

/-- The outcome of applying one fix. -/
structure AppliedFix where
  edit : Edit
  text : String
  version : Nat
  /-- The validation of the new text. -/
  result? : Option Validation

/-- The outcome of applying every fix. -/
structure FixAll where
  /-- The codes of the issues fixed, in order. -/
  applied : List String
  text : String
  version : Nat
  /-- The validation of the last text. -/
  result? : Option Validation

namespace Service

/-- The number of fixes after which fixing everything stops. -/
def maxFixes : Nat := 32

/-- The usual delay before a changed document is validated, in milliseconds. -/
def defaultDelay : Nat := 500

/-- The usual number of validations kept. -/
def defaultCapacity : Nat := 256

/-- The number that follows a version. Versions are counted in 64 bits, and the count starts again after
the last one. -/
def nextVersion (version : Nat) : Nat := (version + 1) % 0x10000000000000000

/-- A service without documents. -/
def new (registry : Registry) (options : LintOptions) (delay capacity : Nat) : Service :=
  ⟨registry, options, .new capacity, .new delay, [], .empty⟩

/-- The latest text of a document. -/
def document? (s : Service) (id : String) : Option Stored := Keyed.find? id s.documents

/-- Whether a version is not older than the stored one. -/
def isCurrent (s : Service) (id : String) (version : Nat) : Bool :=
  match s.document? id with
  | some stored => stored.version ≤ version
  | none => true

/-- Stores a text in place of the one before. -/
def store (s : Service) (id : String) (stored : Stored) : Service :=
  { s with documents := Keyed.insert id stored s.documents }

/-- Stores a text unless a newer version is stored, and says whether it did. -/
def remember (s : Service) (id text : String) (version : Nat) : Bool × Service :=
  if s.isCurrent id version then (true, s.store id ⟨text, version⟩) else (false, s)

/-! ## Validating -/

/-- The validation of a text that takes nothing from the cache: none when the text is not clean or of
no known kind. -/
def validateText (registry : Registry) (options : LintOptions) (id text : String)
    (version : Nat) : Option Validation × Registry :=
  let doc := Document.ofText text
  if doc.isClean then
    match Validator.select? doc, Context.ofDocument? doc with
    | some validator, some ctx =>
      let (v, registry) := validator.validate ctx options registry id version
      (some v, registry)
    | _, _ => (none, registry)
  else (none, registry)

/-- Keeps and shows a validation, unless a newer one is there. -/
def accept (s : Service) (v : Validation) : Service :=
  let (taken, cache) := s.cache.insert v
  { s with
    cache
    board := if taken then s.board.publish v.documentId (Diagnostic.ofValidation v) else s.board }

/-- Forgets the validation of a document and shows nothing for it. -/
def forget (s : Service) (id : String) : Service :=
  { s with cache := (s.cache.evict id).2, board := s.board.clear id }

/-- Takes over the outcome of validating the stored text of a document. -/
def adopt (s : Service) (id : String) : Option Validation → Service
  | some v => s.accept v
  | none => s.forget id

/-- Validates one version of a document, unless that has been done. The outcome is kept and shown when
the version is not older than the stored one. -/
def validate (s : Service) (id text : String) (version : Nat) : Option Validation × Service :=
  match s.cache.get id version with
  | (some v, cache) => (some v, { s with cache })
  | (none, cache) =>
    let (current, s) := { s with cache }.remember id text version
    let (result?, registry) := validateText s.registry s.options id text version
    let s := { s with registry }
    (result?, if current then s.adopt id result? else s)

/-! ## Opening, changing, closing -/

/-- A document was opened: it is validated at once. -/
def didOpen (s : Service) (id text : String) (version : Nat) : Option Validation × Service :=
  s.validate id text version

/-- Puts off validating a document until it has been left alone for the delay. -/
def postpone (s : Service) (id : String) : Service :=
  { s with debouncer := s.debouncer.schedule id () }

/-- Does away with the task of a document. -/
def cancel (s : Service) (id : String) : Service :=
  { s with debouncer := (s.debouncer.cancel id).2 }

/-- A document was changed: its text is stored, and it is validated when it has been left alone for the
delay. An older version changes nothing. -/
def didChange (s : Service) (id text : String) (version : Nat) : Service :=
  match s.remember id text version with
  | (true, s) => s.postpone id
  | (false, s) => s

/-- Validates the stored text of a document. -/
def validateStored (s : Service) (id : String) : Service :=
  match s.document? id with
  | some stored => (s.validate id stored.text stored.version).2
  | none => s

/-- The delay of a document's task is over: its stored text is validated. -/
def expire (s : Service) (id : String) : Service :=
  if s.debouncer.isWaiting id then (s.cancel id).validateStored id else s

/-- Time passes, and the tasks that fall due run in the order of their times. -/
def sleep (s : Service) (ms : Nat) : Service :=
  (s.debouncer.due ms).foldl (fun s task => s.expire task.key)
    { s with debouncer := s.debouncer.tick ms }

/-- A document was closed: nothing is kept of it and nothing is shown for it. -/
def didClose (s : Service) (id : String) : Service :=
  { s.cancel id with
    cache := (s.cache.evict id).2
    documents := Keyed.erase id s.documents
    board := s.board.clear id }

/-! ## Fixing -/

/-- The edit that resolves an issue of a text of a kind. -/
def editFor? (options : LintOptions) (text : String) (kind? : Option Kind) (issue : Issue) :
    Option Edit := do
  let kind ← kind?
  let ctx ← Context.ofDocument? (.ofText text)
  (⟨some kind⟩ : Validator).fix? ctx options issue

/-- The edit that resolves the finding with a code at a range, in the stored text of a document. -/
def requestFix (s : Service) (id code : String) (range : Range) : Option Edit × Service :=
  match s.document? id with
  | none => (none, s)
  | some stored =>
    match s.validate id stored.text stored.version with
    | (none, s) => (none, s)
    | (some v, s) =>
      ((v.find? code range).bind fun issue => editFor? s.options stored.text v.kind? issue, s)

/-- The host has applied an edit: the new text is validated at once. -/
def fixApplied (s : Service) (id text : String) (version : Nat) : Option Validation × Service :=
  (s.cancel id).validate id text version

/-- Applies an edit to the stored text of a document, which makes its next version. -/
def commit (s : Service) (id : String) (edit : Edit) : Except AuditError AppliedFix × Service :=
  match s.document? id with
  | none => (.error (.notFound s!"document '{id}'"), s)
  | some stored =>
    match edit.apply stored.text with
    | .error e => (.error e, s)
    | .ok text =>
      let version := nextVersion stored.version
      let (result?, s) := s.fixApplied id text version
      (.ok ⟨edit, text, version, result?⟩, s)

/-- Resolves the finding with a code at a range, where there is an edit for it. -/
def applyFix (s : Service) (id code : String) (range : Range) :
    Except AuditError (Option AppliedFix) × Service :=
  match s.requestFix id code range with
  | (none, s) => (.ok none, s)
  | (some edit, s) =>
    match s.commit id edit with
    | (.ok applied, s) => (.ok (some applied), s)
    | (.error e, s) => (.error e, s)

/-- The findings of a validation, each with whether it can be fixed. -/
def fixable (v : Validation) : List (Issue × Bool) :=
  v.issues.map fun issue => (issue, (⟨v.kind?⟩ : Validator).canFix issue)

/-- The first finding of a validation that has an edit, with the edit. -/
def nextFix? (options : LintOptions) (text : String) (v : Validation) : Option (String × Edit) :=
  (fixable v).findSome? fun (issue, canFix) =>
    if canFix then (editFor? options text v.kind? issue).map fun edit => (issue.code, edit)
    else none

/-- Applies fixes one by one until there are none or the number of passes is used up. -/
def fixPasses (id : String) : (passes : Nat) → FixAll → Service →
    Except AuditError FixAll × Service
  | 0, done, s => (.ok done, s)
  | passes + 1, done, s =>
    match done.result?.bind (nextFix? s.options done.text) with
    | none => (.ok done, s)
    | some (code, edit) =>
      match s.commit id edit with
      | (.error e, s) => (.error e, s)
      | (.ok fixed, s) =>
        fixPasses id passes
          ⟨done.applied ++ [code], fixed.text, fixed.version, fixed.result?⟩ s

/-- Applies up to a number of fixes to the stored text of a document, validating in between. -/
def fixSome (s : Service) (id : String) (passes : Nat) : Except AuditError FixAll × Service :=
  match s.document? id with
  | none => (.error (.notFound s!"document '{id}'"), s)
  | some stored =>
    let (result?, s) := s.validate id stored.text stored.version
    fixPasses id passes ⟨[], stored.text, stored.version, result?⟩ s

/-- Applies every fix to the stored text of a document, one at a time. -/
def fixAll (s : Service) (id : String) : Except AuditError FixAll × Service :=
  s.fixSome id maxFixes

/-! ## Rules -/

/-- The rules of every kind. -/
def listRules (s : Service) : List Validator.RuleInfo :=
  Validator.all.flatMap fun validator => validator.listRules s.options

end Service

end PolicyAudit
