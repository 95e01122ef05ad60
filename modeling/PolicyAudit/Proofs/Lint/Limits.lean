-- SUMMARY: A run with a limit keeps the findings up to the error that reaches it, and no limit but zero loses a verdict.
import Mathlib.Data.List.Basic
import PolicyAudit.Proofs.Lint.Run

/-! ## The error that reaches a limit -/

namespace PolicyAudit

variable {issue : Issue} {issues before after kept : List Issue} {limit errors n : Nat}

/-- The shortest prefix of some findings that has `n` errors in it. -/
structure Issue.IsShortestWith (n : Nat) (kept issues : List Issue) : Prop where
  isPrefix : kept <+: issues
  countP_eq : kept.countP isError = n
  length_le : ∀ other, other <+: issues → n ≤ other.countP isError → kept.length ≤ other.length

/-- A prefix with as many errors as there are up to an error cannot end before it. -/
theorem Issue.IsShortestWith.of_append (herror : issue.isError = true)
    (hcount : before.countP isError + 1 = n) (after : List Issue) :
    IsShortestWith n (before ++ [issue]) (before ++ issue :: after) where
  isPrefix := ⟨after, List.append_assoc ..⟩
  countP_eq := by rw [List.countP_append, List.countP_singleton, herror, if_pos rfl, hcount]
  length_le := by
    intro other hother hn
    rw [List.length_append, List.length_singleton]
    rcases Nat.lt_or_ge before.length other.length with hlonger | hshort
    · exact hlonger
    · have hbefore : other <+: before :=
        List.prefix_of_prefix_length_le hother (List.prefix_append before _) hshort
      have hfewer : other.countP isError ≤ before.countP isError := hbefore.sublist.countP_le
      omega

namespace Validator

variable {ctx : Context} {options : LintOptions} {rule : Rule} {rules : List Rule} {registry : Registry}

theorem cut_cons_of_error (herror : issue.isError = true) (rest : List Issue) :
    cut limit errors (issue :: rest) = if limit ≤ errors + 1 then ([issue], true)
      else (issue :: (cut limit (errors + 1) rest).1, (cut limit (errors + 1) rest).2) := by
  rw [cut, if_pos herror]

theorem cut_cons_of_not_error (herror : issue.isError = false) (rest : List Issue) :
    cut limit errors (issue :: rest) = if limit ≤ errors then ([issue], true)
      else (issue :: (cut limit errors rest).1, (cut limit errors rest).2) := by
  rw [cut, herror, if_neg Bool.false_ne_true]

/-- Findings with too few errors for the limit are kept. -/
theorem cut_of_lt (h : errors + issues.countP Issue.isError < limit) : cut limit errors issues = (issues, false) := by
  induction issues generalizing errors with
  | nil => rfl
  | cons issue rest ih =>
    cases herror : issue.isError with
    | true =>
      rw [List.countP_cons_of_pos herror] at h
      rw [cut_cons_of_error herror, if_neg (by omega), ih (by omega)]
    | false =>
      rw [List.countP_cons_of_neg (by simp [herror])] at h
      rw [cut_cons_of_not_error herror, if_neg (by omega), ih h]

/-- Findings with enough errors are kept up to the error that reaches the limit. -/
theorem exists_cut_of_le (hroom : errors < limit) (h : limit ≤ errors + issues.countP Issue.isError) :
    ∃ before issue after, issues = before ++ issue :: after ∧ issue.isError = true ∧
      errors + before.countP Issue.isError + 1 = limit ∧ cut limit errors issues = (before ++ [issue], true) := by
  induction issues generalizing errors with
  | nil =>
    rw [List.countP_nil] at h
    omega
  | cons issue rest ih =>
    cases herror : issue.isError with
    | true =>
      rw [List.countP_cons_of_pos herror] at h
      by_cases hlast : limit ≤ errors + 1
      · refine ⟨[], issue, rest, rfl, herror, ?_, ?_⟩
        · rw [List.countP_nil]
          omega
        · rw [cut_cons_of_error herror, if_pos hlast]
          rfl
      · have hroom : errors + 1 < limit := Nat.lt_of_not_ge hlast
        obtain ⟨before, last, after, rfl, hlastError, hcount, hcut⟩ := ih hroom (by omega)
        refine ⟨issue :: before, last, after, rfl, hlastError, ?_, ?_⟩
        · rw [List.countP_cons_of_pos herror]
          omega
        · rw [cut_cons_of_error herror, if_neg hlast, hcut]
          rfl
    | false =>
      rw [List.countP_cons_of_neg (by simp [herror])] at h
      obtain ⟨before, last, after, rfl, hlastError, hcount, hcut⟩ := ih hroom h
      refine ⟨issue :: before, last, after, rfl, hlastError, ?_, ?_⟩
      · rw [List.countP_cons_of_neg (by simp [herror]), hcount]
      · rw [cut_cons_of_not_error herror, if_neg (by omega), hcut]
        rfl

/-- Findings with enough errors are cut to the shortest prefix that has as many as the limit. -/
theorem cut_of_le (hlimit : 0 < limit) (h : limit ≤ issues.countP Issue.isError) :
    Issue.IsShortestWith limit (cut limit 0 issues).1 issues ∧ (cut limit 0 issues).2 = true := by
  obtain ⟨before, issue, after, rfl, herror, hcount, hcut⟩ :=
    exists_cut_of_le hlimit (Nat.le_trans h (Nat.le_add_left _ 0))
  rw [hcut]
  exact ⟨.of_append herror (by omega) after, rfl⟩

/-- A limit of no errors at all is reached by the first finding, error or not. -/
theorem cut_zero (issue : Issue) (rest : List Issue) : cut 0 0 (issue :: rest) = ([issue], true) := by
  rw [cut, if_pos (Nat.zero_le _)]

/-! ## The findings of a run without a limit

Only the schema rule reads the registry, and it is in a table once. So every rule finds what it would find by
itself. -/

theorem fst_check_congr (h : rule ≠ .schemaValidation) (registry other : Registry) :
    (rule.check ctx registry).1 = (rule.check ctx other).1 := by
  cases rule with
  | schemaValidation => exact absurd rfl h
  | effectParameter | referenceIntegrity | nonEmptyCollection | nameLength | assignmentScope | exclusiveReference => rfl

theorem snd_check (h : rule ≠ .schemaValidation) (registry : Registry) : (rule.check ctx registry).2 = registry := by
  cases rule with
  | schemaValidation => exact absurd rfl h
  | effectParameter | referenceIntegrity | nonEmptyCollection | nameLength | assignmentScope | exclusiveReference => rfl

/-- What a rule finds by itself, and nothing where it fails. -/
def found (ctx : Context) (registry : Registry) (rule : Rule) : List Issue :=
  (rule.check ctx registry).1.toOption.getD []

theorem ruleId_of_mem_found (h : issue ∈ found ctx registry rule) : issue.ruleId = rule.id := by
  unfold found at h
  cases hcheck : (rule.check ctx registry).1 with
  | error e =>
    rw [hcheck] at h
    cases h
  | ok issues =>
    rw [hcheck] at h
    exact (Rule.ownsAll_check hcheck issue h).ruleId

/-- The findings that the options make of what the rules that they enable find. -/
theorem fst_findings_eq_flatMap (hrules : rules.Nodup) (registry : Registry) :
    (findings ctx options rules registry).1 =
      (rules.filter fun rule => !options.isDisabled rule.id).flatMap fun rule =>
        (found ctx registry rule).map (adjust options) := by
  induction rules generalizing registry with
  | nil => rfl
  | cons rule rest ih =>
    obtain ⟨hnot, hrest⟩ := List.nodup_cons.mp hrules
    cases hdisabled : options.isDisabled rule.id with
    | true =>
      rw [findings_cons_of_disabled hdisabled, ih hrest, List.filter_cons_of_neg (by simp [hdisabled])]
    | false =>
      rw [fst_findings_cons hdisabled, ih hrest, List.filter_cons_of_pos (by simp [hdisabled]), List.flatMap_cons]
      refine congrArg _ (List.flatMap_congr fun other hother => ?_)
      have hmem : other ∈ rest := List.mem_of_mem_filter hother
      by_cases hschema : rule = .schemaValidation
      · have hne : other ≠ .schemaValidation := fun heq => hnot (hschema ▸ heq ▸ hmem)
        rw [found, found, fst_check_congr hne]
      · rw [snd_check hschema]

end Validator

/-! ## Limits -/

/-- The same options with another limit, or none. -/
def LintOptions.withLimit (options : LintOptions) (limit? : Option Nat) : LintOptions :=
  { options with maxErrors? := limit? }

namespace Validator

variable {ctx : Context} {options : LintOptions} {rules : List Rule} {registry : Registry}

/-- A limit changes nothing of what the rules find. -/
theorem findings_withLimit (limit? : Option Nat) (rules : List Rule) (registry : Registry) :
    findings ctx (options.withLimit limit?) rules registry = findings ctx options rules registry := by
  induction rules generalizing registry with
  | nil => rfl
  | cons rule rest ih =>
    simp only [findings, ih]
    rfl

theorem run_withLimit_none (validator : Validator) (ctx : Context) (options : LintOptions) (registry : Registry) :
    (validator.run ctx (options.withLimit none) registry).1 =
      ((findings ctx options validator.rules registry).1, false) := by
  rw [run, findings_withLimit]
  rfl

theorem run_withLimit_some (validator : Validator) (ctx : Context) (options : LintOptions) (registry : Registry)
    (limit : Nat) : (validator.run ctx (options.withLimit (some limit)) registry).1 =
      cut limit 0 (findings ctx options validator.rules registry).1 := by
  rw [run, findings_withLimit]
  rfl

/-- **Runs with a limit.** A run without a limit finds what the enabled rules of the table find, in their order,
where a rule that fails finds nothing, and only severities are changed: one that is set for the rule replaces that
of the finding, and under strict a warning then becomes an error. With a limit of at least one, a run keeps the
shortest prefix of these findings that has as many errors as the limit, and is truncated, or it keeps them all,
where they have fewer, and is not. -/
theorem run_of_limit (validator : Validator) (ctx : Context) (options : LintOptions) (registry : Registry)
    {limit : Nat} (hlimit : 0 < limit) :
    let whole := (validator.run ctx (options.withLimit none) registry).1
    let kept := (validator.run ctx (options.withLimit (some limit)) registry).1
    whole.1 = ((validator.rules.filter fun rule => rule.enabled && !options.isDisabled rule.id).flatMap fun rule =>
      ((rule.check ctx registry).1.toOption.getD []).map fun issue =>
        { issue with
          severity := match (Keyed.find? rule.id options.overrides).getD issue.severity, options.strict with
            | .warning, true => .error
            | severity, _ => severity }) ∧
    whole.2 = false ∧
    (limit ≤ whole.1.countP Issue.isError → Issue.IsShortestWith limit kept.1 whole.1 ∧ kept.2 = true) ∧
    (whole.1.countP Issue.isError < limit → kept.1 = whole.1 ∧ kept.2 = false) := by
  intro whole kept
  have hwhole : whole = ((findings ctx options validator.rules registry).1, false) :=
    run_withLimit_none validator ctx options registry
  have hkept : kept = cut limit 0 whole.1 := by
    rw [hwhole]
    exact run_withLimit_some validator ctx options registry limit
  refine ⟨?_, by rw [hwhole], fun h => ?_, fun h => ?_⟩
  · rw [hwhole, fst_findings_eq_flatMap validator.rules_nodup]
    refine List.flatMap_congr fun rule _ => List.map_congr_left fun issue hissue => ?_
    rw [adjust, ruleId_of_mem_found hissue, LintOptions.severity]
    cases (Keyed.find? rule.id options.overrides).getD issue.severity <;> cases options.strict <;> rfl
  · rw [hkept]
    exact cut_of_le hlimit h
  · rw [hkept, cut_of_lt (by omega)]
    exact ⟨rfl, rfl⟩

/-- One rule is disabled, the findings of another are turned from errors into notes, and the run stops in the
findings of the third. -/
theorem run_of_limit_of_override :
    let text := "\x7b\"nodeName\":\"n\",\"definitionEntry\":\x7b\x7d,\"definitionEntryList\":[]," ++
      "\"assignment\":\x7b\"name\":\"abcdefghijklmnopqrstuvwxyz\"\x7d\x7d"
    let options : LintOptions := ⟨["schema-validation"], [("name-length", .info)], true, none⟩
    ∃ ctx, Context.ofDocument? (.ofText text) = some ctx ∧ 0 < 1 ∧
      let whole := ((⟨some .assignment⟩ : Validator).run ctx (options.withLimit none) (.new none)).1
      let kept := ((⟨some .assignment⟩ : Validator).run ctx (options.withLimit (some 1)) (.new none)).1
      whole.1.map Issue.isError = [false, true, true] ∧ kept.1.map Issue.isError = [false, true] ∧
        Issue.IsShortestWith 1 kept.1 whole.1 ∧ kept.2 = true := by
  intro text options
  have hread : (Context.ofDocument? (.ofText text)).map (fun ctx =>
      (((⟨some .assignment⟩ : Validator).run ctx (options.withLimit none) (.new none)).1.1.map Issue.isError,
        ((⟨some .assignment⟩ : Validator).run ctx (options.withLimit (some 1)) (.new none)).1.1.map Issue.isError)) =
          some ([false, true, true], [false, true]) := by decide +kernel
  obtain ⟨ctx, hctx, hread⟩ := Option.map_eq_some_iff.mp hread
  obtain ⟨hwhole, hkept⟩ := Prod.mk.inj hread
  obtain ⟨-, -, hcut, -⟩ := run_of_limit ⟨some .assignment⟩ ctx options (.new none) Nat.one_pos
  have hcount := congrArg (List.countP id) hwhole
  rw [List.countP_map] at hcount
  obtain ⟨hshortest, htruncated⟩ := hcut (hcount ▸ by decide)
  exact ⟨ctx, hctx, Nat.one_pos, hwhole, hkept, hshortest, htruncated⟩

/-! ## Verdicts

The finding that reaches a limit of at least one is an error, so a run that is cut there has not lost the verdict.
A limit of zero is reached by any finding. -/

theorem any_cut (hlimit : 0 < limit) (issues : List Issue) :
    (cut limit 0 issues).1.any Issue.isError = issues.any Issue.isError := by
  rcases Nat.lt_or_ge (issues.countP Issue.isError) limit with hfew | hmany
  · rw [cut_of_lt (by omega)]
  · obtain ⟨before, issue, after, rfl, herror, -, hcut⟩ :=
      exists_cut_of_le hlimit (Nat.le_trans hmany (Nat.le_add_left _ 0))
    simp [hcut, herror]

theorem countP_cut_le (hlimit : 0 < limit) (issues : List Issue) :
    (cut limit 0 issues).1.countP Issue.isError ≤ limit := by
  rcases Nat.lt_or_ge (issues.countP Issue.isError) limit with hfew | hmany
  · rw [cut_of_lt (by omega)]
    exact Nat.le_of_lt hfew
  · exact Nat.le_of_eq (cut_of_le hlimit hmany).1.countP_eq

theorem issues_validate (validator : Validator) (ctx : Context) (options : LintOptions) (registry : Registry)
    (id : String) (version : Nat) : (validator.validate ctx options registry id version).1.issues =
      (validator.run ctx options registry).1.1 := rfl

/-- **Verdicts of runs with a limit.** A limit leaves the verdict of a validation as it is exactly if it is at least
one, or the document is valid, or the first of all findings is an error. The findings that are kept have no more
errors than the limit exactly if it is at least one, or the first of all findings is no error. -/
theorem validate_of_limit (validator : Validator) (ctx : Context) (options : LintOptions) (registry : Registry)
    (id : String) (version limit : Nat) :
    let whole := (validator.validate ctx (options.withLimit none) registry id version).1
    let kept := (validator.validate ctx (options.withLimit (some limit)) registry id version).1
    (kept.valid = whole.valid ↔
      0 < limit ∨ whole.valid = true ∨ whole.issues.head?.any Issue.isError = true) ∧
    (kept.errorCount ≤ limit ↔ 0 < limit ∨ whole.issues.head?.any Issue.isError = false) := by
  intro whole kept
  have hwhole : whole.issues = (findings ctx options validator.rules registry).1 := by
    rw [issues_validate, run_withLimit_none]
  have hkept : kept.issues = (cut limit 0 whole.issues).1 := by
    rw [hwhole, issues_validate, run_withLimit_some]
  simp only [Validation.valid, Validation.errorCount, hkept]
  cases limit with
  | zero =>
    cases whole.issues with
    | nil => simp [cut]
    | cons first rest => cases herror : first.isError <;> simp [cut_zero, herror]
  | succ limit =>
    have hsome : 0 < limit + 1 := Nat.succ_pos limit
    rw [any_cut hsome]
    exact ⟨iff_of_true rfl (.inl hsome), iff_of_true (countP_cut_le hsome _) (.inl hsome)⟩

/-- A limit of zero hides the error behind a warning. -/
theorem validate_loses_error :
    let text := "\x7b\"type\":\"Microsoft.Authorization/policyDefinitions\"," ++
      "\"properties\":\x7b\"policyRule\":\x7b\"then\":\x7b\"effect\":\"[parameters('e')]\"\x7d\x7d\x7d\x7d"
    ∃ ctx, Context.ofDocument? (.ofText text) = some ctx ∧
      let validate (limit? : Option Nat) := ((⟨some .definition⟩ : Validator).validate ctx
        (LintOptions.default.withLimit limit?) (.new none) "doc" 1).1
      (validate none).valid = false ∧ (validate (some 0)).valid = true := by
  intro text
  have hread : (Context.ofDocument? (.ofText text)).map (fun ctx =>
      let validate (limit? : Option Nat) := ((⟨some .definition⟩ : Validator).validate ctx
        (LintOptions.default.withLimit limit?) (.new none) "doc" 1).1
      ((validate none).valid, (validate (some 0)).valid)) = some (false, true) := by decide +kernel
  obtain ⟨ctx, hctx, hread⟩ := Option.map_eq_some_iff.mp hread
  exact ⟨ctx, hctx, Prod.mk.inj hread⟩

end Validator

end PolicyAudit
