-- SUMMARY: What a validation finds in a repairable document, and that each repairable finding has a fix.
import PolicyAudit.Proofs.Lint.Repairable

/-! ## Findings on a tree of assignments -/

namespace PolicyAudit

open Assignment

namespace Code

/-- The codes of the findings on a tree of assignments that have fixes. -/
def repairable : List String := [nameLength, missingScope]

/-- The codes of the findings on a tree of assignments that its rules leave to be resolved by hand. -/
def standing : List String := [invalidScope, conflictingReferences]

end Code

/-- Every rule runs, and to its end. -/
structure LintOptions.RunsAll (options : LintOptions) : Prop where
  unlimited : options.maxErrors? = none
  enabled : ∀ rule : Rule, options.isDisabled rule.id = false

namespace Validation

/-- The number of findings with one of some codes. -/
def count (codes : List String) (v : Validation) : Nat := v.issues.countP (·.code ∈ codes)

/-- What is found with one of some codes, by codes and paths. -/
def marks (codes : List String) (v : Validation) : List (String × Option Path) :=
  (v.issues.filter (·.code ∈ codes)).map Issue.mark

end Validation

namespace Validator

variable {ctx : Context} {options : LintOptions} {issue : Issue} {validator : Validator} {rule : Rule}

/-- The fix of a rule that runs is that of the validator for assignments. -/
theorem fix?_of_fix {edit : Edit} (hrule : rule ∈ Kind.assignment.rules) (howns : rule.Owns issue)
    (hruns : options.isDisabled rule.id = false) (hfix : rule.fix ctx issue = .ok (some edit)) :
    (⟨some .assignment⟩ : Validator).fix? ctx options issue = some edit := by
  have hrules : ∀ rule ∈ Kind.assignment.rules, (⟨some .assignment⟩ : Validator).rule? rule.id = some rule := by
    decide +kernel
  have hallowed : rule.canFix issue = true ∧ ¬options.isDisabled rule.id = true := by
    refine ⟨?_, by simp [hruns]⟩
    unfold Rule.fix at hfix
    split at hfix
    · assumption
    · cases hfix
  rw [fix?, howns.ruleId, hrules rule hrule]
  dsimp only
  rw [if_pos hallowed, hfix]

/-- What is fixed is of a code that its rule fixes. -/
theorem exists_rule_of_fix? {edit : Edit} (h : validator.fix? ctx options issue = some edit) :
    ∃ rule ∈ validator.rules, issue.code ∈ rule.fixableCodes := by
  unfold fix? at h
  split at h
  · cases h
  · next rule hrule =>
    split at h
    · next hcan =>
      have hcode := hcan.1
      simp only [Rule.canFix, Bool.and_eq_true, decide_eq_true_eq] at hcode
      exact ⟨rule, List.mem_of_find?_eq_some hrule, hcode.2⟩
    · cases h

/-- Where every rule runs to its end, the findings are those about the schema and those of the three checks. -/
theorem exists_issues_eq (hruns : options.RunsAll) (ctx : Context) (registry : Registry) (id : String)
    (version : Nat) :
    ∃ others, Rule.schemaValidation.OwnsAll others ∧
      ((⟨some .assignment⟩ : Validator).validate ctx options registry id version).1.issues =
        (others ++ (checkNames ctx ++ (checkScopes ctx ++ checkReferences ctx))).map (adjust options) := by
  have hlimited (issues : List Issue) : (limited options issues).1 = issues := by rw [limited, hruns.unlimited]
  refine ⟨(Rule.schemaValidation.check ctx registry).1.toOption.getD [], ?_, ?_⟩
  · cases hcheck : (Rule.schemaValidation.check ctx registry).1 with
    | error e => exact .nil _
    | ok issues => exact Rule.ownsAll_check hcheck
  · have hfindings : ((⟨some .assignment⟩ : Validator).validate ctx options registry id version).1.issues =
        (findings ctx options Kind.assignment.rules registry).1 := hlimited _
    rw [hfindings, Kind.rules, fst_findings_cons (hruns.enabled _), fst_findings_cons (hruns.enabled _),
      fst_findings_cons (hruns.enabled _), fst_findings_cons (hruns.enabled _)]
    simp only [List.map_append]
    simp [Rule.check, findings, Except.toOption]

end Validator

/-! ## Validations of repairable documents -/

/-- A validation finds in a repairable document what there is to find. -/
structure Validation.Finds (v : Validation) (options : LintOptions) (tree : Tree) (text : String) : Prop where
  kind : v.kind? = some .assignment
  issues : ∃ others, Rule.schemaValidation.OwnsAll others ∧
    v.issues = (others ++ (checkNames ⟨.ofText text, tree.toJson⟩ ++
      (checkScopes ⟨.ofText text, tree.toJson⟩ ++ checkReferences ⟨.ofText text, tree.toJson⟩))).map
        (Validator.adjust options)

variable {tree : Tree} {text : String} {options : LintOptions} {v : Validation} {issue found : Issue}
variable {ctx : Context} {part : Part} {node : Node} {rule : Rule}

namespace Validation.Finds

/-- Of codes that are not about the schema, a validation has those of the report. -/
theorem marks_eq (h : v.Finds options tree text) {codes : List String}
    (hcodes : ∀ code ∈ Rule.schemaValidation.codes, code ∉ codes) :
    v.marks codes = (Repairable.reported tree text).filter (·.1 ∈ codes) := by
  obtain ⟨others, howns, hissues⟩ := h.issues
  have hnone : others.filter (fun issue => issue.code ∈ codes) = [] := by
    refine List.filter_eq_nil_iff.mpr fun issue hissue => ?_
    simpa using hcodes _ (howns issue hissue).code
  rw [marks, hissues, List.filter_map, List.map_map, Repairable.reported, report, List.filter_map]
  have hadjust : Issue.mark ∘ Validator.adjust options = Issue.mark := rfl
  have hcode : (fun issue : Issue => decide (issue.code ∈ codes)) ∘ Validator.adjust options =
      fun issue => decide (issue.code ∈ codes) := rfl
  rw [hadjust, hcode, List.filter_append, hnone, List.nil_append]
  rfl

theorem count_eq (h : v.Finds options tree text) {codes : List String}
    (hcodes : ∀ code ∈ Rule.schemaValidation.codes, code ∉ codes) :
    v.count codes = (Repairable.reported tree text).countP (·.1 ∈ codes) := by
  rw [List.countP_eq_length_filter, ← h.marks_eq hcodes, marks, List.length_map, count,
    List.countP_eq_length_filter]

end Validation.Finds

/-! ## Fixes of repairable findings -/

theorem Rule.Owns.canFix (h : rule.Owns issue) (hcode : issue.code ∈ rule.fixableCodes) :
    rule.canFix issue = true := by
  rw [Rule.canFix, Bool.and_eq_true, decide_eq_true_eq, decide_eq_true_eq]
  exact ⟨h.ruleId, hcode⟩

theorem Assignment.of_mem_nameIssues {name : String} (h : issue ∈ nameIssues ctx part name) :
    maxNameLength < name.length ∧ issue.path? = Path.ofJson? part.path.toJson := by
  rcases Nat.lt_or_ge maxNameLength name.length with hlong | hshort
  · refine ⟨hlong, ?_⟩
    have hmark := List.mem_map_of_mem (f := Issue.mark) h
    rw [mark_nameIssues_of_lt hlong, List.mem_singleton] at hmark
    exact (Prod.mk.inj hmark).2
  · rw [nameIssues_of_le hshort] at h
    cases h

theorem Assignment.of_mem_missingScopeIssues (h : issue ∈ missingScopeIssues ctx node) :
    node.leaf = true ∧ node.covered = false ∧ issue.path? = Path.ofJson? node.part.path.toJson := by
  unfold missingScopeIssues at h
  split at h
  · next hbare =>
    rw [Bool.and_eq_true, Bool.not_eq_true'] at hbare
    rw [List.mem_singleton.mp h]
    exact ⟨hbare.1, hbare.2, Issue.path?_of_data rfl⟩
  · cases h

namespace Repairable

/-- The fix of a finding takes one repairable thing away. -/
def Mends (tree : Tree) (text : String) (edit : Edit) : Prop :=
  ∀ edited, edit.apply text = .ok edited → ∃ tree' mark, Repairable tree' edited ∧
    mark.1 ∈ Code.repairable ∧ Loses mark (reported tree text) (reported tree' edited)

theorem exists_fix_of_name (h : Repairable tree text) (hfound : found ∈ checkNames ⟨.ofText text, tree.toJson⟩)
    (options : LintOptions) :
    ∃ edit, Rule.nameLength.fix ⟨.ofText text, tree.toJson⟩ (Validator.adjust options found) = .ok (some edit) ∧
      Mends tree text edit := by
  have howns := ownsAll_checkNames _ found hfound
  obtain ⟨node, hnode, hfound⟩ := List.mem_flatMap.mp hfound
  obtain ⟨⟨part, name⟩, hname, hfound⟩ := List.mem_flatMap.mp hfound
  obtain ⟨hlong, hpath⟩ := of_mem_nameIssues hfound
  have hpath : (Validator.adjust options found).path? = Path.ofJson? part.path.toJson := hpath
  obtain ⟨edit, hedit, hmends⟩ := h.exists_fixName hnode hname hlong hpath
  have hcan : Rule.nameLength.canFix (Validator.adjust options found) = true :=
    Rule.Owns.canFix ⟨howns.ruleId, howns.code⟩ howns.code
  refine ⟨edit, by rw [Rule.fix, if_pos hcan, hedit], fun edited happly => ?_⟩
  obtain ⟨tree', hdoc, hloses⟩ := hmends edited happly
  exact ⟨tree', _, hdoc, List.mem_cons_self, hloses⟩

theorem exists_fix_of_scope (h : Repairable tree text) (hfound : found ∈ checkScopes ⟨.ofText text, tree.toJson⟩)
    (hcode : found.code ∈ Rule.assignmentScope.fixableCodes) (options : LintOptions) :
    ∃ edit, Rule.assignmentScope.fix ⟨.ofText text, tree.toJson⟩ (Validator.adjust options found) = .ok (some edit) ∧
      Mends tree text edit := by
  have howns := ownsAll_checkScopes _ found hfound
  obtain ⟨node, hnode, hfound⟩ := List.mem_flatMap.mp hfound
  rcases List.mem_append.mp hfound with hmissing | hown
  · obtain ⟨hleaf, hcovered, hpath⟩ := of_mem_missingScopeIssues hmissing
    have hpath : (Validator.adjust options found).path? = Path.ofJson? node.part.path.toJson := hpath
    obtain ⟨edit, hedit, hmends⟩ := h.exists_fixScope hnode hleaf hcovered hpath
    have hcan : Rule.assignmentScope.canFix (Validator.adjust options found) = true :=
      Rule.Owns.canFix ⟨howns.ruleId, howns.code⟩ hcode
    refine ⟨edit, by rw [Rule.fix, if_pos hcan, hedit], fun edited happly => ?_⟩
    obtain ⟨tree', hdoc, hloses⟩ := hmends edited happly
    exact ⟨tree', _, hdoc, List.mem_cons_of_mem _ List.mem_cons_self, hloses⟩
  · exact absurd ⟨.assignmentScope, hcode⟩ (not_fixable_ownScopeIssues hown)

/-- A repairable finding has a fix. That leaves a repairable document of which one such thing less is
reported. -/
theorem exists_fix? (h : Repairable tree text) (hfinds : v.Finds options tree text)
    (hruns : options.RunsAll) (hissue : issue ∈ v.issues) (hcode : issue.code ∈ Code.repairable) :
    ∃ edit, (⟨some .assignment⟩ : Validator).fix? ⟨.ofText text, tree.toJson⟩ options issue = some edit ∧
      Mends tree text edit := by
  obtain ⟨others, howns, hissues⟩ := hfinds.issues
  rw [hissues] at hissue
  obtain ⟨found, hfound, rfl⟩ := List.mem_map.mp hissue
  have hcode : found.code ∈ Code.repairable := hcode
  have hnot {rule : Rule} (howns : rule.Owns found) (hcodes : ∀ code ∈ rule.codes, code ∉ Code.repairable) :
      False := hcodes _ howns.code hcode
  rcases List.mem_append.mp hfound with hothers | hfound
  · exact (hnot (howns found hothers) (by decide)).elim
  rcases List.mem_append.mp hfound with hnames | hfound
  · have howns := ownsAll_checkNames _ found hnames
    obtain ⟨edit, hfix, hmends⟩ := h.exists_fix_of_name hnames options
    exact ⟨edit, Validator.fix?_of_fix (by decide) ⟨howns.ruleId, howns.code⟩ (hruns.enabled _) hfix, hmends⟩
  rcases List.mem_append.mp hfound with hscopes | hreferences
  · have howns := ownsAll_checkScopes _ found hscopes
    have hfixable : ∀ code ∈ Rule.assignmentScope.codes, code ∈ Code.repairable →
        code ∈ Rule.assignmentScope.fixableCodes := by decide
    obtain ⟨edit, hfix, hmends⟩ := h.exists_fix_of_scope hscopes (hfixable _ howns.code hcode) options
    exact ⟨edit, Validator.fix?_of_fix (by decide) ⟨howns.ruleId, howns.code⟩ (hruns.enabled _) hfix, hmends⟩
  · exact (hnot (ownsAll_checkReferences _ found hreferences) (by decide)).elim

end Repairable

end PolicyAudit
