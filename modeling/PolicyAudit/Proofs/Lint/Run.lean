-- SUMMARY: The findings of a run come from its rules, and those that can be fixed have ranges of their own.
import PolicyAudit.Proofs.Lint.Apart
import PolicyAudit.Proofs.Lint.Resolution
import PolicyAudit.Proofs.Syntax.Path

/-! ## Clean documents -/

namespace PolicyAudit

namespace Context

variable {text : String} {ctx : Context} {part : Part} {a b : Issue}

theorem doc_of_ofDocument? {doc : Document} (h : ofDocument? doc = some ctx) : ctx.doc = doc := by
  obtain ⟨value, -, rfl⟩ := Option.map_eq_some_iff.mp h
  rfl

/-- In a document that was read without a fault, what stands in the value stands in the tree. -/
theorem exists_tree (hclean : (Document.ofText text).isClean = true)
    (hctx : ofDocument? (.ofText text) = some ctx) (h : part.StandsIn ctx.value) :
    ∃ tree, (Document.ofText text).at? part.path = some tree ∧ tree.toJson = part.value := by
  obtain ⟨-, tree, htree⟩ := Document.isClean_iff.mp hclean
  obtain ⟨value, hvalue, rfl⟩ := Option.map_eq_some_iff.mp hctx
  rw [Document.value?, htree, Option.map_some, Option.some.injEq] at hvalue
  subst hvalue
  obtain ⟨sub, hsub, hpart⟩ := (Document.whole_of_isClean hclean htree).exists_at? h
  exact ⟨sub, by rw [Document.at?, htree]; exact hsub, hpart⟩

theorem namesApart (hclean : (Document.ofText text).isClean = true)
    (hctx : ofDocument? (.ofText text) = some ctx) (h : part.StandsIn ctx.value) :
    part.value.NamesApart := by
  obtain ⟨tree, -, hvalue⟩ := exists_tree hclean hctx h
  exact hvalue ▸ tree.namesApart_toJson

/-- Findings with one range are about one path. -/
theorem PointsAt.path_eq {part' : Part} (hclean : (Document.ofText text).isClean = true)
    (hctx : ofDocument? (.ofText text) = some ctx) (ha : ctx.PointsAt part a)
    (hb : ctx.PointsAt part' b) (h : a.range = b.range) : part.path = part'.path := by
  obtain ⟨tree, htree, -⟩ := exists_tree hclean hctx ha.stands
  obtain ⟨tree', htree', -⟩ := exists_tree hclean hctx hb.stands
  rw [ha.range, hb.range, doc_of_ofDocument? hctx, Document.rangeAt, htree, Document.rangeAt, htree'] at h
  exact Document.path_eq_of_rangeOf htree htree' h

end Context

/-! ## Findings of a run -/

namespace Validator

variable {ctx : Context} {options : LintOptions} {rule : Rule} {rules : List Rule} {registry : Registry}
variable {issue : Issue} {issues : List Issue} {validator : Validator} {id : String} {version : Nat}

theorem findings_cons_of_disabled (h : options.isDisabled rule.id = true) (rest : List Rule)
    (registry : Registry) :
    findings ctx options (rule :: rest) registry = findings ctx options rest registry := by
  rw [findings, if_pos (by rw [h, Bool.or_true])]

/-- What a rule finds when it runs, and nothing where it fails. -/
theorem fst_findings_cons (h : options.isDisabled rule.id = false) (rest : List Rule)
    (registry : Registry) :
    (findings ctx options (rule :: rest) registry).1 =
      ((rule.check ctx registry).1.toOption.getD []).map (adjust options) ++
        (findings ctx options rest (rule.check ctx registry).2).1 := by
  rw [findings, if_neg (by rw [h]; exact Bool.false_ne_true)]

theorem snd_findings_cons (h : options.isDisabled rule.id = false) (rest : List Rule)
    (registry : Registry) :
    (findings ctx options (rule :: rest) registry).2 =
      (findings ctx options rest (rule.check ctx registry).2).2 := by
  rw [findings, if_neg (by rw [h]; exact Bool.false_ne_true)]

/-- A finding is one of a rule that ran, but for its severity. -/
theorem mem_findings (h : issue ∈ (findings ctx options rules registry).1) :
    ∃ rule ∈ rules, options.isDisabled rule.id = false ∧ ∃ registry issues found,
      (rule.check ctx registry).1 = .ok issues ∧ found ∈ issues ∧ issue = adjust options found := by
  induction rules generalizing registry with
  | nil => cases h
  | cons rule rest ih =>
    cases hdisabled : options.isDisabled rule.id with
    | true =>
      rw [findings_cons_of_disabled hdisabled] at h
      obtain ⟨other, hother, hfound⟩ := ih h
      exact ⟨other, List.mem_cons_of_mem rule hother, hfound⟩
    | false =>
      rw [fst_findings_cons hdisabled] at h
      rcases List.mem_append.mp h with hown | hrest
      · obtain ⟨found, hfound, rfl⟩ := List.mem_map.mp hown
        cases hcheck : (rule.check ctx registry).1 with
        | error e => rw [hcheck] at hfound; cases hfound
        | ok issues =>
          rw [hcheck] at hfound
          exact ⟨rule, List.mem_cons_self, hdisabled, registry, issues, found, hcheck, hfound, rfl⟩
      · obtain ⟨other, hother, hfound⟩ := ih hrest
        exact ⟨other, List.mem_cons_of_mem rule hother, hfound⟩

theorem owns_of_mem_findings (h : issue ∈ (findings ctx options rules registry).1) :
    ∃ rule ∈ rules, rule.Owns issue := by
  obtain ⟨rule, hrule, -, registry, issues, found, hcheck, hfound, rfl⟩ := mem_findings h
  have howns := Rule.ownsAll_check hcheck found hfound
  exact ⟨rule, hrule, howns.ruleId, howns.code⟩

theorem apart_findings (hrules : rules.Nodup) (registry : Registry) :
    (findings ctx options rules registry).1.Pairwise Issue.Apart := by
  induction rules generalizing registry with
  | nil => exact .nil
  | cons rule rest ih =>
    obtain ⟨hnot, hrest⟩ := List.nodup_cons.mp hrules
    cases hdisabled : options.isDisabled rule.id with
    | true =>
      rw [findings_cons_of_disabled hdisabled]
      exact ih hrest registry
    | false =>
      rw [fst_findings_cons hdisabled]
      cases hcheck : (rule.check ctx registry).1 with
      | error e => exact ih hrest _
      | ok issues =>
        have howns := Rule.ownsAll_check hcheck
        refine List.pairwise_append.mpr ⟨?_, ih hrest _, fun a ha b hb => .of_code_ne ?_⟩
        · exact List.pairwise_map.mpr (Rule.apart_check hcheck)
        · -- a code that two rules shared would make them one rule
          obtain ⟨found, hfound, rfl⟩ := List.mem_map.mp ha
          obtain ⟨other, hother, howner⟩ := owns_of_mem_findings hb
          intro heq
          have hcode : found.code ∈ other.codes := heq ▸ howner.code
          exact hnot (Rule.eq_of_mem_codes (howns found hfound).code hcode ▸ hother)

/-! ## Limits -/

theorem cut_isPrefix (limit errors : Nat) (issues : List Issue) :
    (cut limit errors issues).1 <+: issues := by
  fun_induction cut limit errors issues with
  | case1 => exact List.prefix_rfl
  | case2 errors issue rest => exact List.prefix_append [issue] rest
  | case3 errors issue rest errors' _ kept truncated hcut ih =>
    rw [hcut] at ih
    exact List.cons_prefix_cons.mpr ⟨rfl, ih⟩

theorem limited_isPrefix (options : LintOptions) (issues : List Issue) :
    (limited options issues).1 <+: issues := by
  unfold limited
  cases options.maxErrors? with
  | none => exact List.prefix_rfl
  | some limit => exact cut_isPrefix limit 0 issues

theorem issues_isPrefix (validator : Validator) (ctx : Context) (options : LintOptions)
    (registry : Registry) (id : String) (version : Nat) :
    (validator.validate ctx options registry id version).1.issues <+:
      (findings ctx options validator.rules registry).1 := limited_isPrefix ..

theorem rules_nodup (validator : Validator) : validator.rules.Nodup := by
  rcases validator with ⟨_ | kind⟩
  · exact .nil
  · cases kind <;> decide

/-! ## Ranges -/

/-- In a document that was read without a fault a fixable finding points at a part. -/
theorem pointsAt_of_mem_findings
    (hapart : ∀ part : Part, part.StandsIn ctx.value → part.value.NamesApart)
    (h : issue ∈ (findings ctx options rules registry).1) (hfix : Code.Fixable issue.code) :
    ∃ part, ctx.PointsAt part issue := by
  obtain ⟨rule, -, -, registry, issues, found, hcheck, hfound, rfl⟩ := mem_findings h
  have hrule : rule ≠ .schemaValidation := by
    rintro rfl
    have hnone := (Rule.fixable_iff (Rule.ownsAll_check hcheck found hfound).code).mp hfix
    cases hnone
  obtain ⟨issues', hcheck', hpoints⟩ := Rule.points_check hrule registry hapart
  obtain rfl := Except.ok.inj (hcheck.symm.trans hcheck')
  obtain ⟨part, hpart⟩ := hpoints found hfound
  exact ⟨part, hpart.stands, hpart.path, hpart.range, hpart.quotes⟩

variable {text : String}

/-- Of the findings of a validation, no two of one fixable code have one range. -/
theorem range_ne_of_isClean (hclean : (Document.ofText text).isClean = true)
    (hctx : Context.ofDocument? (.ofText text) = some ctx) (validator : Validator)
    (options : LintOptions) (registry : Registry) (id : String) (version : Nat) :
    (validator.validate ctx options registry id version).1.issues.Pairwise fun a b =>
      Code.Fixable a.code → a.code = b.code → a.range ≠ b.range := by
  have hkept := validator.issues_isPrefix ctx options registry id version
  have hpoints : ∀ issue ∈ (validator.validate ctx options registry id version).1.issues,
      Code.Fixable issue.code → ∃ part, ctx.PointsAt part issue := fun issue hissue =>
    pointsAt_of_mem_findings (fun part hpart => Context.namesApart hclean hctx hpart)
      (hkept.subset hissue)
  have hapart := (apart_findings validator.rules_nodup registry).sublist hkept.sublist
  refine hapart.imp_of_mem fun {a b} ha hb hab hfix hcode hrange => ?_
  obtain ⟨part, hparta⟩ := hpoints a ha hfix
  obtain ⟨part', hpartb⟩ := hpoints b hb (hcode ▸ hfix)
  refine hab hfix hcode part.path hparta.path ?_
  rw [Context.PointsAt.path_eq hclean hctx hparta hpartb hrange]
  exact hpartb.path

/-! ## Finding a finding -/

theorem filter_eq_singleton {α : Type} {p : α → Bool} {a : α} {l : List α} (hmem : a ∈ l)
    (hp : p a = true) (hapart : l.Pairwise fun x y => p x = true → p y = true → False) :
    l.filter p = [a] := by
  obtain ⟨before, after, rfl⟩ := List.append_of_mem hmem
  obtain ⟨-, hafter, hbefore⟩ := List.pairwise_append.mp hapart
  have hnone : before.filter p = [] :=
    List.filter_eq_nil_iff.mpr fun x hx hpx => hbefore x hx a List.mem_cons_self hpx hp
  have hnone' : after.filter p = [] :=
    List.filter_eq_nil_iff.mpr fun y hy hpy => (List.pairwise_cons.mp hafter).1 y hy hp hpy
  rw [List.filter_append, List.filter_cons_of_pos hp, hnone, hnone', List.nil_append]

theorem filter_issues (hclean : (Document.ofText text).isClean = true)
    (hctx : Context.ofDocument? (.ofText text) = some ctx)
    (hissue : issue ∈ (validator.validate ctx options registry id version).1.issues)
    (hfix : Code.Fixable issue.code) :
    (validator.validate ctx options registry id version).1.issues.filter
      (fun other => other.code = issue.code && other.range = issue.range) = [issue] := by
  refine filter_eq_singleton hissue (by simp) ?_
  refine (range_ne_of_isClean hclean hctx ..).imp fun {a b} hab ha hb => ?_
  simp only [Bool.and_eq_true, decide_eq_true_eq] at ha hb
  exact hab (ha.1 ▸ hfix) (ha.1.trans hb.1.symm) (ha.2.trans hb.2.symm)

end Validator

/-- The finding that alone has its code and range is the one found by them. -/
theorem Validation.find?_of_filter {v : Validation} {issue : Issue} {code : String} {range : Range}
    (h : v.issues.filter (fun other => other.code = code && other.range = range) = [issue]) :
    v.find? code range = some issue := by
  have hfirst : (v.issues.filter (·.code = code)).find? (·.range = range) = some issue := by
    have hhead := congrArg List.head? h
    rw [List.head?_filter, List.head?_cons] at hhead
    simpa only [List.find?_filter, Bool.decide_and, Bool.decide_eq_true] using hhead
  rw [find?, hfirst, Option.some_or]

end PolicyAudit
