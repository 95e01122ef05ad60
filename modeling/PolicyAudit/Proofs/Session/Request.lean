-- SUMMARY: A fix that is asked for by code and range is the fix of the finding with that code and range.
import PolicyAudit.Proofs.Lint.Run
import PolicyAudit.Proofs.Session.Act

/-! ## Requests for fixes -/

namespace PolicyAudit

variable {s : Service} {text id code : String} {version : Nat} {range : Range} {v : Validation}
variable {ctx : Context} {validator : Validator} {options : LintOptions} {registry : Registry}
variable {issue : Issue}

theorem Validator.kind?_of_mem_all (h : validator ∈ Validator.all) :
    ∃ kind, validator = ⟨some kind⟩ := by
  obtain ⟨kind, -, rfl⟩ := List.mem_map.mp h
  exact ⟨kind, rfl⟩

/-- A request is for the finding that the current validation has for the code and the range. -/
theorem Service.fst_requestFix (hstored : s.document? id = some ⟨text, version⟩)
    (hcurrent : (s.validate id text version).1 = some v) :
    (s.requestFix id code range).1 =
      (v.find? code range).bind (editFor? s.options text v.kind?) := by
  rw [fst_requestFix_of_some hstored, hcurrent, Option.bind_some, options_validate]

/-- **Fixes hit what they are asked for.** In the validation of a clean document each finding of a code
that can be fixed is the only one with its code and range. It is found by them, and a request that names
them is answered with its fix. -/
theorem Service.requestFix_of_mem_issues (hclean : (Document.ofText text).isClean = true)
    (hctx : Context.ofDocument? (.ofText text) = some ctx) (hvalidator : validator ∈ Validator.all)
    (hissue : issue ∈ (validator.validate ctx options registry id version).1.issues)
    (hfix : ∃ rule : Rule, issue.code ∈ rule.fixableCodes) :
    let v := (validator.validate ctx options registry id version).1
    v.find? issue.code issue.range = some issue ∧
      v.issues.filter (fun other => other.code = issue.code && other.range = issue.range) = [issue] ∧
      ∀ s : Service, s.options = options → s.document? id = some ⟨text, version⟩ →
        (s.validate id text version).1 = some v →
        (s.requestFix id issue.code issue.range).1 = validator.fix? ctx options issue := by
  intro v
  have honly := Validator.filter_issues hclean hctx hissue hfix
  have hfind : v.find? issue.code issue.range = some issue := Validation.find?_of_filter honly
  refine ⟨hfind, honly, fun s hoptions hstored hcurrent => ?_⟩
  obtain ⟨kind, rfl⟩ := Validator.kind?_of_mem_all hvalidator
  rw [fst_requestFix hstored hcurrent, hfind, Option.bind_some, hoptions]
  exact editFor?_of_context hctx

/-- The names of two assignments in a tree are too long. The tree is stored and not yet validated when the fix of
the second one is asked for. -/
theorem Service.requestFix_of_mem_issues_of_child :
    let text := "\x7b\"nodeName\": \"é\", \"assignment\": \x7b\"name\": \"abcdefghijklmnopqrstuvwxyz\"\x7d, " ++
      "\"children\":[\x7b\"nodeName\": \"b\", \"assignment\": \x7b\"name\": \"abcdefghijklmnopqrstuvwxyz\"\x7d\x7d]\x7d"
    let options : LintOptions := ⟨["schema-validation", "assignment-scope"], [], false, none⟩
    let validator : Validator := ⟨some .assignment⟩
    ∃ ctx first second, Context.ofDocument? (.ofText text) = some ctx ∧
      let v := (validator.validate ctx options (.new none) "tree" 1).1
      v.issues = [first, second] ∧ first.code = Code.nameLength ∧ second.code = Code.nameLength ∧
        v.find? second.code second.range = some second ∧
        v.issues.filter (fun other => other.code = second.code && other.range = second.range) = [second] ∧
        ((Service.new (.new none) options 500 256).didChange "tree" text 1
          |>.requestFix "tree" second.code second.range).1 = validator.fix? ctx options second := by
  intro text options validator
  have hclean : (Document.ofText text).isClean = true := by decide +kernel
  have hselect : Validator.select? (.ofText text) = some validator := by decide +kernel
  have hcodes : (Context.ofDocument? (.ofText text)).map (fun ctx =>
      (validator.validate ctx options (.new none) "tree" 1).1.issues.map (·.code)) =
        some [Code.nameLength, Code.nameLength] := by decide +kernel
  obtain ⟨ctx, hctx, hcodes⟩ := Option.map_eq_some_iff.mp hcodes
  obtain ⟨first, rest, hissues, hfirst, hrest⟩ := List.map_eq_cons_iff.mp hcodes
  obtain ⟨second, rfl, hsecond⟩ := List.map_eq_singleton_iff.mp hrest
  have hissue : second ∈ (validator.validate ctx options (.new none) "tree" 1).1.issues := by simp [hissues]
  obtain ⟨hfind, honly, hrequest⟩ := requestFix_of_mem_issues hclean hctx (by decide) hissue
    ⟨.nameLength, by rw [hsecond]; decide⟩
  clear_value text
  refine ⟨ctx, first, second, hctx, hissues, hfirst, hsecond, hfind, honly, hrequest _ rfl rfl ?_⟩
  refine (congrArg Prod.fst (validate_of_miss ?_)).trans ?_
  · intro r hcached
    cases hcached
  · exact fresh?_eq_some_iff.mpr ⟨hclean, validator, ctx, hselect, hctx, rfl⟩

end PolicyAudit
