-- SUMMARY: A fix makes the same change of the value of a document however the value is written.
import PolicyAudit.Proofs.Lint.Changing
import PolicyAudit.Proofs.Lint.Formatting
import PolicyAudit.Proofs.Lint.Mending

/-! ## What is missing -/

namespace PolicyAudit

open Document

namespace Issue

/-- What a finding says is missing is not there. -/
structure Misses (value : Json) (issue : Issue) : Prop where
  scope : issue.code = Code.missingScope → ∀ path part, issue.path? = some path →
    value.at? path = some part → part.get? "scope" = none
  parameter : issue.code = Code.missingEffectParameter → ∀ parameter,
    issue.text? "parameter" = some parameter → Effect.isDeclared value parameter = false

end Issue

variable {text name : String} {path : Path} {value part : Json} {ctx : Context} {issue : Issue}
variable {issues : List Issue} {rule : Rule} {registry : Registry}

theorem Assignment.exists_bare_of_mem_checkScopes (h : issue ∈ checkScopes ctx)
    (hcode : issue.code = Code.missingScope) : ∃ node ∈ nodes ctx.value, node.leaf = true ∧ node.covered = false ∧
      issue.path? = Path.ofJson? node.part.path.toJson := by
  obtain ⟨node, hnode, hissue⟩ := List.mem_flatMap.mp h
  rcases List.mem_append.mp hissue with hmissing | hown
  · exact ⟨node, hnode, of_mem_missingScopeIssues hmissing⟩
  · refine absurd ⟨.assignmentScope, ?_⟩ (not_fixable_ownScopeIssues hown)
    rw [hcode]
    decide

theorem Assignment.get?_scope_of_mem_checkScopes (h : issue ∈ checkScopes ctx) (hcode : issue.code = Code.missingScope)
    (hpath : issue.path? = some path) (hpart : ctx.value.at? path = some part) : part.get? "scope" = none := by
  obtain ⟨node, hnode, -, hbare, hnodePath⟩ := exists_bare_of_mem_checkScopes h hcode
  obtain rfl := Path.eq_of_ofJson?_toJson (hnodePath.symm.trans hpath)
  obtain rfl := Option.some.inj ((standsIn_nodes ctx.value node hnode).symm.trans hpart)
  exact Json.get?_of_field?_eq_none (field?_scope_of_bare hnode hbare) (by decide)

/-- The rule has one finding at most: the effect names a parameter that is not declared, or it is fixed while there
is a parameter for it. -/
theorem Effect.of_mem_check (h : issue ∈ check ctx) : check ctx = [issue] ∧
    ∃ part effect parameter, effectPart? ctx.value = some (part, effect) ∧
      issue.path? = Path.ofJson? part.path.toJson ∧ issue.text? "parameter" = some parameter ∧
      (issue.code = Code.missingEffectParameter ∧ parameterOf? effect = some parameter ∧
          isDeclared ctx.value parameter = false ∨
        issue.code = Code.fixedEffect ∧ parameterOf? effect = none ∧ isExpression effect = false ∧
          parameterFor? ctx.value effect = some parameter) := by
  unfold check at h ⊢
  split at h
  · cases h
  · next part effect hpart =>
    rw [hpart]
    dsimp only
    split at h
    · next parameter hname =>
      split at h
      · cases h
      · next hdeclared =>
        rw [if_neg hdeclared]
        obtain rfl := List.mem_singleton.mp h
        exact ⟨rfl, part, effect, parameter, rfl, rfl, rfl, .inl ⟨rfl, hname, Bool.eq_false_iff.mpr hdeclared⟩⟩
    · next hname =>
      split at h
      · cases h
      · next hexpression =>
        rw [if_neg hexpression]
        split at h
        · cases h
        · next parameter hfor =>
          obtain rfl := List.mem_singleton.mp h
          exact ⟨rfl, part, effect, parameter, rfl, rfl, rfl,
            .inr ⟨rfl, hname, Bool.eq_false_iff.mpr hexpression, hfor⟩⟩

theorem Effect.not_isDeclared_of_mem_check {parameter : String} (h : issue ∈ check ctx)
    (hcode : issue.code = Code.missingEffectParameter) (hname : issue.text? "parameter" = some parameter) :
    isDeclared ctx.value parameter = false := by
  obtain ⟨-, _, _, other, -, -, hother, ⟨-, -, hnone⟩ | ⟨hfixed, -⟩⟩ := of_mem_check h
  · obtain rfl := Option.some.inj (hother.symm.trans hname)
    exact hnone
  · exact absurd (hfixed.symm.trans hcode) (by decide)

theorem Rule.misses_check (h : (rule.check ctx registry).1 = .ok issues) :
    ∀ issue ∈ issues, issue.Misses ctx.value := by
  intro issue hissue
  have howns := (ownsAll_check h issue hissue).code
  constructor
  · intro hcode path part hpath hpart
    have hmem : Code.missingScope ∈ assignmentScope.codes := by decide
    obtain rfl := eq_of_mem_codes hmem (hcode ▸ howns)
    obtain rfl := Except.ok.inj h
    exact Assignment.get?_scope_of_mem_checkScopes hissue hcode hpath hpart
  · intro hcode parameter hname
    have hmem : Code.missingEffectParameter ∈ effectParameter.codes := by decide
    obtain rfl := eq_of_mem_codes hmem (hcode ▸ howns)
    obtain rfl := Except.ok.inj h
    exact Effect.not_isDeclared_of_mem_check hissue hcode hname

/-! ## Fixes -/

theorem Part.get?_of_field?_eq_none {part : Part} {field : Field} (h : part.field? field = none)
    (hname : name ∈ field.spellings) : part.value.get? name = none :=
  Json.get?_of_field?_eq_none (field?_value_eq_none h) hname

theorem Context.path?_of_requirePath (h : requirePath issue = .ok path) : issue.path? = some path := by
  unfold requirePath at h
  split at h
  · next found hfound => rw [hfound, Except.ok.inj h]
  · cases h

/-- A fix that looks up the path of a finding has no edit where the path leads nowhere. -/
theorem Uniform.of_path {fix : Context → Except AuditError (Option Edit)} (issue : Issue)
    (hneeds : ∀ ctx edit, fix ctx = .ok (some edit) → ∃ path tree, issue.path? = some path ∧
      ctx.doc.at? path = some tree)
    (h : ∀ path part, issue.path? = some path → value.at? path = some part → Uniform value fix) :
    Uniform value fix := by
  cases hissue : issue.path? with
  | none =>
    refine Or.inl fun text _ edit hedit => ?_
    obtain ⟨path, tree, hpath, -⟩ := hneeds _ _ hedit
    cases hissue.symm.trans hpath
  | some path =>
    cases hpart : value.at? path with
    | some part => exact h path part hissue hpart
    | none =>
      refine Or.inl fun text htext edit hedit => ?_
      obtain ⟨path', tree, hpath, htree⟩ := hneeds _ _ hedit
      obtain rfl := Option.some.inj (hissue.symm.trans hpath)
      cases (htext.at?_eq_none hpart).symm.trans htree

namespace Assignment

theorem uniform_fixName (value : Json) (issue : Issue) : Uniform value (fixName · issue) := by
  refine .of_path issue (fun ctx edit hedit => ?_) fun path part hissue hpart => ?_
  · unfold fixName at hedit
    split at hedit
    · cases hedit
    · next path hpath =>
      obtain ⟨tree, htree, -⟩ := Option.bind_eq_some_iff.mp (Except.ok.inj hedit)
      exact ⟨path, tree, Context.path?_of_requirePath hpath, htree⟩
  · cases hname : part.string? with
    | none =>
      refine .noEditAt hpart fun text tree htree hvalue => ?_
      rw [← hvalue, Tree.string?_toJson] at hname
      simp only [fixName, Context.requirePath, hissue, htree, Option.bind_some, hname, Option.map_none]
    | some name =>
      refine .replaceString (String.ofList (name.toList.take maxNameLength)) hpart fun text tree _ htree hvalue => ?_
      rw [← hvalue, Tree.string?_toJson] at hname
      exact fixName_of_at? hissue htree hname

theorem uniform_fixScope (hsorted : value.Sorted) (hmisses : issue.Misses value)
    (hcode : issue.code = Code.missingScope) : Uniform value (fixScope · issue) := by
  refine .of_path issue (fun ctx edit hedit => ?_) fun path part hissue hpart => ?_
  · unfold fixScope at hedit
    split at hedit
    · cases hedit
    · next path hpath =>
      split at hedit
      · cases hedit
      · next tree htree => exact ⟨path, tree, Context.path?_of_requirePath hpath, htree⟩
  · obtain ⟨hscope, hexact, -⟩ := plain_placeholderScope hsorted
    have hfresh := hmisses.scope hcode path part hissue hpart
    exact .insert _ _ hpart (fun _ => hfresh) hscope hexact fun text tree htree => fixScope_of_at? hissue htree

end Assignment

namespace Effect

theorem plain_declaration : declaration.Sorted ∧ declaration.Exact := by
  constructor
  · refine Json.sorted_ofMembers (List.forall_mem_cons.mpr ⟨.scalar _, List.forall_mem_cons.mpr ⟨?_, by simp⟩⟩)
    exact Json.sorted_ofMembers (by simp)
  · refine Json.exact_ofMembers (List.forall_mem_cons.mpr
      ⟨Json.exact_string _, List.forall_mem_cons.mpr ⟨?_, by simp [Scalar.Exact]⟩⟩)
    exact Json.exact_ofMembers (by simp [Scalar.Exact])

theorem get?_of_not_isDeclared {parameters : Part} {parameter : String}
    (hpart : (Part.properties value).field? .parameters = some parameters)
    (h : isDeclared value parameter = false) : parameters.value.get? parameter = none := by
  refine Option.eq_none_iff_forall_ne_some.mpr fun found hfound => ?_
  obtain ⟨members, hmembers, hmember⟩ := Json.object_of_get? hfound
  have hdeclared : parameters? value = some members := by
    rw [parameters?, Part.field?_value hpart, Option.bind_some, hmembers]
    rfl
  rw [isDeclared, hdeclared] at h
  have hnone := List.any_eq_false.mp h (parameter, found) (Keyed.mem_of_find? hmember)
  simp [Text.sameFolded] at hnone

theorem uniform_declare {parameter : String} (h : isDeclared value parameter = false) :
    Uniform value fun ctx => (declare ctx parameter).map some := by
  obtain ⟨hsorted, hexact⟩ := plain_declaration
  have hproperties := Part.standsIn_properties value
  cases hpart : (Part.properties value).field? .parameters with
  | some parameters =>
    refine .insert _ _ (hproperties.field? hpart) (fun _ => get?_of_not_isDeclared hpart h) hsorted hexact
      fun text tree htree => ?_
    simp only [declare, hpart, htree]
  | none =>
    refine .insert "parameters" (.object [(parameter, declaration)]) hproperties (fun _ => ?_) ?_ ?_
      fun text tree htree => ?_
    · exact Part.get?_of_field?_eq_none hpart (by decide)
    · exact .object (List.pairwise_singleton ..) (List.forall_mem_singleton.mpr hsorted)
    · exact .object (List.forall_mem_singleton.mpr hexact)
    · simp only [declare, hpart, htree]

theorem text?_of_requireParameter {parameter : String} (h : requireParameter issue = .ok parameter) :
    issue.text? "parameter" = some parameter := by
  unfold requireParameter at h
  split at h
  · next found hfound => rw [hfound, Except.ok.inj h]
  · cases h

/-- The codes of the findings of the rule decide between its two fixes. -/
theorem uniform_fix (hmisses : issue.Misses value) : Uniform value (fix · issue) := by
  unfold fix
  split
  · next hcode =>
    cases hparameter : requireParameter issue with
    | error e => exact .error e fun _ _ => rfl
    | ok parameter => exact uniform_declare (hmisses.parameter hcode parameter (text?_of_requireParameter hparameter))
  · split
    · cases hparameter : requireParameter issue with
      | error e => exact .error e fun _ _ => rfl
      | ok parameter =>
        refine .of_path issue (fun ctx edit hedit => ?_) fun path part hissue hpart => ?_
        · obtain ⟨tree, htree, -⟩ := Option.map_eq_some_iff.mp (Except.ok.inj hedit)
          obtain ⟨path, hpath, hat⟩ := Option.bind_eq_some_iff.mp htree
          exact ⟨path, tree, hpath, hat⟩
        · refine .replaceString (expression parameter) hpart fun text tree _ htree _ => ?_
          simp only [hissue, Option.bind_some, htree, Option.map_some]
    · exact .noEdit fun _ _ => rfl

end Effect

namespace Reference

theorem uniform_addId {entry : Part} (hentry : entry.StandsIn value) (id : String)
    {fix : Context → Except AuditError (Option Edit)}
    (h : ∀ text tree, (ofText text).at? entry.path = some tree →
      fix ⟨ofText text, value⟩ = addId ⟨ofText text, value⟩ tree entry id) : Uniform value fix := by
  cases hfield : entry.field? .referenceId with
  | none =>
    refine .insert referenceIdName (.string id) hentry (fun _ => ?_) (.scalar _) (Json.exact_string id)
      fun text tree htree => ?_
    · exact Part.get?_of_field?_eq_none hfield (by decide)
    · simp only [h text tree htree, addId, hfield]
  | some part =>
    refine .replaceString id (hentry.field? hfield) fun text found htext hfound _ => ?_
    obtain ⟨tree, htree, -⟩ := htext.exists_at? hentry
    simp only [h text tree htree, addId, hfield, hfound, Option.map_some]

theorem fix_of_duplicate {tree : Tree} {id : String} (hissue : issue.path? = some path)
    (htree : ctx.doc.at? path = some tree) (hcode : issue.code = Code.duplicateReferenceId)
    (hid : issue.text? "referenceId" = some id) : fix ctx issue =
      .ok (some (Edit.replaceValue ctx.doc tree (.string (freshId id (usedIds ctx.value))))) := by
  simp only [fix, Context.requirePath, hissue, htree, if_pos hcode, hid, Option.map_some]

theorem fix_of_missing {tree : Tree} {base : String} (hissue : issue.path? = some path)
    (htree : ctx.doc.at? path = some tree) (hcode : issue.code = Code.missingReferenceId)
    (hpart : ctx.value.at? path = some part) (hbase : derivedId? part = some base) :
    fix ctx issue = addId ctx tree ⟨path, part⟩ (freshId base (usedIds ctx.value)) := by
  have hne : issue.code ≠ Code.duplicateReferenceId := hcode ▸ by decide
  simp only [fix, Context.requirePath, hissue, htree, if_neg hne, if_pos hcode, hpart, hbase]

/-- Nothing is derived from an entry that names nothing. -/
theorem fix_of_no_base {tree : Tree} (hissue : issue.path? = some path) (htree : ctx.doc.at? path = some tree)
    (hcode : issue.code = Code.missingReferenceId) (hpart : ctx.value.at? path = some part)
    (hbase : derivedId? part = none) : fix ctx issue = .ok none := by
  have hne : issue.code ≠ Code.duplicateReferenceId := hcode ▸ by decide
  simp only [fix, Context.requirePath, hissue, htree, if_neg hne, if_pos hcode, hpart, hbase]

/-- A fix looks up the path of the finding. -/
theorem exists_of_fix {edit : Edit} (h : fix ctx issue = .ok (some edit)) :
    ∃ path tree, issue.path? = some path ∧ ctx.doc.at? path = some tree := by
  unfold fix at h
  split at h
  · cases h
  · next path hpath =>
    split at h
    · cases h
    · next tree htree => exact ⟨path, tree, Context.path?_of_requirePath hpath, htree⟩

/-- What a missing id is derived from, and which ids are in use, is read off the value. -/
theorem uniform_fix (value : Json) (issue : Issue) : Uniform value (fix · issue) := by
  refine .of_path issue (fun ctx edit hedit => exists_of_fix hedit) fun path part hissue hpart => ?_
  by_cases hduplicate : issue.code = Code.duplicateReferenceId
  · cases hid : issue.text? "referenceId" with
    | none =>
      refine .noEditAt hpart fun text tree htree _ => ?_
      simp only [fix, Context.requirePath, hissue, htree, if_pos hduplicate, hid, Option.map_none]
    | some id => exact .replaceString (freshId id (usedIds value)) hpart fun text tree _ htree _ =>
        fix_of_duplicate hissue htree hduplicate hid
  · by_cases hmissing : issue.code = Code.missingReferenceId
    · cases hbase : derivedId? part with
      | none => exact .noEditAt hpart fun text tree htree _ => fix_of_no_base hissue htree hmissing hpart hbase
      | some base =>
        have hentry : Part.StandsIn value ⟨path, part⟩ := hpart
        exact uniform_addId hentry (freshId base (usedIds value)) fun text tree htree =>
          fix_of_missing hissue htree hmissing hpart hbase
    · refine .noEditAt hpart fun text tree htree _ => ?_
      simp only [fix, Context.requirePath, hissue, htree, if_neg hduplicate, if_neg hmissing]

end Reference

theorem Rule.uniform_fix (rule : Rule) (hsorted : value.Sorted) (hmisses : issue.Misses value) :
    Uniform value (rule.fix · issue) := by
  unfold Rule.fix
  split
  · next hcan =>
    cases rule with
    | effectParameter => exact Effect.uniform_fix hmisses
    | referenceIntegrity => exact Reference.uniform_fix value issue
    | nameLength => exact Assignment.uniform_fixName value issue
    | assignmentScope =>
      simp only [canFix, Bool.and_eq_true, decide_eq_true_eq] at hcan
      exact Assignment.uniform_fixScope hsorted hmisses (List.mem_singleton.mp hcan.2)
    | schemaValidation | nonEmptyCollection | exclusiveReference => exact .noEdit fun _ _ => rfl
  · exact .noEdit fun _ _ => rfl

/-! ## Two ways to write a value -/

namespace Validator

open Issue

variable {options : LintOptions} {text' : String}

theorem misses_of_mem_issues {validator : Validator} {id : String} {version : Nat}
    (h : issue ∈ (validator.validate ctx options registry id version).1.issues) : issue.Misses ctx.value := by
  obtain ⟨rule, -, -, registry', issues, found, hcheck, hfound, rfl⟩ :=
    mem_findings ((validator.issues_isPrefix ctx options registry id version).subset h)
  -- the severity plays no part in this
  obtain ⟨hscope, hparameter⟩ := Rule.misses_check hcheck found hfound
  exact ⟨hscope, hparameter⟩

theorem uniform_fix? (validator : Validator) (options : LintOptions) (hsorted : value.Sorted)
    (hmisses : issue.Misses value) : Uniform value fun ctx => .ok (validator.fix? ctx options issue) := by
  unfold fix?
  cases validator.rule? issue.ruleId with
  | none => exact .noEdit fun _ _ => rfl
  | some rule =>
    dsimp only
    split
    · rcases rule.uniform_fix hsorted hmisses with hnone | ⟨change, hfits, hfix⟩
      · refine .noEdit fun text htext => ?_
        cases hfix : rule.fix ⟨ofText text, value⟩ issue with
        | error e => rfl
        | ok edit? =>
          cases edit? with
          | none => rfl
          | some edit => exact absurd hfix (hnone text htext edit)
      · refine Or.inr ⟨change, hfits, fun text htext => ?_⟩
        have hedit : rule.fix ⟨ofText text, value⟩ issue = .ok (change.edit? (ofText text)) := hfix text htext
        simp only [hedit]
    · exact .noEdit fun _ _ => rfl

theorem fix?_withoutRange (validator : Validator) (ctx : Context) (options : LintOptions) (issue : Issue) :
    validator.fix? ctx options issue.withoutRange = validator.fix? ctx options issue := rfl

/-- **Formatting.** Of two clean documents of one value a validator finds the same, but for the ranges, and
leaves the same registry. Corresponding findings both have no edit, or they have the edits of one change of the
value, and each edit makes that change of its text. One value is the identical value: a zero with a sign and one
without are two numbers, as a message shows which of them it is. -/
theorem validate_of_value (hclean : (ofText text).isClean = true) (hclean' : (ofText text').isClean = true)
    (hvalue : (ofText text').value? = (ofText text).value?) :
    ∃ ctx ctx', (Context.ofDocument? (ofText text) = some ctx ∧ Context.ofDocument? (ofText text') = some ctx') ∧
      ∀ validator options registry id id' version version',
        let found := validate validator ctx options registry id version
        let found' := validate validator ctx' options registry id' version'
        (found'.1.issues.map withoutRange = found.1.issues.map withoutRange ∧
          found'.1.truncated = found.1.truncated ∧ found'.1.valid = found.1.valid ∧ found'.2 = found.2) ∧
        ∀ (i : Nat) issue issue', found.1.issues[i]? = some issue → found'.1.issues[i]? = some issue' →
          (validator.fix? ctx options issue = none ∧ validator.fix? ctx' options issue' = none) ∨
          ∃ change edit edit', (validator.fix? ctx options issue = some edit ∧
              validator.fix? ctx' options issue' = some edit') ∧
            (Change.edit? (ofText text) change = some edit ∧ Change.edit? (ofText text') change = some edit') ∧
            edit.Makes text (change.result ctx.value) ∧ edit'.Makes text' (change.result ctx.value) := by
  obtain ⟨-, tree, htree⟩ := isClean_iff.mp hclean
  have hvalue? : (ofText text).value? = some tree.toJson := by rw [value?, htree, Option.map_some]
  have htext : Renders text tree.toJson := ⟨hclean, hvalue?⟩
  have htext' : Renders text' tree.toJson := ⟨hclean', hvalue.trans hvalue?⟩
  have hctx : Context.ofDocument? (ofText text) = some ⟨ofText text, tree.toJson⟩ := by
    rw [Context.ofDocument?, htext.value?, Option.map_some]
  have hctx' : Context.ofDocument? (ofText text') = some ⟨ofText text', tree.toJson⟩ := by
    rw [Context.ofDocument?, htext'.value?, Option.map_some]
  refine ⟨_, _, ⟨hctx, hctx'⟩, fun validator options registry id id' version version' => ?_⟩
  have hsame := validator.validate_withoutRange options (ofText text) (ofText text') tree.toJson registry id id'
    version version'
  refine ⟨hsame, fun i issue issue' hissue hissue' => ?_⟩
  have hpair : issue'.withoutRange = issue.withoutRange := by
    have hat := congrArg (·[i]?) hsame.1
    simpa only [List.getElem?_map, hissue, hissue', Option.map_some, Option.some.injEq] using hat
  have hother (ctx : Context) : validator.fix? ctx options issue' = validator.fix? ctx options issue := by
    rw [← fix?_withoutRange, hpair, fix?_withoutRange]
  have hmisses := misses_of_mem_issues (List.mem_of_getElem? hissue)
  rcases validator.uniform_fix? options htext.sorted hmisses with hnone | ⟨change, hfits, hfix⟩
  · refine .inl ⟨Option.eq_none_iff_forall_ne_some.mpr fun edit hedit => ?_,
      Option.eq_none_iff_forall_ne_some.mpr fun edit hedit => ?_⟩
    · exact hnone text htext edit (congrArg Except.ok hedit)
    · exact hnone text' htext' edit (congrArg Except.ok ((hother _).symm.trans hedit))
  · obtain ⟨edit, hedit, hmakes⟩ := hfits.exists_edit htext
    obtain ⟨edit', hedit', hmakes'⟩ := hfits.exists_edit htext'
    refine .inr ⟨change, edit, edit', ⟨?_, ?_⟩, ⟨hedit, hedit'⟩, hmakes, hmakes'⟩
    · exact (Except.ok.inj (hfix text htext)).trans hedit
    · exact (hother _).trans ((Except.ok.inj (hfix text' htext')).trans hedit')

/-- A leaf without a scope. The other text has a comment, an escape, its name a second time and a last comma. -/
theorem validate_of_value_of_leaf :
    let text := "\x7b\"nodeName\":\"a\"\x7d"
    let text' := "// a leaf\n\x7b\n  \"nodeName\": \"\\u0061\",\n  \"nodeName\": null,\n\x7d"
    let validator : Validator := ⟨some .assignment⟩
    let options : LintOptions := ⟨["schema-validation"], [], false, none⟩
    ((ofText text).isClean = true ∧ (ofText text').isClean = true ∧ (ofText text').value? = (ofText text).value?) ∧
      ∃ ctx ctx' issue issue', (validator.validate ctx options (.new none) "a" 1).1.issues = [issue] ∧
        (validator.validate ctx' options (.new none) "b" 2).1.issues = [issue'] ∧
        issue'.withoutRange = issue.withoutRange ∧ ∃ edit edit' new,
          validator.fix? ctx options issue = some edit ∧ validator.fix? ctx' options issue' = some edit' ∧
          edit.Makes text new ∧ edit'.Makes text' new := by
  intro text text' validator options
  have hclean : (ofText text).isClean = true := by decide +kernel
  have hclean' : (ofText text').isClean = true := by decide +kernel
  have hread (source : String) (h : (ofText source).value?.bind (fun value => value.members?.map fun members =>
      members.map fun member => (member.1, member.2.string?)) = some [("nodeName", some "a")]) :
      (ofText source).value? = some (.object [("nodeName", .string "a")]) := by
    obtain ⟨value, hvalue, hobject⟩ := Option.bind_eq_some_iff.mp h
    obtain ⟨members, hmembers, hnames⟩ := Option.map_eq_some_iff.mp hobject
    obtain ⟨⟨name, found⟩, rfl, hmember⟩ := List.map_eq_singleton_iff.mp hnames
    obtain ⟨rfl, hfound⟩ := Prod.mk.inj hmember
    obtain rfl := Json.eq_string_of_string? hfound
    rw [hvalue, Json.eq_object_of_members? hmembers]
  have hvalue : (ofText text').value? = (ofText text).value? :=
    (hread text' (by decide +kernel)).trans (hread text (by decide +kernel)).symm
  obtain ⟨ctx, ctx', ⟨hctx, hctx'⟩, hall⟩ := validate_of_value hclean hclean' hvalue
  have hfixes : (Context.ofDocument? (ofText text)).map (fun ctx =>
      (validator.validate ctx options (.new none) "a" 1).1.issues.map fun issue =>
        (validator.fix? ctx options issue).isSome) = some [true] := by decide +kernel
  rw [hctx] at hfixes
  obtain ⟨issue, hissue, hfixed⟩ := List.map_eq_singleton_iff.mp (Option.some.inj hfixes)
  obtain ⟨⟨hsame, -⟩, hedits⟩ := hall validator options (.new none) "a" "b" 1 2
  rw [hissue, List.map_singleton] at hsame
  obtain ⟨issue', hissue', hpair⟩ := List.map_eq_singleton_iff.mp hsame
  rcases hedits 0 issue issue' (by rw [hissue]; rfl) (by rw [hissue']; rfl) with
    ⟨hnone, -⟩ | ⟨change, edit, edit', ⟨hedit, hedit'⟩, -, hmakes, hmakes'⟩
  · rw [hnone] at hfixed
    cases hfixed
  · exact ⟨⟨hclean, hclean', hvalue⟩, ctx, ctx', issue, issue', hissue, hissue', hpair, edit, edit', _, hedit,
      hedit', hmakes, hmakes'⟩

end Validator

end PolicyAudit
