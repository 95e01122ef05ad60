-- SUMMARY: Declaring a parameter clears its finding, and so does using one, though some names are not read back.
import PolicyAudit.Proofs.Lint.Expression
import PolicyAudit.Proofs.Lint.Naming

/-! ## Parts found by names -/

namespace PolicyAudit

open Document

namespace Part

variable {part found child : Part} {field : Field}

/-- Where something is put into a field or below it, the field stays where it is. -/
theorem field?_of_puts (h : part.field? field = some child) :
    ∃ name ∈ field.spellings, child.path = part.path ++ [.name name] ∧
      ∀ {new inner rest}, Json.Puts new (.name name :: rest) part.value inner →
        ∃ below, Json.Puts new rest child.value below ∧ field? ⟨part.path, inner⟩ field = some ⟨child.path, below⟩ := by
  obtain ⟨⟨name, found⟩, hspelling, rfl⟩ := Option.map_eq_some_iff.mp h
  refine ⟨name, Json.mem_spellings_of_spelling? hspelling, rfl, fun hputs => ?_⟩
  obtain ⟨below, hnew, hbelow, -⟩ := hputs.exists_of_spelling? hspelling
  exact ⟨below, hbelow, by rw [field?, hnew, Option.map_some]⟩

/-- The path of a part has no positions in it. -/
def ByNames (part : Part) : Prop := ∀ key ∈ part.path, ∃ name, key = .name name

theorem ByNames.field? (h : part.ByNames) (hfound : part.field? field = some found) : found.ByNames := by
  obtain ⟨name, -, hpath⟩ := path_of_field? hfound
  intro key hkey
  rw [hpath, List.mem_append, List.mem_singleton] at hkey
  rcases hkey with hkey | rfl
  · exact h key hkey
  · exact ⟨name, rfl⟩

theorem byNames_properties (value : Json) : (properties value).ByNames := by
  unfold properties
  have hroot : (root value).ByNames := nofun
  cases hfound : (root value).field? .properties with
  | none => exact hroot
  | some part =>
    dsimp only
    split
    · exact hroot.field? hfound
    · exact hroot

/-- Names are read back, however long the text is. -/
theorem ByNames.ofJson?_path (h : part.ByNames) : Path.ofJson? part.path.toJson = some part.path := by
  refine Path.ofJson?_toJson fun index hindex => ?_
  obtain ⟨name, hname⟩ := h _ hindex
  cases hname

end Part

namespace Effect

variable {text effect : String} {parameter : String} {ctx ctx' : Context} {issue : Issue} {issues : List Issue}
variable {registry : Registry} {value value' : Json} {part : Part}

/-! ## The effect of a changed document -/

theorem byNames_of_effectPart? (h : effectPart? value = some (part, effect)) : part.ByNames := by
  obtain ⟨rule, consequence, hrule, hconsequence, hfound, -⟩ := fields_of_effectPart? h
  exact (((Part.byNames_properties value).field? hrule).field? hconsequence).field? hfound

/-- The effect depends on the rule and on where the properties stand. -/
theorem effectPart?_congr (hpath : (Part.properties value').path = (Part.properties value).path)
    (hrule : (Part.properties value').value.spelling? .rule = (Part.properties value).value.spelling? .rule) :
    effectPart? value' = effectPart? value := by
  simp only [effectPart?, Part.field?, hpath, hrule]

/-- What is put in the place of the effect is the effect, and the same parameters are declared. -/
theorem effectPart?_of_puts {new : String} (h : effectPart? value = some (part, effect))
    (hputs : Json.Puts (.string new) part.path value value') :
    effectPart? value' = some (⟨part.path, .string new⟩, new) ∧ parameters? value' = parameters? value := by
  obtain ⟨rule, consequence, hrule, hconsequence, hfound, -⟩ := fields_of_effectPart? h
  obtain ⟨name, hname, hrulePath, hruleNew⟩ := Part.field?_of_puts hrule
  obtain ⟨_, -, hconsequencePath, hconsequenceNew⟩ := Part.field?_of_puts hconsequence
  obtain ⟨_, -, hfoundPath, hfoundNew⟩ := Part.field?_of_puts hfound
  simp only [hfoundPath, hconsequencePath, hrulePath, List.append_assoc, List.singleton_append] at hputs
  obtain ⟨inner, hproperties, hputs⟩ := Part.properties_of_puts (Field.not_mem_spellings hname (by decide)) hputs
  have hparameters : inner.field? .parameters = (Part.properties value).value.field? .parameters :=
    hputs.alikeBut.field?_eq_of_ne hname (by decide)
  obtain ⟨_, hputs, hrule'⟩ := hruleNew hputs
  obtain ⟨_, hputs, hconsequence'⟩ := hconsequenceNew hputs
  obtain ⟨_, hputs, hfound'⟩ := hfoundNew hputs
  cases hputs
  constructor
  · simp only [effectPart?, hproperties, hrule', hconsequence', hfound', Option.bind_eq_bind, Option.bind_some]
    rfl
  · rw [parameters?, parameters?, hproperties, hparameters]

theorem check_of_isDeclared (hpart : effectPart? ctx.value = some (part, effect))
    (hname : parameterOf? effect = some parameter) (hdeclared : isDeclared ctx.value parameter = true) :
    check ctx = [] := by
  unfold check
  rw [hpart]
  dsimp only
  rw [hname]
  exact if_pos hdeclared

theorem check_of_isExpression (hpart : effectPart? ctx.value = some (part, effect))
    (hnone : parameterOf? effect = none) (hexpression : isExpression effect = true) : check ctx = [] := by
  unfold check
  rw [hpart]
  dsimp only
  rw [hnone]
  exact if_pos hexpression

theorem isDeclared_of_mem {parameters : Keyed Json} (h : parameters? value = some parameters)
    (hmem : parameter ∈ parameters.names) : isDeclared value parameter = true := by
  obtain ⟨entry, hentry, rfl⟩ := List.mem_map.mp hmem
  rw [isDeclared, h]
  exact List.any_eq_true.mpr ⟨entry, hentry, beq_self_eq_true _⟩

/-! ## Fixed effects -/

theorem mem_names_of_parameterFor? (h : parameterFor? value effect = some parameter) :
    ∃ parameters, parameters? value = some parameters ∧ parameter ∈ parameters.names := by
  obtain ⟨parameters, hparameters, h⟩ := Option.bind_eq_some_iff.mp h
  refine ⟨parameters, hparameters, ?_⟩
  rcases Option.or_eq_some_iff.mp h with hname | ⟨-, hallows⟩
  · exact List.mem_of_find?_eq_some hname
  · obtain ⟨⟨name, declaration⟩, hentry, hname⟩ := List.exists_of_findSome?_eq_some hallows
    dsimp only at hname
    split at hname
    · exact Option.some.inj hname ▸ List.mem_map_of_mem hentry
    · cases hname

/-- **Rewriting a fixed effect.** For each finding of a clean document that its effect is fixed the fix has an edit,
which applies and leaves a clean document. There the effect is the expression for the declared parameter that the
finding names, everything else is as before, and the rule reports nothing. But the rule reads that parameter back
only if its name is not empty and has no quote in it. Else it reads no name and takes the effect for an expression
of another kind. -/
theorem fixFixedEffect_of_isClean (hclean : (ofText text).isClean = true)
    (hctx : Context.ofDocument? (ofText text) = some ctx)
    (hcheck : (Rule.effectParameter.check ctx registry).1 = .ok issues) (hissue : issue ∈ issues)
    (hcode : issue.code = Code.fixedEffect) :
    ∃ part effect parameter ctx', effectPart? ctx.value = some (part, effect) ∧
      issue.text? "parameter" = some parameter ∧ Rule.effectParameter.FixLeaves issue ctx ctx' ∧
      ctx'.value = ctx.value.modifyAt (fun _ => .string (expression parameter)) part.path ∧
      effectPart? ctx'.value = some (⟨part.path, .string (expression parameter)⟩, expression parameter) ∧
      (∃ parameters, parameters? ctx'.value = some parameters ∧ parameter ∈ parameters.names) ∧
      (Rule.effectParameter.check ctx' registry).1 = .ok [] ∧
      parameterOf? (expression parameter) =
        if parameter ≠ "" ∧ '\'' ∉ parameter.toList then some parameter else none := by
  obtain ⟨value, rfl, htext⟩ := Renders.exists_of_context hclean hctx
  obtain rfl := Except.ok.inj hcheck
  have hcan : Rule.effectParameter.canFix issue = true :=
    (Rule.ownsAll_check hcheck issue hissue).canFix (hcode ▸ by decide)
  obtain ⟨-, part, effect, parameter, hpart, hread, hparameter, hfound⟩ := of_mem_check hissue
  obtain ⟨hmissing, -⟩ | ⟨-, -, -, hfor⟩ := hfound
  · exact absurd (hcode.symm.trans hmissing) (by decide)
  obtain ⟨hstands, -⟩ := standsIn_effectPart? hpart
  have hpath : issue.path? = some part.path := hread.trans (byNames_of_effectPart? hpart).ofJson?_path
  -- the change
  let new := expression parameter
  have hfits : Change.Fits value (.replace part.path (.string new)) :=
    .replace part.path hstands (.scalar _) (Json.exact_string new)
  have hfix : Rule.effectParameter.fix ⟨ofText text, value⟩ issue =
      .ok (Change.edit? (ofText text) (.replace part.path (.string new))) := by
    have hne : issue.code ≠ Code.missingEffectParameter := hcode ▸ by decide
    simp only [Rule.fix, if_pos hcan, fix, if_neg hne, if_pos hcode, requireParameter, hparameter, hpath,
      Option.bind_some, Change.edit?, new]
  obtain ⟨ctx', hleaves, hvalue⟩ := hfits.fixLeaves (htext.length_path_le hstands) htext hfix
  -- what becomes of the effect
  have hputs : Json.Puts (.string new) part.path value ctx'.value := by
    rw [hvalue]
    exact Json.puts_modifyAt hstands fun _ => .string new
  obtain ⟨hpart', hparameters'⟩ := effectPart?_of_puts hpart hputs
  have hdeclared : ∃ parameters, parameters? ctx'.value = some parameters ∧ parameter ∈ parameters.names :=
    hparameters' ▸ mem_names_of_parameterFor? hfor
  refine ⟨part, effect, parameter, ctx', hpart, hparameter, hleaves, hvalue, hpart', hdeclared, ?_,
    parameterOf?_expression parameter⟩
  have hclear : check ctx' = [] := by
    obtain ⟨_, hparameters, hmem⟩ := hdeclared
    have hname := parameterOf?_expression parameter
    split at hname
    · exact check_of_isDeclared hpart' hname (isDeclared_of_mem hparameters hmem)
    · exact check_of_isExpression hpart' hname (isExpression_expression parameter)
  exact congrArg Except.ok hclear

/-- A name with a quote in it: the effect that is written names no parameter. -/
theorem fixFixedEffect_of_isClean_of_quote :
    let text := "\x7b\"properties\":\x7b\"parameters\":\x7b\"it's effect\":\x7b\x7d\x7d," ++
      "\"policyRule\":\x7b\"then\":\x7b\"effect\":\"deny\"\x7d\x7d\x7d\x7d"
    (ofText text).isClean = true ∧
      ∃ ctx ctx' issue part, Context.ofDocument? (ofText text) = some ctx ∧
        (Rule.effectParameter.check ctx (.new none)).1 = .ok [issue] ∧ issue.code = Code.fixedEffect ∧
        issue.text? "parameter" = some "it's effect" ∧ Rule.effectParameter.FixLeaves issue ctx ctx' ∧
        effectPart? ctx'.value = some (part, "[parameters('it's effect')]") ∧
        parameterOf? "[parameters('it's effect')]" = none ∧
        (Rule.effectParameter.check ctx' (.new none)).1 = .ok [] := by
  intro text
  have hread : (ofText text).isClean = true ∧ (Context.ofDocument? (ofText text)).map (fun ctx =>
      (check ctx).map fun issue => (issue.code, issue.text? "parameter")) =
        some [(Code.fixedEffect, some "it's effect")] := by decide +kernel
  obtain ⟨hclean, hread⟩ := hread
  obtain ⟨ctx, hctx, hread⟩ := Option.map_eq_some_iff.mp hread
  obtain ⟨issue, hissues, hrow⟩ := List.map_eq_singleton_iff.mp hread
  obtain ⟨hcode, hname⟩ := Prod.mk.inj hrow
  have hcheck : (Rule.effectParameter.check ctx (.new none)).1 = .ok [issue] := congrArg Except.ok hissues
  obtain ⟨part, effect, parameter, ctx', -, hparameter, hleaves, -, hpart', -, hcheck', hback⟩ :=
    fixFixedEffect_of_isClean hclean hctx hcheck (List.mem_singleton_self issue) hcode
  obtain rfl := Option.some.inj (hparameter.symm.trans hname)
  have hexpression : expression "it's effect" = "[parameters('it's effect')]" := by decide
  rw [hexpression] at hpart' hback
  exact ⟨hclean, ctx, ctx', issue, _, hctx, hcheck, hcode, hname, hleaves, hpart', hback, hcheck'⟩

/-! ## Parameters that are not declared -/

/-- A document takes another parameter unless it has something other than an object for its parameters. -/
def TakesParameter (value : Json) : Prop :=
  ∀ parameters, (Part.properties value).field? .parameters = some parameters → parameters.value.isObject = true

/-- The change that declares a parameter: among the others, or else in a new object. -/
def declaring (value : Json) (parameter : String) : Change :=
  match (Part.properties value).field? .parameters with
  | some parameters => .insert parameters.path parameter declaration
  | none => .insert (Part.properties value).path "parameters" (.object [(parameter, declaration)])

theorem declaring_of_field? {parameters : Part} (h : (Part.properties value).field? .parameters = some parameters)
    (parameter : String) : declaring value parameter = .insert parameters.path parameter declaration := by
  rw [declaring, h]

theorem declaring_of_no_field (h : (Part.properties value).field? .parameters = none) (parameter : String) :
    declaring value parameter =
      .insert (Part.properties value).path "parameters" (.object [(parameter, declaration)]) := by
  rw [declaring, h]

theorem isObject_properties_of_effectPart? (h : effectPart? value = some (part, effect)) :
    (Part.properties value).value.isObject = true := by
  obtain ⟨rule, _, hrule, -⟩ := fields_of_effectPart? h
  exact Part.isObject_of_field? hrule

theorem fits_declaring (hpart : effectPart? value = some (part, effect)) (htakes : TakesParameter value)
    (hundeclared : isDeclared value parameter = false) : (declaring value parameter).Fits value := by
  obtain ⟨hsorted, hexact⟩ := plain_declaration
  have hproperties := Part.standsIn_properties value
  cases hfield : (Part.properties value).field? .parameters with
  | some parameters =>
    rw [declaring_of_field? hfield]
    exact .insert parameters.path parameter (hproperties.field? hfield) (htakes parameters hfield)
      (get?_of_not_isDeclared hfield hundeclared) hsorted hexact
  | none =>
    rw [declaring_of_no_field hfield]
    refine .insert _ "parameters" hproperties (isObject_properties_of_effectPart? hpart) ?_ ?_ ?_
    · exact Part.get?_of_field?_eq_none hfield (by decide)
    · exact .object (List.pairwise_singleton ..) (List.forall_mem_singleton.mpr hsorted)
    · exact .object (List.forall_mem_singleton.mpr hexact)

theorem hasRoom_declaring (value : Json) (parameter : String) : (declaring value parameter).HasRoom := by
  have hlength := Part.length_path_properties_le value
  have hreach : declaration.reach = 2 := by decide
  cases hfield : (Part.properties value).field? .parameters with
  | some parameters =>
    obtain ⟨name, -, hpath⟩ := Part.path_of_field? hfield
    rw [declaring_of_field? hfield, Change.HasRoom, hpath, hreach, List.length_append, List.length_singleton, maxDepth]
    omega
  | none =>
    have hobject : (Json.object [(parameter, declaration)]).reach ≤ 3 :=
      Json.reach_object_le (List.forall_mem_singleton.mpr (by rw [hreach]; decide))
    rw [declaring_of_no_field hfield, Change.HasRoom, maxDepth]
    omega

theorem declare_eq (htext : Renders text value) (hpart : effectPart? value = some (part, effect))
    (htakes : TakesParameter value) (parameter : String) :
    (declare ⟨ofText text, value⟩ parameter).map some = .ok ((declaring value parameter).edit? (ofText text)) := by
  have hproperties := Part.standsIn_properties value
  cases hfield : (Part.properties value).field? .parameters with
  | some parameters =>
    have hobject := htakes parameters hfield
    obtain ⟨tree, htree, hvalue⟩ := htext.exists_at? (hproperties.field? hfield)
    rw [← hvalue, Tree.isObject_toJson] at hobject
    rw [declaring_of_field? hfield, ← Change.map_insertMember htree hobject]
    simp only [declare, hfield, htree]
  | none =>
    have hobject := isObject_properties_of_effectPart? hpart
    obtain ⟨tree, htree, hvalue⟩ := htext.exists_at? hproperties
    rw [← hvalue, Tree.isObject_toJson] at hobject
    rw [declaring_of_no_field hfield, ← Change.map_insertMember htree hobject]
    simp only [declare, hfield, htree]

/-- What is no object takes no member. -/
theorem takesParameter_of_declare {edit : Edit} (htext : Renders text value)
    (h : declare ⟨ofText text, value⟩ parameter = .ok edit) : TakesParameter value := by
  intro parameters hfield
  obtain ⟨tree, htree, hvalue⟩ := htext.exists_at? ((Part.standsIn_properties value).field? hfield)
  simp only [declare, hfield, htree] at h
  rw [← hvalue, Tree.isObject_toJson]
  cases tree with
  | object span members => rfl
  | array span items => cases h
  | scalar span value => cases h

theorem isDeclared_of_get? {parameters declared : Json}
    (hfield : (Part.properties value).value.field? .parameters = some parameters)
    (hget : parameters.get? parameter = some declared) : isDeclared value parameter = true := by
  obtain ⟨members, rfl, hmember⟩ := Json.object_of_get? hget
  have hparameters : parameters? value = some members := by rw [parameters?, hfield]; rfl
  exact isDeclared_of_mem hparameters (List.mem_map_of_mem (Keyed.mem_of_find? hmember))

/-- The change declares the parameter and leaves the effect as it is. -/
theorem isDeclared_of_declaring (hpart : effectPart? value = some (part, effect)) (htakes : TakesParameter value)
    (hvalue : value' = (declaring value parameter).result value) :
    isDeclared value' parameter = true ∧ effectPart? value' = effectPart? value := by
  have hproperties := Part.standsIn_properties value
  cases hfield : (Part.properties value).field? .parameters with
  | some parameters =>
    have hputs : Json.Puts (parameters.value.insert parameter declaration) parameters.path value value' := by
      rw [hvalue, declaring_of_field? hfield]
      exact Json.puts_modifyAt (hproperties.field? hfield) (·.insert parameter declaration)
    obtain ⟨name, hname, hpath, hnew⟩ := Part.field?_of_puts hfield
    rw [hpath] at hputs
    obtain ⟨inner, hproperties', hbelow⟩ :=
      Part.properties_of_puts (Field.not_mem_spellings hname (by decide)) hputs
    have hrule : inner.spelling? .rule = (Part.properties value).value.spelling? .rule :=
      hbelow.alikeBut.spelling?_eq (Field.not_mem_spellings hname (by decide))
    obtain ⟨_, hhere, hfield'⟩ := hnew hbelow
    cases hhere
    constructor
    · refine isDeclared_of_get? ?_ (Json.get?_insert_self (htakes parameters hfield) parameter declaration)
      rw [hproperties', Part.field?_value hfield']
    · exact effectPart?_congr (by rw [hproperties']) (by rw [hproperties', hrule])
  | none =>
    let added : Json := .object [(parameter, declaration)]
    let inner := (Part.properties value).value.insert "parameters" added
    have hputs : Json.Puts inner (Part.properties value).path value value' := by
      rw [hvalue, declaring_of_no_field hfield]
      exact Json.puts_modifyAt hproperties (·.insert "parameters" added)
    have halike : Json.AlikeBut "parameters" (Part.properties value).value inner :=
      Json.alikeBut_insert _ "parameters" added
    have hadded : inner.get? "parameters" = some added :=
      Json.get?_insert_self (isObject_properties_of_effectPart? hpart) "parameters" added
    have hproperties' := Part.properties_of_alikeBut (by decide) halike (Json.isObject_of_get? hadded) hputs
    have hfield' := halike.spelling?_of_added (Part.field?_value_eq_none hfield) (by decide) hadded
    have hfound : (Part.properties value').value.field? .parameters = some added := by
      rw [hproperties', Json.field?, hfield', Option.map_some]
    have hget : added.get? parameter = some declaration := (Keyed.find?_cons ..).trans (if_pos rfl)
    constructor
    · exact isDeclared_of_get? hfound hget
    · exact effectPart?_congr (by rw [hproperties']) (by rw [hproperties', halike.spelling?_eq (by decide)])

/-- **Declaring a parameter.** A finding of a clean document that the parameter of its effect is not declared is the
only one of the rule, and names the parameter that the effect is read as. Its fix has an edit exactly if the document
does not have something other than an object for its parameters. Then the edit applies and leaves a clean document,
in which the parameter is declared, among the others or in a new object, everything else is as before, and the rule
reports nothing. -/
theorem fixMissingParameter_of_isClean (hclean : (ofText text).isClean = true)
    (hctx : Context.ofDocument? (ofText text) = some ctx)
    (hcheck : (Rule.effectParameter.check ctx registry).1 = .ok issues) (hissue : issue ∈ issues)
    (hcode : issue.code = Code.missingEffectParameter) :
    issues = [issue] ∧ ∃ part effect parameter, effectPart? ctx.value = some (part, effect) ∧
      parameterOf? effect = some parameter ∧ issue.text? "parameter" = some parameter ∧
      isDeclared ctx.value parameter = false ∧
      ((∃ edit, Rule.effectParameter.fix ctx issue = .ok (some edit)) ↔ TakesParameter ctx.value) ∧
      (TakesParameter ctx.value → ∃ ctx', Rule.effectParameter.FixLeaves issue ctx ctx' ∧
        ctx'.value = (declaring ctx.value parameter).result ctx.value ∧
        (Rule.effectParameter.check ctx' registry).1 = .ok []) := by
  obtain ⟨value, rfl, htext⟩ := Renders.exists_of_context hclean hctx
  obtain rfl := Except.ok.inj hcheck
  have hcan : Rule.effectParameter.canFix issue = true :=
    (Rule.ownsAll_check hcheck issue hissue).canFix (hcode ▸ by decide)
  obtain ⟨honly, part, effect, parameter, hpart, -, hparameter, hfound⟩ := of_mem_check hissue
  obtain ⟨-, hname, hundeclared⟩ | ⟨hfixed, -⟩ := hfound
  swap
  · exact absurd (hcode.symm.trans hfixed) (by decide)
  have hfix : Rule.effectParameter.fix ⟨ofText text, value⟩ issue =
      (declare ⟨ofText text, value⟩ parameter).map some := by
    simp only [Rule.fix, if_pos hcan, fix, if_pos hcode, requireParameter, hparameter]
  have hmade : TakesParameter value → ∃ ctx', Rule.effectParameter.FixLeaves issue ⟨ofText text, value⟩ ctx' ∧
      ctx'.value = (declaring value parameter).result value := fun htakes =>
    (fits_declaring hpart htakes hundeclared).fixLeaves (hasRoom_declaring value parameter) htext
      (hfix.trans (declare_eq htext hpart htakes parameter))
  refine ⟨honly, part, effect, parameter, hpart, hname, hparameter, hundeclared, ⟨?_, fun htakes => ?_⟩,
    fun htakes => ?_⟩
  · rintro ⟨edit, hedit⟩
    exact takesParameter_of_declare htext (eq_ok_of_map_some (hfix.symm.trans hedit))
  · obtain ⟨_, ⟨edit, _, hedit, -⟩, -⟩ := hmade htakes
    exact ⟨edit, hedit⟩
  · obtain ⟨ctx', hleaves, hvalue⟩ := hmade htakes
    obtain ⟨hdeclared, hsame⟩ := isDeclared_of_declaring hpart htakes hvalue
    exact ⟨ctx', hleaves, hvalue, congrArg Except.ok (check_of_isDeclared (hsame.trans hpart) hname hdeclared)⟩

/-- Other spellings of the fields, and an expression with capital letters and blanks. -/
theorem fixMissingParameter_of_isClean_of_spellings :
    let text := "\x7b\"Properties\":\x7b\"Parameters\":\x7b\"a\":\x7b\x7d\x7d," ++
      "\"policyrule\":\x7b\"Then\":\x7b\"Effect\":\" [PARAMETERS( 'x y' )]\"\x7d\x7d\x7d\x7d"
    let path : Path := [.name "Properties", .name "Parameters"]
    (ofText text).isClean = true ∧
      ∃ ctx ctx' issue, Context.ofDocument? (ofText text) = some ctx ∧
        (Rule.effectParameter.check ctx (.new none)).1 = .ok [issue] ∧ issue.code = Code.missingEffectParameter ∧
        issue.text? "parameter" = some "x y" ∧ Rule.effectParameter.FixLeaves issue ctx ctx' ∧
        ctx'.value.at? (path ++ [.name "x y"]) = some declaration ∧
        (Rule.effectParameter.check ctx' (.new none)).1 = .ok [] := by
  intro text path
  have hread : (ofText text).isClean = true ∧ (Context.ofDocument? (ofText text)).map (fun ctx =>
      ((check ctx).map fun issue => (issue.code, issue.text? "parameter"),
        ((Part.properties ctx.value).field? .parameters).map fun part => (part.path, part.value.isObject))) =
          some ([(Code.missingEffectParameter, some "x y")], some (path, true)) := by decide +kernel
  obtain ⟨hclean, hread⟩ := hread
  obtain ⟨ctx, hctx, hread⟩ := Option.map_eq_some_iff.mp hread
  obtain ⟨hrow, hpart⟩ := Prod.mk.inj hread
  obtain ⟨issue, hissues, hrow⟩ := List.map_eq_singleton_iff.mp hrow
  obtain ⟨hcode, hname⟩ := Prod.mk.inj hrow
  obtain ⟨parameters, hfield, hshape⟩ := Option.map_eq_some_iff.mp hpart
  obtain ⟨hpath, hobject⟩ := Prod.mk.inj hshape
  have hcheck : (Rule.effectParameter.check ctx (.new none)).1 = .ok [issue] := congrArg Except.ok hissues
  have htakes : TakesParameter ctx.value := fun other hother =>
    Option.some.inj (hfield.symm.trans hother) ▸ hobject
  obtain ⟨-, _, _, parameter, -, -, hparameter, -, -, hmade⟩ :=
    fixMissingParameter_of_isClean hclean hctx hcheck (List.mem_singleton_self issue) hcode
  obtain rfl := Option.some.inj (hparameter.symm.trans hname)
  obtain ⟨ctx', hleaves, hvalue, hcheck'⟩ := hmade htakes
  have hstands : ctx.value.at? path = some parameters.value :=
    hpath ▸ (Part.standsIn_properties ctx.value).field? hfield
  refine ⟨hclean, ctx, ctx', issue, hctx, hcheck, hcode, hname, hleaves, ?_, hcheck'⟩
  rw [hvalue, declaring_of_field? hfield, hpath, Change.result, Json.at?_append, Json.at?_modifyAt hstands,
    Option.bind_some, Json.at?_insert hobject]

end Effect

end PolicyAudit
