-- SUMMARY: Cutting a name off and adding a scope each clear the finding that they are for, and change nothing else.
import PolicyAudit.Proofs.Lint.Amending

/-! ## Fixes that leave a clean document -/

namespace PolicyAudit

open Document

variable {text : String} {ctx ctx' : Context} {issue : Issue} {issues : List Issue} {registry : Registry}
variable {value : Json} {rule : Rule} {change : Change}

theorem Json.alikeBut_insert (value : Json) (name : String) (new : Json) :
    AlikeBut name value (value.insert name new) := by
  intro other hother
  cases value with
  | object members => exact Keyed.find?_insert_of_ne (Ne.symm hother) new members
  | array | scalar => rfl

/-- The fix of a finding has an edit that applies to the text of the document, and the new text is read without
a fault. -/
def Rule.FixLeaves (rule : Rule) (issue : Issue) (ctx ctx' : Context) : Prop :=
  ∃ edit edited, rule.fix ctx issue = .ok (some edit) ∧ edit.apply ctx.doc.text = .ok edited ∧
    (ofText edited).isClean = true ∧ Context.ofDocument? (ofText edited) = some ctx'

/-- A fix that makes a change leaves the changed value. -/
theorem Change.Fits.fixLeaves (h : change.Fits value) (hroom : change.HasRoom) (htext : Renders text value)
    (hfix : rule.fix ⟨ofText text, value⟩ issue = .ok (change.edit? (ofText text))) :
    ∃ ctx', rule.FixLeaves issue ⟨ofText text, value⟩ ctx' ∧ ctx'.value = change.result value := by
  obtain ⟨edit, edited, hedit, happly, hedited⟩ := h.exists_made hroom htext
  exact ⟨⟨ofText edited, change.result value⟩,
    ⟨edit, edited, hedit ▸ hfix, happly, hedited.isClean, hedited.context_eq⟩, rfl⟩

namespace Assignment

/-! ## Names -/

/-- **Cutting a name off.** For each finding about a name of a clean document the fix has an edit, which applies
and leaves a clean document. There the name is what its first 24 characters were, everything else is as before,
and the rules for trees of assignments report what they reported before but for this finding. (The bytes of a
text are counted in 64 bits.) -/
theorem fixName_of_isClean (hclean : (ofText text).isClean = true)
    (hsize : Text.byteLength text.toList < 0x10000000000000000)
    (hctx : Context.ofDocument? (ofText text) = some ctx)
    (hcheck : (Rule.nameLength.check ctx registry).1 = .ok issues) (hissue : issue ∈ issues) :
    ∃ path name ctx', issue.path? = some path ∧ ctx.value.at? path = some (.string name) ∧
      (∃ node ∈ nodes ctx.value, (⟨path, .string name⟩, name) ∈ names node.part) ∧
      Rule.nameLength.FixLeaves issue ctx ctx' ∧
      ctx'.value = ctx.value.modifyAt (fun _ => .string (String.ofList (name.toList.take 24))) path ∧
      Loses issue.mark (report ctx) (report ctx') := by
  obtain ⟨value, rfl, htext⟩ := Renders.exists_of_context hclean hctx
  obtain rfl := Except.ok.inj hcheck
  have howns := ownsAll_checkNames _ issue hissue
  have hcan : Rule.nameLength.canFix issue = true := howns.canFix howns.code
  obtain ⟨node, hnode, hfound⟩ := List.mem_flatMap.mp hissue
  obtain ⟨⟨⟨path, found⟩, name⟩, hname, hfound⟩ := List.mem_flatMap.mp hfound
  obtain ⟨hlong, hread⟩ := of_mem_nameIssues hfound
  have hnodeStands := standsIn_nodes value node hnode
  obtain ⟨hstands, hstring⟩ := standsIn_names hnodeStands hname
  have hstands : value.at? path = some found := hstands
  obtain rfl : found = .string name := Json.eq_string_of_string? hstring
  have hpath : issue.path? = some path := hread.trans (htext.ofJson?_path hstands hsize)
  -- the change
  let new := String.ofList (name.toList.take maxNameLength)
  have hfits : Change.Fits value (.replace path (.string new)) :=
    .replace path hstands (.scalar _) (Json.exact_string new)
  have hfix : Rule.nameLength.fix ⟨ofText text, value⟩ issue =
      .ok (Change.edit? (ofText text) (.replace path (.string new))) := by
    obtain ⟨sub, hsub, hvalue⟩ := htext.exists_at? hstands
    have hstring : sub.string? = some name := by
      rw [← Tree.string?_toJson, hvalue]
      rfl
    rw [Rule.fix, if_pos hcan, Change.edit?, hsub, Option.map_some]
    exact fixName_of_at? hpath hsub hstring
  obtain ⟨ctx', hleaves, hvalue⟩ := hfits.fixLeaves (htext.length_path_le hstands) htext hfix
  refine ⟨path, name, ctx', hpath, hstands, ⟨node, hnode, hname⟩, hleaves, hvalue, ?_⟩
  -- what becomes of the node
  obtain ⟨rest, hbelow, -⟩ := below_of_mem_names hname
  have hbelow : path = node.part.path ++ rest := hbelow
  have hputs : Json.Puts (.string new) path value ctx'.value := by
    rw [hvalue]
    exact Json.puts_modifyAt hstands fun _ => .string new
  rw [hbelow] at hputs
  obtain ⟨value', houter, hinner⟩ := hputs.exists_between hnodeStands
  have hshort : new.length ≤ maxNameLength := by
    simp only [new, String.length_ofList, List.length_take]
    exact Nat.min_le_left ..
  have hloses := (Node.repairs_of_name hnode hname hlong hshort hinner hbelow.symm).report_loses hnode houter
  have hmark : issue.mark = Code.at Code.nameLength path :=
    Prod.ext (List.mem_singleton.mp howns.code) hread
  exact hmark ▸ hloses

/-- The name of an entry below the top of a document, written with an escape. -/
theorem fixName_of_isClean_of_entry :
    let text := "\x7b\"scope\":\x7b\x7d,\"Children\":[\x7b\"definitionEntryList\":[" ++
      "\x7b\"assignment\":\x7b\"name\":\"\\u0061bcd efgh ijkl mnop qrst \\u0022\"\x7d\x7d]\x7d]\x7d"
    let path : Path := [.name "Children", .index 0, .name "definitionEntryList", .index 0, .name "assignment",
      .name "name"]
    ((ofText text).isClean = true ∧ Text.byteLength text.toList < 0x10000000000000000) ∧
      ∃ ctx ctx' issue, Context.ofDocument? (ofText text) = some ctx ∧
        (Rule.nameLength.check ctx (.new none)).1 = .ok [issue] ∧ issue.path? = some path ∧
        Rule.nameLength.FixLeaves issue ctx ctx' ∧
        ctx'.value.at? path = some (.string "abcd efgh ijkl mnop qrst") ∧
        Loses issue.mark (report ctx) (report ctx') := by
  intro text path
  have hread : (ofText text).isClean = true ∧ Text.byteLength text.toList < 0x10000000000000000 ∧
      (Context.ofDocument? (ofText text)).map (fun ctx =>
        ((checkNames ctx).map (·.path?), (ctx.value.at? path).bind Json.string?)) =
          some ([some path], some "abcd efgh ijkl mnop qrst \"") := by decide +kernel
  obtain ⟨hclean, hsize, hread⟩ := hread
  obtain ⟨ctx, hctx, hread⟩ := Option.map_eq_some_iff.mp hread
  obtain ⟨hpaths, hname⟩ := Prod.mk.inj hread
  obtain ⟨issue, hissues, hpath⟩ := List.map_eq_singleton_iff.mp hpaths
  have hcheck : (Rule.nameLength.check ctx (.new none)).1 = .ok [issue] := congrArg Except.ok hissues
  obtain ⟨_, name, ctx', hpath', hstands, -, hleaves, hvalue, hloses⟩ :=
    fixName_of_isClean hclean hsize hctx hcheck (List.mem_singleton_self issue)
  obtain rfl := Option.some.inj (hpath'.symm.trans hpath)
  rw [hstands] at hname
  obtain rfl : name = "abcd efgh ijkl mnop qrst \"" := Option.some.inj hname
  have hcut : String.ofList ("abcd efgh ijkl mnop qrst \"".toList.take 24) = "abcd efgh ijkl mnop qrst" := by
    decide +kernel
  refine ⟨⟨hclean, hsize⟩, ctx, ctx', issue, hctx, hcheck, hpath, hleaves, ?_, hloses⟩
  rw [hvalue, Json.at?_modifyAt hstands, hcut]

/-! ## Scopes -/

/-- The environments of the first scope of a document, from the top on. What is no object is no scope. -/
def IsFirstScope (value : Json) (environments : Keyed Json) : Prop :=
  ∃ before node after, nodes value = before ++ node :: after ∧
    node.part.value.field? .scope = some (.object environments) ∧
      ∀ other ∈ before, ∀ found, other.part.value.field? .scope ≠ some (.object found)

/-- The environments of a scope, each with a path to be completed where it has a path, or a list of one where it
has a list. -/
def placeholders (environments : Keyed Json) : Keyed Json :=
  environments.map fun (environment, paths) =>
    (environment, if paths.isArray then .array [placeholderPath] else placeholderPath)

/-- Only the names of the environments and which of them have lists matter. -/
theorem placeholders_eq_map (environments : Keyed Json) : placeholders environments =
    (environments.map fun (environment, paths) => (environment, paths.isArray)).map fun (environment, isList) =>
      (environment, if isList then .array [placeholderPath] else placeholderPath) := by
  rw [placeholders, List.map_map]
  rfl

theorem field?_scope_bind_members?_eq_some_iff {part : Json} {environments : Keyed Json} :
    (part.field? .scope).bind Json.members? = some environments ↔
      part.field? .scope = some (.object environments) := by
  constructor
  · intro h
    obtain ⟨scope, hscope, hmembers⟩ := Option.bind_eq_some_iff.mp h
    rw [hscope, Json.eq_object_of_members? hmembers]
  · intro h
    rw [h]
    rfl

theorem isFirstScope_iff {environments : Keyed Json} : IsFirstScope value environments ↔
    ((nodes value).filterMap fun node => (node.part.value.field? .scope).bind Json.members?).head? =
      some environments := by
  simp only [IsFirstScope, List.head?_filterMap, List.findSome?_eq_some_iff,
    field?_scope_bind_members?_eq_some_iff, Option.eq_none_iff_forall_ne_some, ne_eq]

theorem placeholderScope_of_isFirstScope {environments : Keyed Json} (h : IsFirstScope value environments)
    (hfilled : environments ≠ []) : placeholderScope value = .object (placeholders environments) := by
  rw [isFirstScope_iff] at h
  unfold placeholderScope
  dsimp only
  rw [h]
  cases environments with
  | nil => exact absurd rfl hfilled
  | cons first rest => rfl

theorem placeholderScope_of_empty (h : ∀ environments, IsFirstScope value environments → environments = []) :
    placeholderScope value = .object [(placeholderEnvironment, .array [placeholderPath])] := by
  simp only [isFirstScope_iff] at h
  unfold placeholderScope
  dsimp only
  split
  · next first rest hfirst => cases h _ hfirst
  · rfl

/-- **Adding a scope.** For each finding of a clean document that a leaf has no scope, the leaf inside at most 125
containers, the fix has an edit, which applies and leaves a clean document. There the leaf has a scope, with the
environments of the first scope of the document where that has any, else with one list. Everything else is as
before, and the rules for trees of assignments report what they reported before but for this finding. (The bytes
of a text are counted in 64 bits.) -/
theorem fixScope_of_isClean (hclean : (ofText text).isClean = true)
    (hsize : Text.byteLength text.toList < 0x10000000000000000)
    (hctx : Context.ofDocument? (ofText text) = some ctx)
    (hcheck : (Rule.assignmentScope.check ctx registry).1 = .ok issues) (hissue : issue ∈ issues)
    (hcode : issue.code = Code.missingScope)
    (hdepth : ∀ path, issue.path? = some path → path.length ≤ 125) :
    ∃ path scope ctx', issue.path? = some path ∧
      (∃ node ∈ nodes ctx.value, node.part.path = path ∧ node.part.value.field? .scope = none) ∧
      Rule.assignmentScope.FixLeaves issue ctx ctx' ∧
      ctx'.value = ctx.value.modifyAt (·.insert "scope" (.object scope)) path ∧
      (∀ environments, IsFirstScope ctx.value environments → environments ≠ [] →
        scope = placeholders environments) ∧
      ((∀ environments, IsFirstScope ctx.value environments → environments = []) →
        scope = [("default", .array [placeholderPath])]) ∧
      Loses issue.mark (report ctx) (report ctx') := by
  obtain ⟨value, rfl, htext⟩ := Renders.exists_of_context hclean hctx
  obtain rfl := Except.ok.inj hcheck
  have hcan : Rule.assignmentScope.canFix issue = true :=
    (ownsAll_checkScopes _ issue hissue).canFix (hcode ▸ by decide)
  obtain ⟨node, hnode, hleaf, hbare, hread⟩ := exists_bare_of_mem_checkScopes hissue hcode
  have hstands : value.at? node.part.path = some node.part.value := standsIn_nodes value node hnode
  have hobject : node.part.value.isObject = true := isObject_of_mem_nodes hnode
  have hnone : node.part.value.field? .scope = none := field?_scope_of_bare hnode hbare
  have hpath : issue.path? = some node.part.path := hread.trans (htext.ofJson?_path hstands hsize)
  -- the change
  obtain ⟨scope, hscope, -, hplaceholders⟩ := exists_placeholderScope htext.sorted
  obtain ⟨hsorted, hexact, hreach⟩ := plain_placeholderScope htext.sorted
  rw [hscope] at hsorted hexact hreach
  have hfits : Change.Fits value (.insert node.part.path "scope" (.object scope)) :=
    .insert _ _ hstands hobject (Json.get?_of_field?_eq_none hnone (by decide)) hsorted hexact
  have hroom : Change.HasRoom (.insert node.part.path "scope" (.object scope)) := by
    have hlength := hdepth _ hpath
    rw [Change.HasRoom, maxDepth]
    omega
  have hfix : Rule.assignmentScope.fix ⟨ofText text, value⟩ issue =
      .ok (Change.edit? (ofText text) (.insert node.part.path "scope" (.object scope))) := by
    obtain ⟨sub, hsub, hsubValue⟩ := htext.exists_at? hstands
    rw [← hsubValue, Tree.isObject_toJson] at hobject
    rw [Rule.fix, if_pos hcan, ← Change.map_insertMember hsub hobject, ← hscope]
    exact fixScope_of_at? hpath hsub
  obtain ⟨ctx', hleaves, hvalue⟩ := hfits.fixLeaves hroom htext hfix
  refine ⟨node.part.path, scope, ctx', hpath, ⟨node, hnode, rfl, hnone⟩, hleaves, hvalue,
    fun environments hfirst hfilled => ?_, fun hempty => ?_, ?_⟩
  · exact Json.object.inj (hscope.symm.trans (placeholderScope_of_isFirstScope hfirst hfilled))
  · exact Json.object.inj (hscope.symm.trans (placeholderScope_of_empty hempty))
  -- what becomes of the node
  have hputs : Json.Puts (node.part.value.insert "scope" (.object scope)) node.part.path value ctx'.value := by
    rw [hvalue]
    exact Json.puts_modifyAt hstands (·.insert "scope" (.object scope))
  have hrepairs := Node.repairs_of_scope hnode hleaf hbare (Json.alikeBut_insert _ "scope" (.object scope))
    (Json.get?_insert_self hobject "scope" (.object scope)) hplaceholders
  have hmark : issue.mark = Code.at Code.missingScope node.part.path := Prod.ext hcode hread
  exact hmark ▸ hrepairs.report_loses hnode hputs

/-- A leaf beside one with a scope of two environments, a path and a list. -/
theorem fixScope_of_isClean_of_environments :
    let text := "\x7b\"nodeName\":\"a\",\"children\":[\x7b\"scope\":" ++
      "\x7b\"dev\":\"/subscriptions/1\",\"prod\":[]\x7d\x7d,\x7b\"nodeName\":\"b\"\x7d]\x7d"
    let path : Path := [.name "children", .index 1]
    ((ofText text).isClean = true ∧ Text.byteLength text.toList < 0x10000000000000000) ∧
      ∃ ctx ctx' issue, Context.ofDocument? (ofText text) = some ctx ∧
        (Rule.assignmentScope.check ctx (.new none)).1 = .ok [issue] ∧ issue.code = Code.missingScope ∧
        issue.path? = some path ∧ Rule.assignmentScope.FixLeaves issue ctx ctx' ∧
        ctx'.value.at? (path ++ [.name "scope"]) =
          some (.object [("dev", placeholderPath), ("prod", .array [placeholderPath])]) ∧
        Loses issue.mark (report ctx) (report ctx') := by
  intro text path
  have hread : (ofText text).isClean = true ∧ Text.byteLength text.toList < 0x10000000000000000 ∧
      (Context.ofDocument? (ofText text)).map (fun ctx => ((checkScopes ctx).map Issue.mark,
        ((nodes ctx.value).filterMap fun node => (node.part.value.field? .scope).bind Json.members?).head?.map
          fun environments => environments.map fun (environment, paths) => (environment, paths.isArray))) =
            some ([(Code.missingScope, some path)], some [("dev", false), ("prod", true)]) := by decide +kernel
  obtain ⟨hclean, hsize, hread⟩ := hread
  obtain ⟨ctx, hctx, hread⟩ := Option.map_eq_some_iff.mp hread
  obtain ⟨hmarks, hscopes⟩ := Prod.mk.inj hread
  obtain ⟨issue, hissues, hmark⟩ := List.map_eq_singleton_iff.mp hmarks
  obtain ⟨hcode, hpath⟩ := Prod.mk.inj hmark
  have hcheck : (Rule.assignmentScope.check ctx (.new none)).1 = .ok [issue] := congrArg Except.ok hissues
  obtain ⟨environments, hfirst, hshape⟩ := Option.map_eq_some_iff.mp hscopes
  obtain ⟨_, scope, ctx', hpath', ⟨node, hnode, hnodePath, -⟩, hleaves, hvalue, hscope, -, hloses⟩ :=
    fixScope_of_isClean hclean hsize hctx hcheck (List.mem_singleton_self issue) hcode fun found hfound => by
      obtain rfl := Option.some.inj (hfound.symm.trans hpath)
      decide
  obtain rfl := Option.some.inj (hpath'.symm.trans hpath)
  refine ⟨⟨hclean, hsize⟩, ctx, ctx', issue, hctx, hcheck, hcode, hpath, hleaves, ?_, hloses⟩
  have hplaceholders : placeholders environments = [("dev", placeholderPath), ("prod", .array [placeholderPath])] := by
    rw [placeholders_eq_map, hshape]
    rfl
  have hfilled : environments ≠ [] := by
    rintro rfl
    cases hshape
  have hstands : ctx.value.at? path = some node.part.value := hnodePath ▸ standsIn_nodes ctx.value node hnode
  rw [hvalue, Json.at?_append, Json.at?_modifyAt hstands, Option.bind_some,
    Json.at?_insert (isObject_of_mem_nodes hnode), hscope _ (isFirstScope_iff.mpr hfirst) hfilled, hplaceholders]

end Assignment

end PolicyAudit
