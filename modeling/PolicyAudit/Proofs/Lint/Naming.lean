-- SUMMARY: Giving an entry a fresh id clears the finding that it is for, unless the id is derived from blanks.
import PolicyAudit.Proofs.Lint.Clearing
import PolicyAudit.Proofs.Lint.Entries

/-! ## Filled texts -/

namespace PolicyAudit

open Document

variable {text : String} {ctx ctx' : Context} {issue : Issue} {issues : List Issue} {registry : Registry}
variable {value : Json} {edit : Edit}

theorem Json.not_blank_of_filledText? {field : Field} (h : value.filledText? field = some text) :
    Text.blank text = false := by
  obtain ⟨-, hfilled⟩ := Option.filter_eq_some_iff.mp h
  exact (Bool.not_eq_true' _).mp hfilled

theorem Json.isObject_of_filledText? {field : Field} (h : value.filledText? field = some text) :
    value.isObject = true := by
  obtain ⟨htext, -⟩ := Option.filter_eq_some_iff.mp h
  obtain ⟨found, hfound, -⟩ := Option.bind_eq_some_iff.mp htext
  obtain ⟨_, hspelling, -⟩ := Option.map_eq_some_iff.mp hfound
  exact isObject_of_spelling? hspelling

namespace Reference

/-! ## Naming an entry -/

variable {entry part : Part} {before after : List Part} {id base : String}

/-- The change that gives an entry an id: in the place of what it has for one, or else as a new member. -/
def naming (entry : Part) (id : String) : Change :=
  match entry.field? .referenceId with
  | some part => .replace part.path (.string id)
  | none => .insert entry.path referenceIdName (.string id)

theorem naming_of_field? (h : entry.field? .referenceId = some part) (id : String) :
    naming entry id = .replace part.path (.string id) := by rw [naming, h]

theorem naming_of_no_field (h : entry.field? .referenceId = none) (id : String) :
    naming entry id = .insert entry.path referenceIdName (.string id) := by rw [naming, h]

theorem fits_naming (hentry : entry.StandsIn value) (hobject : entry.value.isObject = true) (id : String) :
    (naming entry id).Fits value := by
  cases hfield : entry.field? .referenceId with
  | some part =>
    rw [naming_of_field? hfield]
    exact .replace part.path (hentry.field? hfield) (.scalar _) (Json.exact_string id)
  | none =>
    rw [naming_of_no_field hfield]
    have hfresh : entry.value.get? referenceIdName = none := Part.get?_of_field?_eq_none hfield (by decide)
    exact .insert entry.path referenceIdName hentry hobject hfresh (.scalar _) (Json.exact_string id)

/-- An entry stands in a list, which stands in the document or in its properties. -/
theorem length_path_le_of_mem_entries (hentry : entry ∈ entries value) : entry.path.length ≤ 3 := by
  rw [entries_eq] at hentry
  obtain ⟨name, -, index, hpath⟩ := Part.path_of_mem_fieldItems hentry
  have hproperties := Part.length_path_properties_le value
  rw [hpath, List.length_append, List.length_cons, List.length_singleton]
  omega

theorem hasRoom_naming (htext : Renders text value) (hentry : entry ∈ entries value) (id : String) :
    (naming entry id).HasRoom := by
  cases hfield : entry.field? .referenceId with
  | some part =>
    rw [naming_of_field? hfield]
    exact htext.length_path_le ((standsIn_entries value entry hentry).field? hfield)
  | none =>
    rw [naming_of_no_field hfield]
    have hlength := length_path_le_of_mem_entries hentry
    have hreach : (Json.string id).reach = 0 := rfl
    rw [Change.HasRoom, hreach, maxDepth]
    omega

theorem addId_eq {tree : Tree} (htree : ctx.doc.at? entry.path = some tree) (hobject : tree.isObject = true)
    (id : String) : addId ctx tree entry id = .ok ((naming entry id).edit? ctx.doc) := by
  unfold addId naming
  cases hfield : entry.field? .referenceId with
  | some part => rfl
  | none => exact Change.map_insertMember htree hobject referenceIdName (.string id)

/-- The entries after the change: one is named. -/
theorem exists_named (hold : entries value = before ++ entry :: after) (hobject : entry.value.isObject = true)
    (id : String) :
    ∃ entry', Named entry entry' id ∧ entries ((naming entry id).result value) = before ++ entry' :: after := by
  have hstands : entry.StandsIn value :=
    standsIn_entries value entry (hold ▸ List.mem_append_right _ List.mem_cons_self)
  cases hfield : entry.field? .referenceId with
  | some part =>
    obtain ⟨⟨key, old⟩, hspelling, rfl⟩ := Option.map_eq_some_iff.mp hfield
    have hputs : Json.Puts (.string id) (entry.path ++ [.name key]) value ((naming entry id).result value) := by
      rw [naming_of_field? hfield]
      exact Json.puts_modifyAt (hstands.field? hfield) fun _ => .string id
    obtain ⟨inner, hinner, hnew⟩ := entries_of_puts hold hputs
    exact ⟨⟨entry.path, inner⟩, .of_replaced hspelling hinner, hnew⟩
  | none =>
    have hputs : Json.Puts (entry.value.insert referenceIdName (.string id)) (entry.path ++ []) value
        ((naming entry id).result value) := by
      rw [naming_of_no_field hfield, List.append_nil]
      exact Json.puts_modifyAt hstands (·.insert referenceIdName (.string id))
    obtain ⟨inner, hinner, hnew⟩ := entries_of_puts hold hputs
    cases hinner with
    | here =>
      have halike := Json.alikeBut_insert entry.value referenceIdName (.string id)
      exact ⟨_, .of_added hfield halike (Json.get?_insert_self hobject ..), hnew⟩

/-- An id that no entry has takes the finding about the id of its entry away, if it is more than blanks. -/
theorem loses_of_naming (hold : entries ctx.value = before ++ entry :: after)
    (hobject : entry.value.isObject = true)
    (hissue : issue ∈ idIssues ctx (before.foldl see []) before.length entry) (hfree : ¬ Uses ctx.value id)
    (hfilled : Text.blank id = false) (hvalue : ctx'.value = (naming entry id).result ctx.value) :
    Loses issue.mark ((check ctx).map Issue.mark) ((check ctx').map Issue.mark) := by
  obtain ⟨entry', hnamed, hnew⟩ := exists_named hold hobject id
  rw [← hvalue] at hnew
  refine hnamed.loses hfilled hold hnew hissue fun other hother => ?_
  rintro ⟨found, text, htext, hsame⟩
  have hmem : other ∈ entries ctx.value := by
    rw [hold]
    rcases List.mem_append.mp hother with hbefore | hafter
    · exact List.mem_append_left _ hbefore
    · exact List.mem_append_right _ (List.mem_cons_of_mem _ hafter)
  exact hfree ⟨other, hmem, text, text?_of_referenceId? htext, hsame⟩

/-- Blanks for an id are as good as none. -/
theorem map_mark_check_of_naming (hold : entries ctx.value = before ++ entry :: after)
    (hobject : entry.value.isObject = true) (hnone : referenceId? entry = none) (hblank : Text.blank id = true)
    (hvalue : ctx'.value = (naming entry id).result ctx.value) :
    (check ctx').map Issue.mark = (check ctx).map Issue.mark := by
  obtain ⟨entry', hnamed, hnew⟩ := exists_named hold hobject id
  rw [← hvalue] at hnew
  exact hnamed.map_mark_check_eq hblank hold hnew hnone

/-! ## Duplicate ids -/

/-- The first variant of an id that no entry of a collection has, from the second on. -/
structure IsFirstFree (value : Json) (base : String) (n : Nat) : Prop where
  two_le : 2 ≤ n
  free : ¬ Uses value (variant base n)
  used : ∀ m, 2 ≤ m → m < n → Uses value (variant base m)

theorem not_uses_freshId (value : Json) (base : String) : ¬ Uses value (freshId base (usedIds value)) := by
  rw [← inUse_usedIds_iff, not_inUse_freshId]
  exact Bool.false_ne_true

theorem freshId_of_not_uses (h : ¬ Uses value base) : freshId base (usedIds value) = base := by
  rw [← inUse_usedIds_iff, Bool.not_eq_true] at h
  exact freshId_of_not_inUse h

theorem exists_freshId_of_uses (h : Uses value base) :
    ∃ n, IsFirstFree value base n ∧ freshId base (usedIds value) = variant base n := by
  obtain ⟨n, htwo, hfresh, -, hused⟩ := exists_freshId_of_inUse (inUse_usedIds_iff.mpr h)
  have hfree : ¬ Uses value (variant base n) := hfresh ▸ not_uses_freshId value base
  exact ⟨n, ⟨htwo, hfree, fun m hm hlt => inUse_usedIds_iff.mp (hused m hm hlt)⟩, hfresh⟩

/-- **Renaming a duplicate.** For each finding of a clean collection that an id was seen before the fix has an edit,
which applies and leaves a clean document. There the id is its first variant that no entry had, letter case aside,
everything else is as before, and the rule reports what it reported before but for this finding. (The bytes of a
text are counted in 64 bits.) -/
theorem fixDuplicate_of_isClean (hclean : (ofText text).isClean = true)
    (hsize : Text.byteLength text.toList < 0x10000000000000000)
    (hctx : Context.ofDocument? (ofText text) = some ctx)
    (hcheck : (Rule.referenceIntegrity.check ctx registry).1 = .ok issues) (hissue : issue ∈ issues)
    (hcode : issue.code = Code.duplicateReferenceId) :
    ∃ entry ∈ entries ctx.value, ∃ part id n ctx' issues', referenceId? entry = some (part, id) ∧
      issue.path? = some part.path ∧ Rule.referenceIntegrity.FixLeaves issue ctx ctx' ∧
      IsFirstFree ctx.value id n ∧ ctx'.value = ctx.value.modifyAt (fun _ => .string (variant id n)) part.path ∧
      (Rule.referenceIntegrity.check ctx' registry).1 = .ok issues' ∧
      Loses issue.mark (issues.map Issue.mark) (issues'.map Issue.mark) := by
  obtain ⟨value, rfl, htext⟩ := Renders.exists_of_context hclean hctx
  obtain rfl := Except.ok.inj hcheck
  have hcan : Rule.referenceIntegrity.canFix issue = true :=
    (Rule.ownsAll_check hcheck issue hissue).canFix (hcode ▸ by decide)
  obtain ⟨before, entry, after, hold, hfound⟩ := exists_of_mem_check hissue (hcode ▸ by decide)
  obtain ⟨part, id, hid, hread, hquoted⟩ := exists_id_of_mem_idIssues hfound hcode
  obtain ⟨hfield, hstring, -⟩ := of_referenceId? hid
  have hentry : entry ∈ entries value := hold ▸ List.mem_append_right _ List.mem_cons_self
  have hstands : entry.StandsIn value := standsIn_entries value entry hentry
  have hobject : entry.value.isObject = true := Part.isObject_of_field? hfield
  have hpath : issue.path? = some part.path := hread.trans (htext.ofJson?_path (hstands.field? hfield) hsize)
  obtain ⟨n, hfirst, hfresh⟩ := exists_freshId_of_uses (uses_of_referenceId? hentry hid)
  have hnaming := naming_of_field? hfield (variant id n)
  -- the change
  have hfix : Rule.referenceIntegrity.fix ⟨ofText text, value⟩ issue =
      .ok ((naming entry (variant id n)).edit? (ofText text)) := by
    obtain ⟨sub, hsub, -⟩ := htext.exists_at? (hstands.field? hfield)
    rw [Rule.fix, if_pos hcan, hnaming, Change.edit?, hsub, Option.map_some, ← hfresh]
    exact fix_of_duplicate hpath hsub hcode hquoted
  obtain ⟨ctx', hleaves, hvalue⟩ :=
    (fits_naming hstands hobject _).fixLeaves (hasRoom_naming htext hentry _) htext hfix
  refine ⟨entry, hentry, part, id, n, ctx', _, hid, hpath, hleaves, hfirst, ?_, rfl, ?_⟩
  · rw [hvalue, hnaming]
    rfl
  · exact loses_of_naming hold hobject hfound hfirst.free (not_blank_variant id n) hvalue

/-- An id in another letter case, the second variant of which another entry has. -/
theorem fixDuplicate_of_isClean_of_variant :
    let text := "\x7b\"policyDefinitions\":[\x7b\"policyDefinitionReferenceId\":\"x\"\x7d," ++
      "\x7b\"policyDefinitionReferenceId\":\"X\"\x7d,\x7b\"policyDefinitionReferenceId\":\"x-2\"\x7d]\x7d"
    let path : Path := [.name "policyDefinitions", .index 1, .name "policyDefinitionReferenceId"]
    ((ofText text).isClean = true ∧ Text.byteLength text.toList < 0x10000000000000000) ∧
      ∃ ctx ctx' issue issues issues', Context.ofDocument? (ofText text) = some ctx ∧
        (Rule.referenceIntegrity.check ctx (.new none)).1 = .ok issues ∧ issue ∈ issues ∧
        issue.code = Code.duplicateReferenceId ∧ issue.path? = some path ∧
        Rule.referenceIntegrity.FixLeaves issue ctx ctx' ∧ ctx'.value.at? path = some (.string "X-3") ∧
        (Rule.referenceIntegrity.check ctx' (.new none)).1 = .ok issues' ∧
        Loses issue.mark (issues.map Issue.mark) (issues'.map Issue.mark) := by
  intro text path
  have hread : (ofText text).isClean = true ∧ Text.byteLength text.toList < 0x10000000000000000 ∧
      (Context.ofDocument? (ofText text)).map (fun ctx =>
        (decide ((Code.duplicateReferenceId, some path) ∈ (check ctx).map Issue.mark),
          (ctx.value.at? path).bind Json.string?, inUse (usedIds ctx.value) "X-2",
          inUse (usedIds ctx.value) "X-3")) = some (true, some "X", true, false) := by decide +kernel
  obtain ⟨hclean, hsize, hread⟩ := hread
  obtain ⟨ctx, hctx, hread⟩ := Option.map_eq_some_iff.mp hread
  obtain ⟨hmark, hread⟩ := Prod.mk.inj hread
  obtain ⟨hstring, hread⟩ := Prod.mk.inj hread
  obtain ⟨hsecond, hthird⟩ := Prod.mk.inj hread
  rw [inUse_usedIds_iff] at hsecond
  rw [← Bool.not_eq_true, inUse_usedIds_iff] at hthird
  obtain ⟨issue, hissue, hmark⟩ := List.mem_map.mp (of_decide_eq_true hmark)
  obtain ⟨hcode, hpath⟩ := Prod.mk.inj hmark
  have hcheck : (Rule.referenceIntegrity.check ctx (.new none)).1 = .ok (check ctx) := rfl
  obtain ⟨entry, hentry, part, id, n, ctx', issues', hid, hpath', hleaves, hfirst, hvalue, hcheck', hloses⟩ :=
    fixDuplicate_of_isClean hclean hsize hctx hcheck hissue hcode
  obtain ⟨hstands, htext⟩ := standsIn_referenceId? (standsIn_entries ctx.value entry hentry) hid
  have hstands : ctx.value.at? part.path = some part.value := hstands
  have hplace : part.path = path := Option.some.inj (hpath'.symm.trans hpath)
  rw [hplace] at hstands hvalue
  rw [hstands, Option.bind_some, htext] at hstring
  obtain rfl := Option.some.inj hstring
  have hn : n = 3 := by
    have hne : n ≠ 2 := by
      rintro rfl
      exact hfirst.free hsecond
    have hle : ¬ 3 < n := fun hlt => hthird (hfirst.used 3 (by decide) hlt)
    have htwo := hfirst.two_le
    omega
  refine ⟨⟨hclean, hsize⟩, ctx, ctx', issue, _, issues', hctx, hcheck, hissue, hcode, hpath, hleaves, ?_, hcheck',
    hloses⟩
  rw [hvalue, Json.at?_modifyAt hstands, hn]
  rfl

/-! ## Missing ids

An id is derived from the last token of what names the definition. A path may end in a token of blanks, and blanks
for an id are reported as none. -/

/-- What stands after the last slash of a path, the slashes at its end aside. -/
def LastToken (path token : List Char) : Prop :=
  ∃ front slashes, path = front ++ token ++ slashes ∧ (∀ c ∈ slashes, c = '/') ∧ '/' ∉ token ∧
    ∀ c, front.getLast? = some c → c = '/'

theorem lastToken_takeWhile (path : List Char) :
    LastToken path ((path.reverse.dropWhile (· = '/')).takeWhile (· ≠ '/')).reverse := by
  let rest := path.reverse.dropWhile (· = '/')
  refine ⟨(rest.dropWhile (· ≠ '/')).reverse, (path.reverse.takeWhile (· = '/')).reverse, ?_, fun c hc => ?_,
    fun hslash => ?_, fun c hc => ?_⟩
  · rw [← List.reverse_append, ← List.reverse_append, List.takeWhile_append_dropWhile,
      List.takeWhile_append_dropWhile, List.reverse_reverse]
  · exact of_decide_eq_true (List.all_eq_true.mp List.all_takeWhile c (List.mem_reverse.mp hc))
  · have hother := List.all_eq_true.mp List.all_takeWhile _ (List.mem_reverse.mp hslash)
    exact of_decide_eq_true hother rfl
  · have hhead := List.head?_dropWhile_not (· ≠ '/') rest
    rw [List.getLast?_reverse] at hc
    rw [hc] at hhead
    simpa using hhead

/-- Blanks are derived from the last token of a definition id only. -/
theorem exists_of_derivedId?_of_blank (h : derivedId? value = some base) (hblank : Text.blank base = true) :
    ∃ definition, value.filledText? .definitionId = some definition ∧ LastToken definition.toList base.toList := by
  unfold derivedId? at h
  split at h
  · next definition hdefinition =>
    refine ⟨definition, hdefinition, ?_⟩
    dsimp only at h
    rw [List.reverse_reverse] at h
    split at h
    · cases h
    · rw [← Option.some.inj h, String.toList_ofList]
      exact lastToken_takeWhile definition.toList
  · cases hblank.symm.trans (Json.not_blank_of_filledText? h)

theorem isObject_of_derivedId? (h : derivedId? value = some base) : value.isObject = true := by
  unfold derivedId? at h
  split at h
  · next definition hdefinition => exact Json.isObject_of_filledText? hdefinition
  · exact Json.isObject_of_filledText? h

theorem freshId_of_blank (hblank : Text.blank (freshId base (usedIds value)) = true) :
    freshId base (usedIds value) = base := by
  by_cases hused : Uses value base
  · obtain ⟨n, -, hfresh⟩ := exists_freshId_of_uses hused
    rw [hfresh, not_blank_variant] at hblank
    cases hblank
  · exact freshId_of_not_uses hused

/-- **Adding an id.** For each finding of a clean collection that an entry has no id the edit of the fix, if there is
one, applies and leaves a clean document. There the entry has the id derived from what it names, or the first
variant of it that no entry had, letter case aside, and everything else is as before. The rule reports what it
reported before but for this finding, unless that id is blank: then it reports the same again. -/
theorem fixMissing_of_isClean (hclean : (ofText text).isClean = true)
    (hctx : Context.ofDocument? (ofText text) = some ctx)
    (hcheck : (Rule.referenceIntegrity.check ctx registry).1 = .ok issues) (hissue : issue ∈ issues)
    (hcode : issue.code = Code.missingReferenceId)
    (hedit : Rule.referenceIntegrity.fix ctx issue = .ok (some edit)) :
    ∃ entry ∈ entries ctx.value, ∃ base id ctx' issues', issue.path? = some entry.path ∧
      derivedId? entry.value = some base ∧ Rule.referenceIntegrity.FixLeaves issue ctx ctx' ∧
      (¬ Uses ctx.value base → id = base) ∧
      (Uses ctx.value base → ∃ n, IsFirstFree ctx.value base n ∧ id = variant base n) ∧ ¬ Uses ctx.value id ∧
      ctx'.value = (naming entry id).result ctx.value ∧
      (Rule.referenceIntegrity.check ctx' registry).1 = .ok issues' ∧
      (Text.blank id = false → Loses issue.mark (issues.map Issue.mark) (issues'.map Issue.mark)) ∧
      (Text.blank id = true → issues'.map Issue.mark = issues.map Issue.mark ∧
        ∃ definition, entry.value.filledText? .definitionId = some definition ∧
          LastToken definition.toList id.toList) := by
  obtain ⟨value, rfl, htext⟩ := Renders.exists_of_context hclean hctx
  obtain rfl := Except.ok.inj hcheck
  have hcan : Rule.referenceIntegrity.canFix issue = true :=
    (Rule.ownsAll_check hcheck issue hissue).canFix (hcode ▸ by decide)
  obtain ⟨before, entry, after, hold, hfound⟩ := exists_of_mem_check hissue (hcode ▸ by decide)
  obtain ⟨hnone, hread⟩ := no_id_of_mem_idIssues hfound hcode
  have hentry : entry ∈ entries value := hold ▸ List.mem_append_right _ List.mem_cons_self
  have hstands : entry.StandsIn value := standsIn_entries value entry hentry
  rw [Rule.fix, if_pos hcan] at hedit
  obtain ⟨path, sub, hpath, hsub⟩ := exists_of_fix hedit
  obtain rfl := Path.eq_of_ofJson?_toJson (hread.symm.trans hpath)
  cases hbase : derivedId? entry.value with
  | none => cases (fix_of_no_base hpath hsub hcode hstands hbase).symm.trans hedit
  | some base =>
    have hobject : entry.value.isObject = true := isObject_of_derivedId? hbase
    let id := freshId base (usedIds value)
    -- the change
    have hfix : Rule.referenceIntegrity.fix ⟨ofText text, value⟩ issue =
        .ok ((naming entry id).edit? (ofText text)) := by
      obtain ⟨tree, htree, hvalue⟩ := htext.exists_at? hstands
      obtain rfl := Option.some.inj (htree.symm.trans hsub)
      rw [← hvalue, Tree.isObject_toJson] at hobject
      rw [Rule.fix, if_pos hcan]
      exact (fix_of_missing hpath hsub hcode hstands hbase).trans (addId_eq hsub hobject id)
    obtain ⟨ctx', hleaves, hvalue⟩ :=
      (fits_naming hstands hobject id).fixLeaves (hasRoom_naming htext hentry id) htext hfix
    have hfree : ¬ Uses value id := not_uses_freshId value base
    refine ⟨entry, hentry, base, id, ctx', _, hpath, hbase, hleaves, freshId_of_not_uses, exists_freshId_of_uses,
      hfree, hvalue, rfl, fun hfilled => ?_, fun hblank => ⟨?_, ?_⟩⟩
    · exact loses_of_naming hold hobject hfound hfree hfilled hvalue
    · exact map_mark_check_of_naming hold hobject hnone hblank hvalue
    · have hsame : id = base := freshId_of_blank hblank
      rw [hsame] at hblank ⊢
      exact exists_of_derivedId?_of_blank hbase hblank

/-- A definition id that ends in a token of blanks: the blank id is written, and the finding stands. -/
theorem fixMissing_of_isClean_of_blank_token :
    let text := "\x7b\"policyDefinitions\":[\x7b\"policyDefinitionId\":\"x/ \"\x7d]\x7d"
    (ofText text).isClean = true ∧
      ∃ ctx ctx' issue edit issues', Context.ofDocument? (ofText text) = some ctx ∧
        (Rule.referenceIntegrity.check ctx (.new none)).1 = .ok [issue] ∧
        issue.code = Code.missingReferenceId ∧
        Rule.referenceIntegrity.fix ctx issue = .ok (some edit) ∧
        Rule.referenceIntegrity.FixLeaves issue ctx ctx' ∧
        (Rule.referenceIntegrity.check ctx' (.new none)).1 = .ok issues' ∧
        issues'.map Issue.mark = [issue.mark] := by
  intro text
  have hread : (ofText text).isClean = true ∧ (Context.ofDocument? (ofText text)).map (fun ctx =>
      ((check ctx).map fun issue => (issue.code, (Rule.referenceIntegrity.fix ctx issue).toOption.join.isSome),
        (entries ctx.value).map fun entry => derivedId? entry.value, usedIds ctx.value)) =
          some ([(Code.missingReferenceId, true)], [some " "], []) := by decide +kernel
  obtain ⟨hclean, hread⟩ := hread
  obtain ⟨ctx, hctx, hread⟩ := Option.map_eq_some_iff.mp hread
  obtain ⟨hrow, hread⟩ := Prod.mk.inj hread
  obtain ⟨hbases, hused⟩ := Prod.mk.inj hread
  obtain ⟨issue, hissues, hrow⟩ := List.map_eq_singleton_iff.mp hrow
  obtain ⟨hcode, hfixed⟩ := Prod.mk.inj hrow
  have hcheck : (Rule.referenceIntegrity.check ctx (.new none)).1 = .ok [issue] := congrArg Except.ok hissues
  obtain ⟨edit, hedit⟩ : ∃ edit, Rule.referenceIntegrity.fix ctx issue = .ok (some edit) := by
    cases hfix : Rule.referenceIntegrity.fix ctx issue with
    | error e => simp [hfix, Except.toOption] at hfixed
    | ok edit? =>
      cases edit? with
      | none => simp [hfix, Except.toOption] at hfixed
      | some edit => exact ⟨edit, rfl⟩
  obtain ⟨entry, hentry, base, id, ctx', issues', -, hbase, hleaves, hkept, -, -, -, hcheck', -, hblank⟩ :=
    fixMissing_of_isClean hclean hctx hcheck (List.mem_singleton_self issue) hcode hedit
  have hmem := List.mem_map_of_mem (f := fun entry => derivedId? entry.value) hentry
  rw [hbases, List.mem_singleton, hbase] at hmem
  obtain rfl : base = " " := Option.some.inj hmem
  have hfree : ¬ Uses ctx.value " " := by
    rw [← inUse_usedIds_iff, hused]
    decide
  obtain rfl := hkept hfree
  exact ⟨hclean, ctx, ctx', issue, edit, issues', hctx, hcheck, hcode, hedit, hleaves, hcheck',
    (hblank (by decide)).1⟩

end Reference

end PolicyAudit
