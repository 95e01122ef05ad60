-- SUMMARY: When one entry of a collection changes its id for a free one, the others are reported on as before.
import PolicyAudit.Proofs.Lint.Marks
import PolicyAudit.Proofs.Lint.Variants

/-! ## The list of a changed collection -/

namespace PolicyAudit

variable {value value' new : Json} {rest : Path}

theorem Json.Puts.alikeBut {name : String} (h : Puts new (.name name :: rest) value value') :
    AlikeBut name value value' := by
  cases h with
  | name hold hput hnew hothers => exact hothers

theorem Json.Puts.isObject {name : String} (h : Puts new (.name name :: rest) value value') :
    value'.isObject = true := by
  cases h with
  | name hold hput hnew hothers => exact isObject_of_get? hnew

namespace Part

variable {name : String} {found : Json}

theorem isObject_of_field? {part child : Part} {field : Field} (h : part.field? field = some child) :
    part.value.isObject = true := by
  obtain ⟨_, hspelling, -⟩ := Option.map_eq_some_iff.mp h
  exact Json.isObject_of_spelling? hspelling

theorem properties_of_object (h : value.spelling? .properties = some (name, found))
    (hobject : found.isObject = true) : properties value = ⟨[.name name], found⟩ := by
  have hfield : (root value).field? .properties = some ⟨[] ++ [.name name], found⟩ := by
    rw [field?, root, h, Option.map_some]
  simp only [properties, hfield, hobject, if_true, List.nil_append]

theorem properties_of_no_object
    (h : ∀ name found, value.spelling? .properties = some (name, found) → found.isObject = false) :
    properties value = root value := by
  unfold properties
  split
  · next part hpart =>
    obtain ⟨⟨name, found⟩, hspelling, rfl⟩ := Option.map_eq_some_iff.mp hpart
    dsimp only
    rw [h name found hspelling, if_neg Bool.false_ne_true]
  · rfl

theorem length_path_properties_le (value : Json) : (properties value).path.length ≤ 1 := by
  unfold properties
  split
  · next part hpart =>
    obtain ⟨name, -, hpath⟩ := path_of_field? hpart
    split
    · rw [hpath]
      exact Nat.le_refl 1
    · exact Nat.zero_le 1
  · exact Nat.zero_le 1

/-- Properties in which another field changes stay where they are. -/
theorem properties_of_alikeBut {inner : Json} (hname : name ∉ Field.properties.spellings)
    (halike : Json.AlikeBut name (properties value).value inner) (hinner : inner.isObject = true)
    (hputs : Json.Puts inner (properties value).path value value') :
    properties value' = ⟨(properties value).path, inner⟩ := by
  by_cases hobject : ∃ key found, value.spelling? .properties = some (key, found) ∧ found.isObject = true
  · obtain ⟨key, found, hspelling, hfound⟩ := hobject
    rw [properties_of_object hspelling hfound] at hputs ⊢
    have hputs : Json.Puts inner [.name key] value value' := hputs
    obtain ⟨_, hnew, hbelow, -⟩ := hputs.exists_of_spelling? hspelling
    cases hbelow
    exact properties_of_object hnew hinner
  · have hnone (key : String) (found : Json) (hspelling : value.spelling? .properties = some (key, found)) :
        found.isObject = false := Bool.eq_false_iff.mpr fun hfound => hobject ⟨key, found, hspelling, hfound⟩
    rw [properties_of_no_object hnone] at hputs halike ⊢
    have hputs : Json.Puts inner [] value value' := hputs
    have hsame := halike.spelling?_eq hname
    cases hputs
    exact properties_of_no_object (hsame ▸ hnone)

/-- What is put below another field of the properties leaves the properties where they are. -/
theorem properties_of_puts (hname : name ∉ Field.properties.spellings)
    (hputs : Json.Puts new ((properties value).path ++ .name name :: rest) value value') :
    ∃ inner, properties value' = ⟨(properties value).path, inner⟩ ∧
      Json.Puts new (.name name :: rest) (properties value).value inner := by
  obtain ⟨inner, houter, hinner⟩ := hputs.exists_between (standsIn_properties value)
  exact ⟨inner, properties_of_alikeBut hname hinner.alikeBut hinner.isObject houter, hinner⟩

end Part

namespace Reference

variable {entry entry' part : Part} {before after parts : List Part} {issue : Issue} {id : String}
variable {seen seen' : List String} {index : Nat} {ctx ctx' : Context}

theorem entries_eq (value : Json) :
    entries value = (((Part.properties value).field? .definitions).map Part.items).getD [] := by
  rw [entries, list?]
  cases (Part.properties value).field? .definitions <;> rfl

theorem nodup_entries (value : Json) : (entries value).Nodup :=
  (entries_diverge value).imp fun h heq => h.ne (congrArg Part.path heq)

/-- Where something is put into an entry, the other entries stay as they are. -/
theorem entries_of_puts (hold : entries value = before ++ entry :: after)
    (hputs : Json.Puts new (entry.path ++ rest) value value') :
    ∃ inner, Json.Puts new rest entry.value inner ∧ entries value' = before ++ ⟨entry.path, inner⟩ :: after := by
  have hentry : entry ∈ entries value := hold ▸ List.mem_append_right _ List.mem_cons_self
  rw [entries_eq] at hentry
  obtain ⟨name, hname, index, hpath⟩ := Part.path_of_mem_fieldItems hentry
  have hplace : (Part.properties value).path ++ .name name :: .index index :: rest = entry.path ++ rest := by
    rw [hpath, List.append_assoc]
    rfl
  rw [← hplace] at hputs
  obtain ⟨properties', hproperties, hbelow⟩ :=
    Part.properties_of_puts (Field.not_mem_spellings hname (by decide)) hputs
  obtain ⟨-, -, inner, first, last, -, -, hinner, hsplit, hnew⟩ := Part.fieldItems_of_puts hentry hbelow hplace
  rw [← entries_eq, hold] at hsplit
  have hnodup := nodup_entries value
  rw [hold, List.nodup_middle, List.nodup_cons, List.mem_append, not_or] at hnodup
  obtain ⟨rfl, -, rfl⟩ := (List.append_cons_inj_of_notMem hnodup.1.1 hnodup.1.2).mp hsplit
  refine ⟨inner, hinner, ?_⟩
  rw [entries_eq, hproperties]
  exact hnew

/-! ## Ids in use -/

/-- Some entry of a collection has an id, letter case aside. -/
def Uses (value : Json) (id : String) : Prop :=
  ∃ entry ∈ entries value, ∃ text, entry.value.text? .referenceId = some text ∧
    Text.foldCase text = Text.foldCase id

theorem inUse_usedIds_iff : inUse (usedIds value) id = true ↔ Uses value id := by
  rw [inUse, List.contains_iff_mem, usedIds, List.mem_filterMap]
  simp only [Uses, Option.map_eq_some_iff]

theorem of_referenceId? (h : referenceId? entry = some (part, id)) :
    entry.field? .referenceId = some part ∧ part.value.string? = some id ∧ Text.blank id = false := by
  obtain ⟨found, hfound, h⟩ := Option.bind_eq_some_iff.mp h
  obtain ⟨text, htext, h⟩ := Option.bind_eq_some_iff.mp h
  split at h
  · cases h
  · next hblank =>
    obtain ⟨rfl, rfl⟩ := Prod.mk.inj (Option.some.inj h)
    exact ⟨hfound, htext, Bool.eq_false_iff.mpr hblank⟩

theorem text?_of_referenceId? (h : referenceId? entry = some (part, id)) :
    entry.value.text? .referenceId = some id := by
  obtain ⟨hfound, htext, -⟩ := of_referenceId? h
  rw [Json.text?, Part.field?_value hfound, Option.bind_some, htext]

theorem referenceId?_of_field? (h : entry.field? .referenceId = some part) (htext : part.value.string? = some id) :
    referenceId? entry = if Text.blank id then none else some (part, id) := by
  simp only [referenceId?, h, htext, Option.bind_eq_bind, Option.bind_some]

theorem uses_of_referenceId? (hentry : entry ∈ entries value) (h : referenceId? entry = some (part, id)) :
    Uses value id := ⟨entry, hentry, id, text?_of_referenceId? h, rfl⟩

/-! ## Ids seen -/

/-- An entry has an id that is not blank, and that is known without its letter case. -/
def HasId (entry : Part) (folded : String) : Prop :=
  ∃ part id, referenceId? entry = some (part, id) ∧ Text.foldCase id = folded

theorem mem_see_iff {folded : String} : folded ∈ see seen entry ↔ folded ∈ seen ∨ HasId entry folded := by
  unfold see HasId
  cases hid : referenceId? entry with
  | none => simp
  | some found =>
    obtain ⟨part, id⟩ := found
    simp only [Option.some.injEq, Prod.mk.injEq]
    split
    · next hseen =>
      rw [List.contains_iff_mem] at hseen
      constructor
      · exact .inl
      · rintro (hmem | ⟨_, _, ⟨rfl, rfl⟩, rfl⟩)
        · exact hmem
        · exact hseen
    · rw [List.mem_cons, or_comm]
      constructor
      · rintro (hmem | rfl)
        · exact .inl hmem
        · exact .inr ⟨part, id, ⟨rfl, rfl⟩, rfl⟩
      · rintro (hmem | ⟨_, _, ⟨rfl, rfl⟩, rfl⟩)
        · exact .inl hmem
        · exact .inr rfl

theorem mem_foldl_see_iff {folded : String} :
    folded ∈ parts.foldl see seen ↔ folded ∈ seen ∨ ∃ entry ∈ parts, HasId entry folded := by
  induction parts generalizing seen with
  | nil => simp
  | cons entry parts ih => simp only [List.foldl_cons, ih, mem_see_iff, List.mem_cons, exists_eq_or_imp, or_assoc]

/-! ## Findings about entries -/

theorem mark_nameIssues (ctx ctx' : Context) (index index' : Nat) (hpath : entry'.path = entry.path)
    (hid : entry'.value.field? .definitionId = entry.value.field? .definitionId)
    (hname : entry'.value.field? .definitionName = entry.value.field? .definitionName) :
    (nameIssues ctx' index' entry').map Issue.mark = (nameIssues ctx index entry).map Issue.mark := by
  have hfilled : (entry'.value.filledText? .definitionId).isSome = (entry.value.filledText? .definitionId).isSome ∧
      (entry'.value.filledText? .definitionName).isSome = (entry.value.filledText? .definitionName).isSome := by
    simp only [Json.filledText?, Json.text?, hid, hname, and_self]
  unfold nameIssues
  dsimp only
  rw [hfilled.1, hfilled.2]
  by_cases hboth : (entry.value.filledText? .definitionId).isSome = (entry.value.filledText? .definitionName).isSome
  · rw [if_pos hboth, if_pos hboth, List.map_singleton, List.map_singleton, Issue.mark, Issue.mark]
    exact congrArg (fun path => [Code.at Code.invalidReference path]) hpath
  · rw [if_neg hboth, if_neg hboth]

theorem mark_idIssues_missing (ctx : Context) (seen : List String) (index : Nat) (hid : referenceId? entry = none) :
    (idIssues ctx seen index entry).map Issue.mark = [Code.at Code.missingReferenceId entry.path] := by
  unfold idIssues
  rw [hid]
  rfl

theorem mark_idIssues_duplicate (ctx : Context) (index : Nat) (hid : referenceId? entry = some (part, id))
    (hseen : Text.foldCase id ∈ seen) :
    (idIssues ctx seen index entry).map Issue.mark = [Code.at Code.duplicateReferenceId part.path] := by
  unfold idIssues
  rw [hid]
  dsimp only
  rw [if_pos (List.contains_iff_mem.mpr hseen)]
  rfl

theorem idIssues_of_not_mem (ctx : Context) (index : Nat) (hid : referenceId? entry = some (part, id))
    (hseen : Text.foldCase id ∉ seen) : idIssues ctx seen index entry = [] := by
  unfold idIssues
  rw [hid]
  exact if_neg fun hmem => hseen (List.contains_iff_mem.mp hmem)

/-- What is reported of an id depends on whether it was seen before. -/
theorem mark_idIssues (ctx ctx' : Context) (index index' : Nat)
    (hseen : ∀ folded, HasId entry folded → (folded ∈ seen' ↔ folded ∈ seen)) :
    (idIssues ctx' seen' index' entry).map Issue.mark = (idIssues ctx seen index entry).map Issue.mark := by
  cases hid : referenceId? entry with
  | none => rw [mark_idIssues_missing ctx _ _ hid, mark_idIssues_missing ctx' _ _ hid]
  | some found =>
    obtain ⟨part, id⟩ := found
    have hiff := hseen _ ⟨part, id, hid, rfl⟩
    by_cases hmem : Text.foldCase id ∈ seen
    · rw [mark_idIssues_duplicate ctx _ hid hmem, mark_idIssues_duplicate ctx' _ hid (hiff.mpr hmem)]
    · rw [idIssues_of_not_mem ctx _ hid hmem, idIssues_of_not_mem ctx' _ hid (mt hiff.mp hmem)]

theorem checkFrom_append (ctx : Context) (seen : List String) (index : Nat) (before after : List Part) :
    checkFrom ctx seen index (before ++ after) =
      checkFrom ctx seen index before ++ checkFrom ctx (before.foldl see seen) (index + before.length) after := by
  induction before generalizing seen index with
  | nil => rfl
  | cons entry before ih =>
    rw [List.cons_append, checkFrom, checkFrom, ih, List.append_assoc _ _ (checkFrom ..), List.foldl_cons,
      List.length_cons, Nat.add_assoc, Nat.add_comm 1]

/-- What is reported of entries depends on which of their own ids were seen before. -/
theorem mark_checkFrom (ctx ctx' : Context) (index index' : Nat) (seen seen' : List String) (parts : List Part)
    (hseen : ∀ entry ∈ parts, ∀ folded, HasId entry folded → (folded ∈ seen' ↔ folded ∈ seen)) :
    (checkFrom ctx' seen' index' parts).map Issue.mark = (checkFrom ctx seen index parts).map Issue.mark := by
  induction parts generalizing seen seen' index index' with
  | nil => rfl
  | cons entry parts ih =>
    have hentry := mark_idIssues ctx ctx' index index' (hseen entry List.mem_cons_self)
    have hrest := ih (index + 1) (index' + 1) (see seen entry) (see seen' entry) fun other hother folded hhas => by
      rw [mem_see_iff, mem_see_iff, hseen other (List.mem_cons_of_mem _ hother) folded hhas]
    simp only [checkFrom, List.map_append, hentry, hrest, mark_nameIssues ctx ctx' index index' rfl rfl rfl]

/-- A finding about an id: there is none, or it was seen before. Either way nothing new is seen. -/
theorem of_mem_idIssues (h : issue ∈ idIssues ctx seen index entry) :
    see seen entry = seen ∧ (idIssues ctx seen index entry).map Issue.mark = [issue.mark] ∧
      ((referenceId? entry = none ∧ issue.code = Code.missingReferenceId ∧
          issue.path? = Path.ofJson? entry.path.toJson) ∨
        ∃ part id, referenceId? entry = some (part, id) ∧ issue.code = Code.duplicateReferenceId ∧
          issue.path? = Path.ofJson? part.path.toJson ∧ issue.text? "referenceId" = some id) := by
  unfold idIssues at h ⊢
  unfold see
  cases hid : referenceId? entry with
  | none =>
    rw [hid] at h
    obtain rfl := List.mem_singleton.mp h
    exact ⟨rfl, rfl, .inl ⟨rfl, rfl, Issue.path?_of_data rfl⟩⟩
  | some found =>
    obtain ⟨part, id⟩ := found
    rw [hid] at h
    dsimp only at h ⊢
    split at h
    · next hseen =>
      obtain rfl := List.mem_singleton.mp h
      rw [if_pos hseen, if_pos hseen]
      refine ⟨rfl, rfl, .inr ⟨part, id, rfl, rfl, Issue.path?_of_data rfl, ?_⟩⟩
      simp [Issue.text?, Context.issueAt, Rule.issue, Json.get?_ofMembers, Keyed.find?_cons, Json.string?]
    · cases h

theorem exists_of_mem_checkFrom (h : issue ∈ checkFrom ctx seen index parts) :
    ∃ before entry after, parts = before ++ entry :: after ∧
      (issue ∈ nameIssues ctx (index + before.length) entry ∨
        issue ∈ idIssues ctx (before.foldl see seen) (index + before.length) entry) := by
  induction parts generalizing seen index with
  | nil => cases h
  | cons entry parts ih =>
    rcases List.mem_append.mp h with hentry | hrest
    · exact ⟨[], entry, parts, rfl, List.mem_append.mp hentry⟩
    · obtain ⟨before, other, after, rfl, hfound⟩ := ih hrest
      rw [Nat.add_assoc, Nat.add_comm 1] at hfound
      exact ⟨entry :: before, other, after, rfl, hfound⟩

/-- Which entry a finding about an id is about. -/
theorem exists_of_mem_check (h : issue ∈ check ctx) (hcode : issue.code ≠ Code.invalidReference) :
    ∃ before entry after, entries ctx.value = before ++ entry :: after ∧
      issue ∈ idIssues ctx (before.foldl see []) before.length entry := by
  obtain ⟨before, entry, after, hsplit, hfound⟩ := exists_of_mem_checkFrom h
  rw [Nat.zero_add] at hfound
  exact ⟨before, entry, after, hsplit, hfound.resolve_left fun hname => hcode (mem_nameIssues hname).1⟩

theorem exists_id_of_mem_idIssues (h : issue ∈ idIssues ctx seen index entry)
    (hcode : issue.code = Code.duplicateReferenceId) :
    ∃ part id, referenceId? entry = some (part, id) ∧ issue.path? = Path.ofJson? part.path.toJson ∧
      issue.text? "referenceId" = some id := by
  rcases (of_mem_idIssues h).2.2 with ⟨-, hmissing, -⟩ | ⟨part, id, hid, -, hpath, hquoted⟩
  · exact absurd (hmissing.symm.trans hcode) (by decide)
  · exact ⟨part, id, hid, hpath, hquoted⟩

theorem no_id_of_mem_idIssues (h : issue ∈ idIssues ctx seen index entry)
    (hcode : issue.code = Code.missingReferenceId) :
    referenceId? entry = none ∧ issue.path? = Path.ofJson? entry.path.toJson := by
  rcases (of_mem_idIssues h).2.2 with ⟨hnone, -, hpath⟩ | ⟨part, id, -, hduplicate, -⟩
  · exact ⟨hnone, hpath⟩
  · exact absurd (hduplicate.symm.trans hcode) (by decide)

/-! ## Entries with another id -/

theorem map_mark_check (hentries : entries ctx.value = before ++ entry :: after) : (check ctx).map Issue.mark =
    (checkFrom ctx [] 0 before).map Issue.mark ++ ((nameIssues ctx before.length entry).map Issue.mark ++
      ((idIssues ctx (before.foldl see []) before.length entry).map Issue.mark ++
        (checkFrom ctx (see (before.foldl see []) entry) (before.length + 1) after).map Issue.mark)) := by
  rw [check, hentries, checkFrom_append, checkFrom, Nat.zero_add]
  simp only [List.map_append, List.append_assoc]

/-- Where one entry changes, and not what is seen of the ids of those after it, what is reported changes at most
about the id of that entry. -/
theorem map_mark_check_of_changed (hold : entries ctx.value = before ++ entry :: after)
    (hnew : entries ctx'.value = before ++ entry' :: after)
    (hnames : (nameIssues ctx' before.length entry').map Issue.mark =
      (nameIssues ctx before.length entry).map Issue.mark)
    (hseen : ∀ other ∈ after, ∀ folded, HasId other folded →
      (folded ∈ see (before.foldl see []) entry' ↔ folded ∈ see (before.foldl see []) entry)) :
    ∃ front back,
      (check ctx).map Issue.mark =
        front ++ ((idIssues ctx (before.foldl see []) before.length entry).map Issue.mark ++ back) ∧
      (check ctx').map Issue.mark =
        front ++ ((idIssues ctx' (before.foldl see []) before.length entry').map Issue.mark ++ back) := by
  have hbefore := mark_checkFrom ctx ctx' 0 0 [] [] before fun _ _ _ _ => Iff.rfl
  have hafter := mark_checkFrom ctx ctx' (before.length + 1) (before.length + 1) _ _ after hseen
  refine ⟨(checkFrom ctx [] 0 before).map Issue.mark ++ (nameIssues ctx before.length entry).map Issue.mark,
    (checkFrom ctx (see (before.foldl see []) entry) (before.length + 1) after).map Issue.mark, ?_, ?_⟩
  · rw [map_mark_check hold, List.append_assoc]
  · rw [map_mark_check hnew, hbefore, hnames, hafter, List.append_assoc]

/-- An entry with an id in the place of what it had for one. -/
structure Named (entry entry' : Part) (id : String) : Prop where
  path : entry'.path = entry.path
  field? : ∃ part, entry'.field? .referenceId = some part ∧ part.value = .string id
  others : ∀ field, .referenceId ≠ field → entry'.value.field? field = entry.value.field? field

namespace Named

theorem of_replaced {key : String} {old inner : Json} (hold : entry.value.spelling? .referenceId = some (key, old))
    (hputs : Json.Puts (.string id) [.name key] entry.value inner) : Named entry ⟨entry.path, inner⟩ id := by
  obtain ⟨found, hnew, hput, halike⟩ := hputs.exists_of_spelling? hold
  cases hput with
  | here =>
    refine ⟨rfl, ⟨⟨entry.path ++ [.name key], .string id⟩, ?_, rfl⟩, fun field hne => ?_⟩
    · rw [Part.field?, hnew, Option.map_some]
    · exact halike.field?_eq_of_ne (Json.mem_spellings_of_spelling? hold) hne

theorem of_added {inner : Json} (hold : entry.field? .referenceId = none)
    (halike : Json.AlikeBut referenceIdName entry.value inner)
    (hnew : inner.get? referenceIdName = some (.string id)) : Named entry ⟨entry.path, inner⟩ id := by
  have hkey : referenceIdName ∈ Field.referenceId.spellings := by decide
  have hspelling := halike.spelling?_of_added (Part.field?_value_eq_none hold) hkey hnew
  refine ⟨rfl, ⟨⟨entry.path ++ [.name referenceIdName], .string id⟩, ?_, rfl⟩, fun field hne => ?_⟩
  · rw [Part.field?, hspelling, Option.map_some]
  · exact halike.field?_eq_of_ne hkey hne

theorem mark_nameIssues (h : Named entry entry' id) (ctx ctx' : Context) (index : Nat) :
    (nameIssues ctx' index entry').map Issue.mark = (nameIssues ctx index entry).map Issue.mark :=
  Reference.mark_nameIssues ctx ctx' index index h.path (h.others .definitionId (by decide))
    (h.others .definitionName (by decide))

theorem exists_referenceId? (h : Named entry entry' id) (hfilled : Text.blank id = false) :
    ∃ part, referenceId? entry' = some (part, id) := by
  obtain ⟨part, hfield, hpart⟩ := h.field?
  refine ⟨part, ?_⟩
  rw [referenceId?_of_field? hfield (by rw [hpart]; rfl), hfilled, if_neg Bool.false_ne_true]

theorem referenceId?_eq_none (h : Named entry entry' id) (hblank : Text.blank id = true) :
    referenceId? entry' = none := by
  obtain ⟨part, hfield, hpart⟩ := h.field?
  rw [referenceId?_of_field? hfield (by rw [hpart]; rfl), if_pos hblank]

/-- An entry that gets an id which no other has takes the finding about its id away. -/
theorem loses (h : Named entry entry' id) (hfilled : Text.blank id = false)
    (hold : entries ctx.value = before ++ entry :: after) (hnew : entries ctx'.value = before ++ entry' :: after)
    (hissue : issue ∈ idIssues ctx (before.foldl see []) before.length entry)
    (hfree : ∀ other ∈ before ++ after, ¬ HasId other (Text.foldCase id)) :
    Loses issue.mark ((check ctx).map Issue.mark) ((check ctx').map Issue.mark) := by
  obtain ⟨part, hid⟩ := h.exists_referenceId? hfilled
  obtain ⟨hsee, hmark, -⟩ := of_mem_idIssues hissue
  have hunseen : Text.foldCase id ∉ before.foldl see [] := by
    rw [mem_foldl_see_iff]
    rintro (hnil | ⟨other, hother, hhas⟩)
    · cases hnil
    · exact hfree other (List.mem_append_left _ hother) hhas
  obtain ⟨front, back, hfront, hback⟩ :=
    map_mark_check_of_changed hold hnew (h.mark_nameIssues ctx ctx' _) fun other hother folded hhas => by
      rw [hsee, mem_see_iff, or_iff_left]
      rintro ⟨_, _, hid', rfl⟩
      obtain ⟨rfl, rfl⟩ := Prod.mk.inj (Option.some.inj (hid.symm.trans hid'))
      exact hfree other (List.mem_append_right _ hother) hhas
  rw [hmark] at hfront
  rw [idIssues_of_not_mem ctx' _ hid hunseen] at hback
  exact ⟨front, back, hfront, hback⟩

/-- An entry that gets blanks for an id is reported on as before. -/
theorem map_mark_check_eq (h : Named entry entry' id) (hblank : Text.blank id = true)
    (hold : entries ctx.value = before ++ entry :: after) (hnew : entries ctx'.value = before ++ entry' :: after)
    (hnone : referenceId? entry = none) : (check ctx').map Issue.mark = (check ctx).map Issue.mark := by
  have hnone' := h.referenceId?_eq_none hblank
  obtain ⟨front, back, hfront, hback⟩ :=
    map_mark_check_of_changed hold hnew (h.mark_nameIssues ctx ctx' _) fun other _ folded _ => by
      rw [see, see, hnone, hnone']
  rw [hfront, hback, mark_idIssues_missing ctx _ _ hnone, mark_idIssues_missing ctx' _ _ hnone', h.path]

end Named

end Reference

end PolicyAudit
