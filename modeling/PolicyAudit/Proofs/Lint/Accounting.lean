-- SUMMARY: What the rule for references reports adds up: entries without an id, ids used before, and the rest.
import Mathlib.Data.List.Dedup
import PolicyAudit.Lint.Check
import PolicyAudit.Proofs.Lint.Changing
import PolicyAudit.Proofs.Lint.Entries
import PolicyAudit.Proofs.Lint.Tally

/-! ## Lists of entries -/

namespace PolicyAudit.Reference

variable {value : Json} {ctx : Context} {seen : List String} {index : Nat} {entry part : Part} {path : Path}
variable {parts before after : List Part} {code folded id : String} {issues : List Issue} {issue : Issue}

/-- A document has a list of entries: in its properties, or in the document itself where there is no object with
properties. -/
inductive Lists (value : Json) : List Part → Prop
  | wrapped {properties list : Part} {entries : List Part}
    (hproperties : (Part.root value).field? .properties = some properties)
    (hobject : properties.value.isObject = true) (hlist : properties.field? .definitions = some list)
    (hitems : list.items? = some entries) : Lists value entries
  | bare {list : Part} {entries : List Part}
    (hnone : ∀ properties, (Part.root value).field? .properties = some properties →
      properties.value.isObject = false)
    (hlist : (Part.root value).field? .definitions = some list) (hitems : list.items? = some entries) :
    Lists value entries

theorem lists_iff : Lists value parts ↔ (list? value).bind Part.items? = some parts := by
  constructor
  · intro h
    cases h with
    | wrapped hproperties hobject hlist hitems =>
      simp only [list?, Part.properties, hproperties, if_pos hobject, hlist, Option.bind_some, hitems]
    | bare hnone hlist hitems =>
      have hroot : Part.properties value = Part.root value :=
        Part.properties_of_no_object fun name found hspelling => hnone ⟨[.name name], found⟩ (by
          rw [Part.field?, Part.root, hspelling]
          rfl)
      simp only [list?, hroot, hlist, Option.bind_some, hitems]
  · intro h
    obtain ⟨list, hlist, hitems⟩ := Option.bind_eq_some_iff.mp h
    unfold list? Part.properties at hlist
    split at hlist
    · next properties hproperties =>
      split at hlist
      · next hobject => exact .wrapped hproperties hobject hlist hitems
      · next hobject =>
        refine .bare (fun other hother => ?_) hlist hitems
        obtain rfl := Option.some.inj (hproperties.symm.trans hother)
        exact Bool.eq_false_iff.mpr hobject
    · next hnone =>
      refine .bare (fun properties hproperties => ?_) hlist hitems
      rw [hnone] at hproperties
      cases hproperties

theorem Lists.entries_eq (h : Lists value parts) : entries value = parts := by
  rw [entries, lists_iff.mp h, Option.getD_some]

/-! ## Ids -/

/-- The reference id of an entry without its letter case, where it is a text with more than blanks. -/
def foldedId? (entry : Part) : Option String := (entry.value.filledText? .referenceId).map Text.foldCase

theorem foldedId?_eq (entry : Part) :
    foldedId? entry = (referenceId? entry).map fun (_, id) => Text.foldCase id := by
  unfold foldedId? Json.filledText? Json.text?
  cases hfield : entry.field? .referenceId with
  | none => simp [referenceId?, hfield, Part.field?_value_eq_none hfield]
  | some part =>
    rw [Part.field?_value hfield, Option.bind_some]
    cases htext : part.value.string? with
    | none => simp [referenceId?, hfield, htext]
    | some text =>
      rw [referenceId?_of_field? hfield htext]
      cases hblank : Text.blank text <;> simp [hblank]

theorem hasId_iff : HasId entry folded ↔ foldedId? entry = some folded := by
  simp [HasId, foldedId?_eq]

theorem mem_foldl_see_nil_iff :
    folded ∈ before.foldl see [] ↔ ∃ earlier ∈ before, foldedId? earlier = some folded := by
  simp only [mem_foldl_see_iff, List.not_mem_nil, false_or, hasId_iff]

/-! ## Findings of one entry -/

open Issue

/-- An entry names its definition in both ways or in none. -/
def NamesBadly (entry : Part) : Prop :=
  (∃ id name, entry.value.filledText? .definitionId = some id ∧ entry.value.filledText? .definitionName = some name) ∨
    (entry.value.filledText? .definitionId = none ∧ entry.value.filledText? .definitionName = none)

theorem namesBadly_iff : NamesBadly entry ↔
    (entry.value.filledText? .definitionId).isSome = (entry.value.filledText? .definitionName).isSome := by
  unfold NamesBadly
  cases entry.value.filledText? .definitionId <;> cases entry.value.filledText? .definitionName <;> simp

/-- The id of an entry is that of an earlier one, letter case aside. -/
def Repeats (before : List Part) (entry : Part) : Prop :=
  ∃ folded, foldedId? entry = some folded ∧ ∃ earlier ∈ before, foldedId? earlier = some folded

theorem onceAt_nameIssues (ctx : Context) (index : Nat) (entry : Part) :
    OnceAt Code.invalidReference (fun path => NamesBadly entry ∧ path = entry.path)
      (nameIssues ctx index entry) := by
  unfold nameIssues
  dsimp only
  split
  · next hbad => exact onceAt_singleton rfl (.of_data rfl) fun path => and_iff_right (namesBadly_iff.mpr hbad)
  · next hgood => exact onceAt_nil fun path h => hgood (namesBadly_iff.mp h.1)

theorem onceAt_idIssues_missing (ctx : Context) (seen : List String) (index : Nat) (entry : Part) :
    OnceAt Code.missingReferenceId (fun path => foldedId? entry = none ∧ path = entry.path)
      (idIssues ctx seen index entry) := by
  rw [foldedId?_eq]
  unfold idIssues
  cases hid : referenceId? entry with
  | none => exact onceAt_singleton rfl (.of_data rfl) fun path => and_iff_right rfl
  | some found =>
    obtain ⟨part, id⟩ := found
    refine onceAt_of_code_ne (fun issue hissue => ?_) fun path => nofun
    dsimp only at hissue
    split at hissue
    · rw [List.mem_singleton.mp hissue]
      exact (by decide : Code.duplicateReferenceId ≠ Code.missingReferenceId)
    · cases hissue

theorem onceAt_idIssues_duplicate (ctx : Context) (before : List Part) (index : Nat) (entry : Part) :
    OnceAt Code.duplicateReferenceId
      (fun path => Repeats before entry ∧ ∃ part, entry.field? .referenceId = some part ∧ path = part.path)
      (idIssues ctx (before.foldl see []) index entry) := by
  unfold Repeats
  simp only [← mem_foldl_see_nil_iff]
  rw [foldedId?_eq]
  unfold idIssues
  cases hid : referenceId? entry with
  | none =>
    refine onceAt_of_code_ne (fun issue hissue => ?_) fun path => ?_
    · rw [List.mem_singleton.mp hissue]
      exact (by decide : Code.missingReferenceId ≠ Code.duplicateReferenceId)
    · rintro ⟨⟨folded, hfolded, -⟩, -⟩
      cases hfolded
  | some found =>
    obtain ⟨part, id⟩ := found
    obtain ⟨hfield, -, -⟩ := of_referenceId? hid
    dsimp only
    split
    · next hseen =>
      refine onceAt_singleton rfl (.of_data rfl) fun path => ⟨?_, ?_⟩
      · rintro ⟨-, found, hfound, rfl⟩
        rw [Option.some.inj (hfound.symm.trans hfield)]
      · rintro rfl
        exact ⟨⟨_, rfl, List.contains_iff_mem.mp hseen⟩, part, hfield, rfl⟩
    · next hnew =>
      refine onceAt_nil fun path => ?_
      rintro ⟨⟨folded, hfolded, hseen⟩, -⟩
      obtain rfl := Option.some.inj hfolded
      exact hnew (List.contains_iff_mem.mpr hseen)

theorem code_of_mem_idIssues (h : issue ∈ idIssues ctx seen index entry) : issue.code ≠ Code.invalidReference := by
  rcases (of_mem_idIssues h).2.2 with ⟨-, hcode, -⟩ | ⟨-, -, -, hcode, -⟩ <;> rw [hcode] <;> decide

/-! ## Findings of a list -/

/-- What is reported once for each entry, as it depends on the entries before it, is so for the whole list. -/
theorem onceAt_checkFrom {P : List Part → Part → Path → Prop}
    (hdiverge : parts.Pairwise fun a b => Path.Diverge a.path b.path)
    (hbelow : ∀ before entry path, P before entry path → ∃ rest, path = entry.path ++ rest)
    (h : ∀ before index entry, OnceAt code (P before entry)
      (nameIssues ctx index entry ++ idIssues ctx (before.foldl see seen) index entry)) :
    OnceAt code (fun path => ∃ before entry after, parts = before ++ entry :: after ∧ P before entry path)
      (checkFrom ctx seen index parts) := by
  induction parts generalizing seen index P with
  | nil =>
    refine onceAt_nil ?_
    rintro path ⟨before, entry, after, hsplit, -⟩
    exact List.append_ne_nil_of_right_ne_nil before (List.cons_ne_nil entry after) hsplit.symm
  | cons entry parts ih =>
    obtain ⟨hentry, hparts⟩ := List.pairwise_cons.mp hdiverge
    have hrest : OnceAt code
        (fun path => ∃ before other after, parts = before ++ other :: after ∧ P (entry :: before) other path)
        (checkFrom ctx (see seen entry) (index + 1) parts) :=
      ih hparts (fun before => hbelow (entry :: before)) fun before => h (entry :: before)
    refine ((h [] index entry).append hrest ?_).congr fun path => ?_
    · rintro path hpath ⟨before, other, after, rfl, hother⟩
      obtain ⟨s, rfl⟩ := hbelow _ _ _ hpath
      obtain ⟨t, hpath⟩ := hbelow _ _ _ hother
      exact hentry other (List.mem_append_right before List.mem_cons_self) s t hpath
    · simp only [List.cons_eq_append_iff]
      constructor
      · rintro (hpath | ⟨before, other, after, rfl, hpath⟩)
        · exact ⟨[], entry, parts, .inl ⟨rfl, rfl⟩, hpath⟩
        · exact ⟨entry :: before, other, after, .inr ⟨before, rfl, rfl⟩, hpath⟩
      · rintro ⟨_, other, after, ⟨rfl, hsplit⟩ | ⟨before, rfl, rfl⟩, hpath⟩
        · obtain ⟨rfl, rfl⟩ := List.cons_eq_cons.mp hsplit
          exact .inl hpath
        · exact .inr ⟨before, other, after, rfl, hpath⟩

theorem exists_split_iff {P : Part → Prop} :
    (∃ before entry after, parts = before ++ entry :: after ∧ P entry) ↔ ∃ entry ∈ parts, P entry := by
  simp only [List.mem_iff_append]
  exact ⟨fun ⟨before, entry, after, hsplit, h⟩ => ⟨entry, ⟨before, after, hsplit⟩, h⟩,
    fun ⟨entry, ⟨before, after, hsplit⟩, h⟩ => ⟨before, entry, after, hsplit, h⟩⟩

theorem onceAt_missing (ctx : Context) :
    OnceAt Code.missingReferenceId
      (fun path => ∃ entry ∈ entries ctx.value, foldedId? entry = none ∧ path = entry.path) (check ctx) := by
  refine (onceAt_checkFrom (P := fun _ entry path => foldedId? entry = none ∧ path = entry.path)
    (entries_diverge _) ?_ fun before index entry => ?_).congr fun path => exists_split_iff
  · rintro - entry path ⟨-, rfl⟩
    exact ⟨[], (List.append_nil _).symm⟩
  · refine (onceAt_append_iff_right fun issue hissue => ?_).mpr (onceAt_idIssues_missing ..)
    rw [(mem_nameIssues hissue).1]
    decide

theorem onceAt_duplicate (ctx : Context) :
    OnceAt Code.duplicateReferenceId
      (fun path => ∃ before entry after, entries ctx.value = before ++ entry :: after ∧ Repeats before entry ∧
        ∃ part, entry.field? .referenceId = some part ∧ path = part.path) (check ctx) := by
  refine onceAt_checkFrom (entries_diverge _) ?_ fun before index entry => ?_
  · rintro - entry path ⟨-, part, hpart, rfl⟩
    obtain ⟨name, -, hpath⟩ := Part.path_of_field? hpart
    exact ⟨_, hpath⟩
  · refine (onceAt_append_iff_right fun issue hissue => ?_).mpr (onceAt_idIssues_duplicate ..)
    rw [(mem_nameIssues hissue).1]
    decide

theorem onceAt_invalidReference (ctx : Context) :
    OnceAt Code.invalidReference
      (fun path => ∃ entry ∈ entries ctx.value, NamesBadly entry ∧ path = entry.path) (check ctx) := by
  refine (onceAt_checkFrom (P := fun _ entry path => NamesBadly entry ∧ path = entry.path)
    (entries_diverge _) ?_ fun before index entry => ?_).congr fun path => exists_split_iff
  · rintro - entry path ⟨-, rfl⟩
    exact ⟨[], (List.append_nil _).symm⟩
  · exact (onceAt_append_iff_left fun issue => code_of_mem_idIssues).mpr (onceAt_nameIssues ..)

/-! ## Counting

Each entry with an id is either seen for the first time, and then the ids seen are one more, or it is reported. -/

theorem nodup_see (h : seen.Nodup) : (see seen entry).Nodup := by
  unfold see
  split
  · split
    · exact h
    · next hnew => exact List.nodup_cons.mpr ⟨fun hmem => hnew (List.contains_iff_mem.mpr hmem), h⟩
  · exact h

theorem nodup_foldl_see (h : seen.Nodup) : (parts.foldl see seen).Nodup := by
  induction parts generalizing seen with
  | nil => exact h
  | cons entry parts ih => exact ih (nodup_see h)

/-- What is seen in the end are the ids of the entries, each once. -/
theorem length_foldl_see_nil (parts : List Part) :
    (parts.foldl see []).length = (parts.filterMap foldedId?).dedup.length := by
  refine ((List.perm_ext_iff_of_nodup (nodup_foldl_see List.nodup_nil) (List.nodup_dedup _)).mpr
    fun folded => ?_).length_eq
  rw [mem_foldl_see_nil_iff, List.mem_dedup, List.mem_filterMap]

theorem countP_entry (ctx : Context) (seen : List String) (index : Nat) (entry : Part) :
    (nameIssues ctx index entry ++ idIssues ctx seen index entry).countP (·.code = Code.duplicateReferenceId) +
      (see seen entry).length = (foldedId? entry).toList.length + seen.length := by
  have hnames : (nameIssues ctx index entry).countP (·.code = Code.duplicateReferenceId) = 0 := by
    refine List.countP_eq_zero.mpr fun issue hissue => ?_
    rw [(mem_nameIssues hissue).1]
    decide
  rw [List.countP_append, hnames, Nat.zero_add, foldedId?_eq]
  unfold idIssues see
  cases referenceId? entry with
  | none => rfl
  | some found =>
    obtain ⟨part, id⟩ := found
    dsimp only
    split
    · rfl
    · exact Nat.zero_add _ |>.trans (Nat.add_comm _ _)

theorem countP_checkFrom (ctx : Context) (seen : List String) (index : Nat) (parts : List Part) :
    (checkFrom ctx seen index parts).countP (·.code = Code.duplicateReferenceId) + (parts.foldl see seen).length =
      (parts.filterMap foldedId?).length + seen.length := by
  induction parts generalizing seen index with
  | nil => rfl
  | cons entry parts ih =>
    have hentry := countP_entry ctx seen index entry
    have hrest := ih (see seen entry) (index + 1)
    have hlength : ((entry :: parts).filterMap foldedId?).length =
        (foldedId? entry).toList.length + (parts.filterMap foldedId?).length := by
      cases hid : foldedId? entry <;> simp [hid]; omega
    rw [checkFrom, List.countP_append, List.foldl_cons, hlength]
    omega

/-! ## Classes of entries

An entry is reported to have no id, reported to have the id of another, or neither. -/

/-- An entry is reported to have no id. -/
def Missing (issues : List Issue) (entry : Part) : Prop :=
  ∃ issue ∈ issues, issue.code = Code.missingReferenceId ∧ issue.IsAt entry.path

/-- The id of an entry is reported to be in use already. -/
def Duplicate (issues : List Issue) (entry : Part) : Prop :=
  ∃ part, entry.field? .referenceId = some part ∧
    ∃ issue ∈ issues, issue.code = Code.duplicateReferenceId ∧ issue.IsAt part.path

/-- Nothing is reported about the id of an entry. -/
def Unreported (issues : List Issue) (entry : Part) : Prop := ¬Missing issues entry ∧ ¬Duplicate issues entry

/-- An entry is the first of a list with its id, letter case aside. -/
def IsFirst (parts : List Part) (entry : Part) : Prop :=
  ∃ folded, parts.find? (fun other => foldedId? other = some folded) = some entry

theorem isFirst_iff : IsFirst parts entry ↔ ∃ before after folded, parts = before ++ entry :: after ∧
    foldedId? entry = some folded ∧ ∀ earlier ∈ before, foldedId? earlier ≠ some folded := by
  unfold IsFirst
  simp only [List.find?_eq_some_iff_append, decide_eq_true_eq, Bool.not_eq_true', decide_eq_false_iff_not]
  constructor
  · rintro ⟨folded, hfolded, before, after, hsplit, hnone⟩
    exact ⟨before, after, folded, hsplit, hfolded, hnone⟩
  · rintro ⟨before, after, folded, hsplit, hfolded, hnone⟩
    exact ⟨folded, hfolded, before, after, hsplit, hnone⟩

/-- Entries of a collection that have a place in common are one. -/
theorem eq_of_path_append {other : Part} {s t : Path} (hentry : entry ∈ entries value)
    (hother : other ∈ entries value) (heq : entry.path ++ s = other.path ++ t) : entry = other :=
  eq_of_pairwise (entries_diverge value) hentry hother (fun h => h s t heq) fun h => h t s heq.symm

theorem missing_iff (hentry : entry ∈ entries ctx.value) : Missing (check ctx) entry ↔ foldedId? entry = none := by
  rw [Missing, (onceAt_missing ctx).exists_iff]
  constructor
  · rintro ⟨other, hother, hnone, hpath⟩
    obtain rfl := eq_of_path_append (s := []) (t := []) hentry hother (by rw [hpath])
    exact hnone
  · exact fun hnone => ⟨entry, hentry, hnone, rfl⟩

theorem duplicate_iff (hsplit : entries ctx.value = before ++ entry :: after) :
    Duplicate (check ctx) entry ↔ Repeats before entry := by
  have hentry : entry ∈ entries ctx.value := hsplit ▸ List.mem_append_right _ List.mem_cons_self
  simp only [Duplicate, (onceAt_duplicate ctx).exists_iff]
  constructor
  · rintro ⟨part, hpart, before', other, after', hsplit', hrepeats, found, hfound, heq⟩
    have hother : other ∈ entries ctx.value := hsplit' ▸ List.mem_append_right _ List.mem_cons_self
    obtain ⟨_, -, hpath⟩ := Part.path_of_field? hpart
    obtain ⟨_, -, hpath'⟩ := Part.path_of_field? hfound
    obtain rfl := eq_of_path_append hentry hother (hpath.symm.trans (heq.trans hpath'))
    have hnodup := nodup_entries ctx.value
    rw [hsplit, List.nodup_middle, List.nodup_cons, List.mem_append, not_or] at hnodup
    obtain ⟨rfl, -, -⟩ := (List.append_cons_inj_of_notMem hnodup.1.1 hnodup.1.2).mp (hsplit.symm.trans hsplit')
    exact hrepeats
  · rintro ⟨folded, hfolded, hearlier⟩
    obtain ⟨⟨part, id⟩, hid, -⟩ := Option.map_eq_some_iff.mp ((foldedId?_eq entry).symm.trans hfolded)
    obtain ⟨hpart, -, -⟩ := of_referenceId? hid
    exact ⟨part, hpart, before, entry, after, hsplit, ⟨folded, hfolded, hearlier⟩, part, hpart, rfl⟩

theorem not_missing_and_duplicate (hentry : entry ∈ entries ctx.value) :
    ¬(Missing (check ctx) entry ∧ Duplicate (check ctx) entry) := by
  rintro ⟨hmissing, hduplicate⟩
  obtain ⟨before, after, hsplit⟩ := List.append_of_mem hentry
  obtain ⟨folded, hfolded, -⟩ := (duplicate_iff hsplit).mp hduplicate
  rw [(missing_iff hentry).mp hmissing] at hfolded
  cases hfolded

theorem unreported_iff (hentry : entry ∈ entries ctx.value) :
    Unreported (check ctx) entry ↔ IsFirst (entries ctx.value) entry := by
  rw [Unreported, missing_iff hentry, isFirst_iff]
  constructor
  · rintro ⟨hid, hnew⟩
    obtain ⟨folded, hfolded⟩ := Option.ne_none_iff_exists'.mp hid
    obtain ⟨before, after, hsplit⟩ := List.append_of_mem hentry
    rw [duplicate_iff hsplit] at hnew
    exact ⟨before, after, folded, hsplit, hfolded, fun earlier hearlier hsame =>
      hnew ⟨folded, hfolded, earlier, hearlier, hsame⟩⟩
  · rintro ⟨before, after, folded, hsplit, hfolded, hnone⟩
    rw [duplicate_iff hsplit, hfolded]
    refine ⟨Option.some_ne_none folded, ?_⟩
    rintro ⟨_, hsame, earlier, hearlier, hfound⟩
    obtain rfl := Option.some.inj (hfolded.symm.trans hsame)
    exact hnone earlier hearlier hfound

theorem foldedId?_of_find? (h : parts.find? (fun other => foldedId? other = some folded) = some entry) :
    foldedId? entry = some folded := by
  have hfound := List.find?_some h
  exact of_decide_eq_true hfound

theorem IsFirst.eq {other : Part} (h : IsFirst parts entry) (hother : IsFirst parts other)
    (hsame : foldedId? entry = foldedId? other) : entry = other := by
  obtain ⟨folded, hfound⟩ := h
  obtain ⟨folded', hfound'⟩ := hother
  rw [foldedId?_of_find? hfound, foldedId?_of_find? hfound', Option.some.injEq] at hsame
  rw [hsame, hfound', Option.some.injEq] at hfound
  exact hfound.symm

theorem exists_isFirst (hfolded : folded ∈ parts.filterMap foldedId?) :
    ∃ entry ∈ parts, IsFirst parts entry ∧ foldedId? entry = some folded := by
  obtain ⟨entry, hentry, hid⟩ := List.mem_filterMap.mp hfolded
  have hsome : (parts.find? fun other => foldedId? other = some folded).isSome = true :=
    List.find?_isSome.mpr ⟨entry, hentry, decide_eq_true hid⟩
  obtain ⟨first, hfirst⟩ := Option.isSome_iff_exists.mp hsome
  exact ⟨first, List.mem_of_find?_eq_some hfirst, ⟨folded, hfirst⟩, foldedId?_of_find? hfirst⟩

/-! ## Findings of the rule -/

/-- The findings of a list of entries account for each of them. -/
structure Accounts (parts : List Part) (issues : List Issue) : Prop where
  /-- Each entry without an id is reported once. -/
  missing : OnceAt Code.missingReferenceId
    (fun path => ∃ entry ∈ parts, foldedId? entry = none ∧ path = entry.path) issues
  /-- Each id that is that of an earlier entry is reported once. -/
  duplicate : OnceAt Code.duplicateReferenceId
    (fun path => ∃ before entry after, parts = before ++ entry :: after ∧ Repeats before entry ∧
      ∃ part, entry.field? .referenceId = some part ∧ path = part.path) issues
  /-- Each entry that does not name its definition in one way is reported once, whatever its id. -/
  invalid : OnceAt Code.invalidReference
    (fun path => ∃ entry ∈ parts, NamesBadly entry ∧ path = entry.path) issues
  /-- No entry is in two classes. -/
  exclusive : ∀ entry ∈ parts, ¬(Missing issues entry ∧ Duplicate issues entry)
  /-- The unreported entries are the first ones with their ids. -/
  first : ∀ entry ∈ parts, Unreported issues entry ↔ IsFirst parts entry
  /-- The unreported entries have different ids. -/
  distinct : ∀ entry ∈ parts, ∀ other ∈ parts, Unreported issues entry → Unreported issues other →
    foldedId? entry = foldedId? other → entry = other
  /-- Each id is that of an unreported entry. -/
  covered : ∀ folded ∈ parts.filterMap foldedId?, ∃ entry ∈ parts,
    Unreported issues entry ∧ foldedId? entry = some folded
  /-- With one reported id for each that is not new, as many are left as there are different ones. -/
  count : issues.countP (·.code = Code.duplicateReferenceId) + (parts.filterMap foldedId?).dedup.length =
    (parts.filterMap foldedId?).length

theorem accounts_check (ctx : Context) : Accounts (entries ctx.value) (check ctx) where
  missing := onceAt_missing ctx
  duplicate := onceAt_duplicate ctx
  invalid := onceAt_invalidReference ctx
  exclusive _ hentry := not_missing_and_duplicate hentry
  first _ hentry := unreported_iff hentry
  distinct _ hentry _ hother hunreported hunreported' :=
    ((unreported_iff hentry).mp hunreported).eq ((unreported_iff hother).mp hunreported')
  covered _ hfolded := by
    obtain ⟨entry, hentry, hfirst, hid⟩ := exists_isFirst hfolded
    exact ⟨entry, hentry, (unreported_iff hentry).mpr hfirst, hid⟩
  count := by
    rw [← length_foldl_see_nil]
    exact countP_checkFrom ctx [] 0 (entries ctx.value)

/-- **Accounting for ids.** In a clean document with a list of definitions each entry is reported to have no id,
reported to have the id of another, or unreported, and never two of these. The unreported entries are the first ones
with their ids, so these are different, letter case aside, and all ids that are in use. So there are as many findings
of the second kind as entries with an id, less the different ids. Independently of this, each entry that names its
definition by id and name or by neither is reported once. No other rule makes findings of these kinds. -/
theorem check_of_isClean {text : String} (hclean : (Document.ofText text).isClean = true) (registry : Registry) :
    ∃ ctx issues,
      Context.ofDocument? (.ofText text) = some ctx ∧
      (Rule.referenceIntegrity.check ctx registry).1 = .ok issues ∧
      (∀ parts, Lists ctx.value parts → Accounts parts issues) ∧
      ∀ (rule : Rule) (others : List Issue), rule ≠ .referenceIntegrity →
        (rule.check ctx registry).1 = .ok others →
        ∀ issue ∈ others, issue.code ∉ Rule.referenceIntegrity.codes := by
  obtain ⟨value, htext⟩ := Renders.exists_of_isClean hclean
  refine ⟨_, _, htext.context_eq, rfl, fun parts hparts => ?_, ?_⟩
  · rw [← hparts.entries_eq]
    exact accounts_check ⟨.ofText text, value⟩
  · intro rule others hrule hothers issue hissue hcode
    exact hrule (Rule.eq_of_mem_codes (Rule.ownsAll_check hothers issue hissue).code hcode)

/-- The second of the entries here has the id of the first, and the last one has only a blank for an id. -/
theorem check_of_isClean_of_repeated :
    let text := "\x7b\"properties\":\x7b\"policyDefinitions\":[" ++
      "\x7b\"policyDefinitionReferenceId\":\"a\",\"policyDefinitionName\":\"d\"\x7d," ++
      "\x7b\"PolicyDefinitionReferenceId\":\"A\",\"policyDefinitionName\":\"d\"\x7d," ++
      "\x7b\"policyDefinitionReferenceId\":\" \"\x7d]\x7d\x7d"
    (Document.ofText text).isClean = true ∧ ∃ ctx invalid missing duplicate first second last,
      Context.ofDocument? (.ofText text) = some ctx ∧
      (Rule.referenceIntegrity.check ctx (.new none)).1 = .ok [duplicate, invalid, missing] ∧
      Lists ctx.value [first, second, last] ∧
      Accounts [first, second, last] [duplicate, invalid, missing] ∧
      foldedId? first = some "a" ∧ foldedId? second = some "a" ∧ foldedId? last = none := by
  intro text
  have hread : (Document.ofText text).isClean = true ∧
      (Context.ofDocument? (.ofText text)).bind (fun ctx => ((list? ctx.value).bind Part.items?).map fun parts =>
        (parts.map foldedId?, (check ctx).map (·.code))) =
        some ([some "a", some "a", none],
          [Code.duplicateReferenceId, Code.invalidReference, Code.missingReferenceId]) := by decide +kernel
  obtain ⟨hclean, hread⟩ := hread
  obtain ⟨ctx, issues, hctx, hcheck, haccounts, -⟩ := check_of_isClean hclean (.new none)
  obtain rfl : check ctx = issues := Except.ok.inj hcheck
  rw [hctx, Option.bind_some] at hread
  obtain ⟨parts, hparts, hread⟩ := Option.map_eq_some_iff.mp hread
  obtain ⟨hids, hcodes⟩ := Prod.mk.inj hread
  obtain ⟨first, _, rfl, hfirst, hids⟩ := List.map_eq_cons_iff.mp hids
  obtain ⟨second, _, rfl, hsecond, hids⟩ := List.map_eq_cons_iff.mp hids
  obtain ⟨last, rfl, hlast⟩ := List.map_eq_singleton_iff.mp hids
  obtain ⟨duplicate, _, hissues, -, hcodes⟩ := List.map_eq_cons_iff.mp hcodes
  obtain ⟨invalid, _, rfl, -, hcodes⟩ := List.map_eq_cons_iff.mp hcodes
  obtain ⟨missing, rfl, -⟩ := List.map_eq_singleton_iff.mp hcodes
  have hlists := lists_iff.mpr hparts
  rw [hissues] at hcheck haccounts
  exact ⟨hclean, ctx, invalid, missing, duplicate, first, second, last, hctx, hcheck, hlists,
    haccounts _ hlists, hfirst, hsecond, hlast⟩

end PolicyAudit.Reference
