-- SUMMARY: A table whose names ascend is known by what its names lead to.
import PolicyAudit.Keyed

/-! ## Members -/

namespace PolicyAudit

namespace Keyed

variable {α : Type} {name : String} {value : α} {entries others : Keyed α} {entry : String × α}

theorem mem_insert (h : entry ∈ insert name value entries) : entry = (name, value) ∨ entry ∈ entries := by
  induction entries with
  | nil => exact .inl (List.mem_singleton.mp h)
  | cons first rest ih =>
    obtain ⟨k, v⟩ := first
    unfold insert at h
    split at h
    · exact List.mem_cons.mp h
    · split at h
      · rcases List.mem_cons.mp h with hnew | hrest
        · exact .inl hnew
        · exact .inr (List.mem_cons_of_mem _ hrest)
      · rcases List.mem_cons.mp h with rfl | hrest
        · exact .inr List.mem_cons_self
        · exact (ih hrest).imp_right (List.mem_cons_of_mem _)

theorem mem_of_mem_foldl_insertNew {more : Keyed α}
    (h : entry ∈ more.foldl (fun acc (k, v) => insertNew k v acc) entries) : entry ∈ entries ∨ entry ∈ more := by
  induction more generalizing entries with
  | nil => exact .inl h
  | cons first rest ih =>
    rcases ih h with hentries | hrest
    · obtain ⟨k, v⟩ := first
      dsimp only [insertNew] at hentries
      split at hentries
      · exact .inl hentries
      · rcases mem_insert hentries with heq | hmem
        · exact .inr (heq ▸ List.mem_cons_self)
        · exact .inl hmem
    · exact .inr (List.mem_cons_of_mem _ hrest)

theorem mem_of_find? (h : find? name entries = some value) : (name, value) ∈ entries := by
  induction entries with
  | nil => cases h
  | cons first rest ih =>
    obtain ⟨k, v⟩ := first
    rw [find?_cons] at h
    split at h
    · next hname =>
      obtain rfl := Option.some.inj h
      exact hname ▸ List.mem_cons_self
    · exact List.mem_cons_of_mem _ (ih h)

/-! ## Ascending tables

Insertion keeps the names of a table in ascending order, so two tables built from the same bindings are the
same list, whatever the order in which the bindings came. -/

/-- The names of a table ascend. -/
def Ascending (entries : Keyed α) : Prop := entries.Pairwise fun a b => a.1 < b.1

instance (entries : Keyed α) : Decidable entries.Ascending :=
  inferInstanceAs (Decidable (entries.Pairwise fun a b => a.1 < b.1))

theorem ascending_nil : Ascending ([] : Keyed α) := List.Pairwise.nil

theorem Ascending.insert (h : entries.Ascending) (name : String) (value : α) :
    (Keyed.insert name value entries).Ascending := by
  induction entries with
  | nil => exact List.pairwise_singleton ..
  | cons first rest ih =>
    obtain ⟨k, v⟩ := first
    obtain ⟨hfirst, hrest⟩ := List.pairwise_cons.mp h
    unfold Keyed.insert
    split
    · next hlt =>
      apply List.pairwise_cons.mpr
      refine ⟨fun other hother => ?_, h⟩
      rcases List.mem_cons.mp hother with rfl | hother
      · exact hlt
      · exact String.lt_trans hlt (hfirst other hother)
    · split
      · next hsame =>
        subst hsame
        exact List.pairwise_cons.mpr ⟨hfirst, hrest⟩
      · next hnotlt hne =>
        have hlt : k < name := Decidable.byContradiction fun hge =>
          hne (String.le_antisymm (String.not_lt.mp hnotlt) (String.not_lt.mp hge))
        apply List.pairwise_cons.mpr
        refine ⟨fun other hother => ?_, ih hrest⟩
        rcases mem_insert hother with rfl | hother
        · exact hlt
        · exact hfirst other hother

theorem Ascending.insertNew (h : entries.Ascending) (name : String) (value : α) :
    (Keyed.insertNew name value entries).Ascending := by
  unfold Keyed.insertNew
  split
  · exact h
  · exact h.insert name value

/-- A table that keeps the first binding of each name is in order as well. -/
theorem Ascending.foldl_insertNew {more : Keyed α} (h : entries.Ascending) :
    Ascending (more.foldl (fun acc (k, v) => Keyed.insertNew k v acc) entries) := by
  induction more generalizing entries with
  | nil => exact h
  | cons e rest ih => exact ih (h.insertNew e.1 e.2)

theorem Ascending.find?_eq_some_of_mem (h : entries.Ascending) (hmem : (name, value) ∈ entries) :
    find? name entries = some value := by
  induction entries with
  | nil => cases hmem
  | cons first rest ih =>
    obtain ⟨hfirst, hrest⟩ := List.pairwise_cons.mp h
    obtain ⟨k, v⟩ := first
    rw [find?_cons]
    rcases List.mem_cons.mp hmem with hhere | hlater
    · obtain ⟨rfl, rfl⟩ := Prod.mk.inj hhere
      exact if_pos rfl
    · have hlt : k < name := hfirst _ hlater
      have hne : k ≠ name := fun hsame => String.lt_irrefl name (hsame ▸ hlt)
      rw [if_neg hne, ih hrest hlater]

/-- Two ascending tables in which the names lead to the same are the same. -/
theorem Ascending.ext (h : entries.Ascending) (h' : others.Ascending)
    (hsame : ∀ name, find? name entries = find? name others) : entries = others := by
  have hmem : ∀ {a b : Keyed α}, a.Ascending → (∀ name, find? name a = find? name b) →
      ∀ entry ∈ a, entry ∈ b := by
    rintro a b ha hab ⟨name, value⟩ hentry
    exact mem_of_find? ((hab name).symm.trans (ha.find?_eq_some_of_mem hentry))
  have hnodup : ∀ {a : Keyed α}, a.Ascending → a.Nodup := by
    intro a ha
    apply ha.imp
    rintro first _ hlt rfl
    exact String.lt_irrefl first.1 hlt
  have hperm : entries.Perm others := (List.perm_ext_iff_of_nodup (hnodup h) (hnodup h')).mpr fun entry =>
    ⟨hmem h hsame entry, hmem h' (fun name => (hsame name).symm) entry⟩
  exact hperm.eq_of_pairwise (fun a b _ _ hab hba => absurd hba (String.lt_asymm hab)) h h'

end Keyed

end PolicyAudit
