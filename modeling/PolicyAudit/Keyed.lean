-- SUMMARY: Tables from names to values, kept in the order of the names.

/-! ## Keyed tables

A table lists its entries by ascending name, names compared character by character. Insertion keeps
that order, and the look-up laws below hold of any list of entries. -/

namespace PolicyAudit

/-- Entries by ascending name. -/
abbrev Keyed (α : Type) : Type := List (String × α)

namespace Keyed

variable {α : Type}

/-- The value under `name`. -/
def find? (name : String) : Keyed α → Option α
  | [] => none
  | (k, v) :: rest => if k = name then some v else find? name rest

/-- Binds `name` to `value`, in place of what it was bound to. -/
def insert (name : String) (value : α) : Keyed α → Keyed α
  | [] => [(name, value)]
  | (k, v) :: rest =>
    if name < k then (name, value) :: (k, v) :: rest
    else if k = name then (name, value) :: rest
    else (k, v) :: insert name value rest

/-- Binds `name` to `value` unless it is bound. -/
def insertNew (name : String) (value : α) (entries : Keyed α) : Keyed α :=
  match find? name entries with
  | some _ => entries
  | none => insert name value entries

/-- Drops the entries of `name`. -/
def erase (name : String) : Keyed α → Keyed α
  | [] => []
  | (k, v) :: rest => if k = name then erase name rest else (k, v) :: erase name rest

/-- The names in order. -/
def names (entries : Keyed α) : List String := entries.map (·.1)

@[simp] theorem find?_nil (name : String) : find? name ([] : Keyed α) = none := rfl

theorem find?_cons (name k : String) (v : α) (rest : Keyed α) :
    find? name ((k, v) :: rest) = if k = name then some v else find? name rest := rfl

theorem find?_insert_self (name : String) (value : α) (entries : Keyed α) :
    find? name (insert name value entries) = some value := by
  induction entries with
  | nil => simp [insert, find?]
  | cons e rest ih =>
    obtain ⟨k, v⟩ := e
    simp only [insert]
    split
    · simp [find?]
    · split
      · simp [find?]
      · rename_i hne; simp [find?, hne, ih]

theorem find?_insert_of_ne {name other : String} (h : name ≠ other) (value : α)
    (entries : Keyed α) : find? other (insert name value entries) = find? other entries := by
  induction entries with
  | nil => simp [insert, find?, h]
  | cons e rest ih =>
    obtain ⟨k, v⟩ := e
    simp only [insert]
    split
    · simp [find?, h]
    · split
      · rename_i hk; subst hk; simp [find?, h]
      · simp [find?, ih]

theorem find?_erase_self (name : String) (entries : Keyed α) :
    find? name (erase name entries) = none := by
  induction entries with
  | nil => rfl
  | cons e rest ih =>
    obtain ⟨k, v⟩ := e
    by_cases h : k = name <;> simp [erase, h, find?, ih]

theorem find?_erase_of_ne {name other : String} (h : name ≠ other) (entries : Keyed α) :
    find? other (erase name entries) = find? other entries := by
  induction entries with
  | nil => rfl
  | cons e rest ih =>
    obtain ⟨k, v⟩ := e
    by_cases hk : k = name
    · subst hk; simp [erase, find?, h, ih]
    · simp [erase, hk, find?, ih]

end Keyed

end PolicyAudit
