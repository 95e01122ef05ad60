-- SUMMARY: Changing the part of a value at a path, and what that leaves as it was.
import PolicyAudit.Proofs.Json.Sorted
import PolicyAudit.Proofs.Syntax.Rewriting

/-! ## Tables -/

namespace PolicyAudit

namespace Keyed

variable {α : Type} {f : α → α} {name other : String} {entries : Keyed α}

/-- Applies a function to what is bound to `name`. -/
def modify (name : String) (f : α → α) (entries : Keyed α) : Keyed α :=
  entries.map fun (k, v) => (k, if k = name then f v else v)

theorem find?_modify_self (name : String) (f : α → α) (entries : Keyed α) :
    find? name (modify name f entries) = (find? name entries).map f := by
  induction entries with
  | nil => rfl
  | cons entry entries ih =>
    obtain ⟨k, v⟩ := entry
    rw [modify, List.map_cons, find?_cons, find?_cons, ← modify, ih]
    split <;> rfl

theorem find?_modify_of_ne (h : other ≠ name) (f : α → α) (entries : Keyed α) :
    find? other (modify name f entries) = find? other entries := by
  induction entries with
  | nil => rfl
  | cons entry entries ih =>
    obtain ⟨k, v⟩ := entry
    rw [modify, List.map_cons, find?_cons, find?_cons, ← modify, ih]
    by_cases hk : k = other
    · rw [if_pos hk, if_pos hk, if_neg fun hname => h (hk.symm.trans hname)]
    · rw [if_neg hk, if_neg hk]

theorem Ascending.modify (h : entries.Ascending) (name : String) (f : α → α) :
    (Keyed.modify name f entries).Ascending := List.pairwise_map.mpr h

end Keyed

/-! ## Values -/

namespace Json

/-- The object with `name` bound to `value`. What is no object stays as it is. -/
def insert (object : Json) (name : String) (value : Json) : Json :=
  match object with
  | .object members => .object (Keyed.insert name value members)
  | other => other

/-- Applies a function to the part at a path. Where the path leads nowhere the value stays as it is. -/
def modifyAt (f : Json → Json) : Path → Json → Json
  | [], value => f value
  | .name name :: path, .object members => .object (Keyed.modify name (modifyAt f path) members)
  | .index index :: path, .array items => .array (items.modify index (modifyAt f path))
  | _ :: _, value => value

variable {f : Json → Json} {value value' part old : Json} {key other : Key} {path q : Path}

@[simp] theorem modifyAt_nil (f : Json → Json) (value : Json) : value.modifyAt f [] = f value := by
  rw [modifyAt]

/-! ## Looking into a changed value -/

theorem child?_modifyAt (f : Json → Json) (key : Key) (path : Path) (value : Json) :
    (value.modifyAt f (key :: path)).child? key = (value.child? key).map (·.modifyAt f path) := by
  cases value with
  | scalar value => cases key <;> rfl
  | array items =>
    cases key with
    | name name => rfl
    | index index => exact List.getElem?_modify_eq ..
  | object members =>
    cases key with
    | name name => exact Keyed.find?_modify_self ..
    | index index => rfl

theorem child?_modifyAt_of_ne (h : other ≠ key) (f : Json → Json) (path : Path) (value : Json) :
    (value.modifyAt f (key :: path)).child? other = value.child? other := by
  cases value with
  | scalar value => cases key <;> rfl
  | array items =>
    cases key with
    | name name => rfl
    | index index =>
      cases other with
      | name name => rfl
      | index other => exact List.getElem?_modify_ne _ _ (fun heq => h (congrArg Key.index (Eq.symm heq)))
  | object members =>
    cases key with
    | name name =>
      cases other with
      | name other => exact Keyed.find?_modify_of_ne (fun heq => h (congrArg Key.name heq)) ..
      | index index => rfl
    | index index => rfl

/-- On the way to the changed part and at that part. -/
theorem at?_modifyAt_above (f : Json → Json) (q path : Path) (value : Json) :
    (value.modifyAt f (q ++ path)).at? q = (value.at? q).map (·.modifyAt f path) := by
  induction q generalizing value with
  | nil => rw [at?_nil, at?_nil]; rfl
  | cons key q ih =>
    rw [List.cons_append, at?_cons, at?_cons, child?_modifyAt, Option.bind_map, Option.map_bind]
    exact Option.bind_congr fun child _ => ih child

theorem at?_modifyAt (h : value.at? path = some part) (f : Json → Json) :
    (value.modifyAt f path).at? path = some (f part) := by
  have habove := at?_modifyAt_above f path [] value
  rwa [List.append_nil, h, Option.map_some, modifyAt_nil] at habove

/-- Beside the changed part. -/
theorem at?_modifyAt_beside (hbelow : ¬ path <+: q) (habove : ¬ q <+: path) (f : Json → Json) (value : Json) :
    (value.modifyAt f path).at? q = value.at? q := by
  induction path generalizing value q with
  | nil => exact absurd List.nil_prefix hbelow
  | cons key path ih =>
    cases q with
    | nil => exact absurd List.nil_prefix habove
    | cons other q =>
      rw [at?_cons, at?_cons]
      by_cases hkey : other = key
      · subst hkey
        rw [List.prefix_cons_inj] at hbelow habove
        rw [child?_modifyAt, Option.bind_map]
        exact Option.bind_congr fun child _ => ih hbelow habove child
      · rw [child?_modifyAt_of_ne hkey]

/-! ## Looking into an object with a new member -/

variable {name : String} {new : Json}

theorem at?_insert (h : value.isObject = true) (name : String) (new : Json) :
    (value.insert name new).at? [.name name] = some new := by
  cases value with
  | object members =>
    rw [at?_cons, insert]
    exact congrArg (·.bind (·.at? [])) (Keyed.find?_insert_self name new members)
  | array | scalar => cases h

theorem get?_insert_self (h : value.isObject = true) (name : String) (new : Json) :
    (value.insert name new).get? name = some new := by
  cases value with
  | object members => exact Keyed.find?_insert_self name new members
  | array | scalar => cases h

theorem child?_insert_of_ne (h : key ≠ .name name) (new value : Json) :
    (value.insert name new).child? key = value.child? key := by
  cases value with
  | object members =>
    cases key with
    | name other => exact Keyed.find?_insert_of_ne (fun heq => h (congrArg Key.name heq.symm)) ..
    | index index => rfl
  | array | scalar => rfl

/-- Beside the new member, in its object and elsewhere. -/
theorem at?_modifyAt_insert (hbelow : ¬ path ++ [.name name] <+: q) (habove : ¬ q <+: path) :
    (value.modifyAt (·.insert name new) path).at? q = value.at? q := by
  by_cases hinside : path <+: q
  · obtain ⟨rest, rfl⟩ := hinside
    have hhere := at?_modifyAt_above (·.insert name new) path [] value
    rw [List.append_nil] at hhere
    rw [at?_append, at?_append, hhere, Option.bind_map]
    refine Option.bind_congr fun part _ => ?_
    cases rest with
    | nil =>
      rw [List.append_nil] at habove
      exact absurd List.prefix_rfl habove
    | cons key rest =>
      have hkey : key ≠ .name name := by
        rintro rfl
        exact hbelow ⟨rest, by simp⟩
      rw [Function.comp_apply, modifyAt_nil, at?_cons, at?_cons, child?_insert_of_ne hkey]
  · exact at?_modifyAt_beside hinside habove _ value

/-! ## Putting a part in

The value that a part is put into is the changed one: sorted values in which all names lead to the same are
the same. -/

theorem object_of_get? {name : String} (h : value.get? name = some part) :
    ∃ members, value = .object members ∧ Keyed.find? name members = some part := by
  cases value with
  | object members => exact ⟨members, rfl, h⟩
  | array items => cases h
  | scalar scalar => cases h

theorem Puts.eq_modifyAt (h : Puts part path value value') (hvalue : value.Sorted) (hvalue' : value'.Sorted)
    (hold : value.at? path = some old) (hpart : f old = part) : value' = value.modifyAt f path := by
  induction h with
  | here value =>
    rw [at?_nil] at hold
    obtain rfl := Option.some.inj hold
    rw [modifyAt_nil, hpart]
  | @name value value' child child' name path hchild hput hchild' hothers ih =>
    obtain ⟨members, rfl, hfind⟩ := object_of_get? hchild
    obtain ⟨members', rfl, hfind'⟩ := object_of_get? hchild'
    have hbelow : child.at? path = some old := by
      rw [at?_cons] at hold
      exact (congrArg (·.bind (·.at? path)) hfind).symm.trans hold
    obtain ⟨hnames, hmembers⟩ := sorted_object_iff.mp hvalue
    obtain ⟨hnames', hmembers'⟩ := sorted_object_iff.mp hvalue'
    have hnew := ih (hmembers _ (Keyed.mem_of_find? hfind)) (hmembers' _ (Keyed.mem_of_find? hfind')) hbelow
    refine congrArg Json.object (hnames'.ext (hnames.modify name _) fun other => ?_)
    by_cases hother : other = name
    · rw [hother, Keyed.find?_modify_self, hfind, hfind', hnew, Option.map_some]
    · rw [Keyed.find?_modify_of_ne hother]
      exact hothers other hother
  | @index items child child' index path hchild hput ih =>
    have hbelow : child.at? path = some old := by
      rw [at?_cons] at hold
      exact (congrArg (·.bind (·.at? path)) hchild).symm.trans hold
    have hset : (items.set index child')[index]? = some child' :=
      List.getElem?_set_self (List.getElem?_eq_some_iff.mp hchild).1
    have hnew := ih (sorted_array_iff.mp hvalue child (List.mem_of_getElem? hchild))
      (sorted_array_iff.mp hvalue' child' (List.mem_of_getElem? hset)) hbelow
    refine congrArg Json.array (List.ext_getElem? fun i => ?_)
    by_cases hi : index = i
    · subst hi
      rw [hset, List.getElem?_modify_eq, hchild, hnew]
      rfl
    · rw [List.getElem?_set_ne hi, List.getElem?_modify_ne _ _ hi]

theorem puts_modifyAt (h : value.at? path = some old) (f : Json → Json) :
    Puts (f old) path value (value.modifyAt f path) := by
  induction path generalizing value with
  | nil =>
    rw [at?_nil] at h
    obtain rfl := Option.some.inj h
    rw [modifyAt_nil]
    exact .here value
  | cons key path ih =>
    rw [at?_cons] at h
    obtain ⟨child, hchild, hbelow⟩ := Option.bind_eq_some_iff.mp h
    rcases child?_cases hchild with ⟨members, name, rfl, rfl, hmember⟩ | ⟨items, index, rfl, rfl, hitem⟩
    · have hnew : Keyed.find? name (Keyed.modify name (modifyAt f path) members) = some (child.modifyAt f path) := by
        rw [Keyed.find?_modify_self, hmember, Option.map_some]
      rw [modifyAt]
      exact .name hchild (ih hbelow) hnew fun other hother => Keyed.find?_modify_of_ne hother ..
    · have hset : items.modify index (modifyAt f path) = items.set index (child.modifyAt f path) := by
        refine List.ext_getElem? fun i => ?_
        by_cases hi : index = i
        · subst hi
          rw [List.getElem?_modify_eq, List.getElem?_set_self (List.getElem?_eq_some_iff.mp hitem).1, hitem]
          rfl
        · rw [List.getElem?_modify_ne _ _ hi, List.getElem?_set_ne hi]
      rw [modifyAt, hset]
      exact .index hitem (ih hbelow)

end Json

end PolicyAudit
