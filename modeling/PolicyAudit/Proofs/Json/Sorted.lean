-- SUMMARY: Values with their names in order, values with whole numbers only, and the longest paths into values.
import PolicyAudit.Proofs.Keyed
import PolicyAudit.Proofs.Syntax.Value

/-! ## Sorted values

Reading sorts the members of every object, and a sorted value is the only one in which its names lead to what
they lead to. -/

namespace PolicyAudit

namespace Json

variable {value part child : Json} {items : List Json} {members : List (String × Json)} {key : Key} {path : Path}

/-- The members of an object in order make that object. -/
theorem ofMembers_eq (h : Keyed.Ascending members) : ofMembers members = .object members := by
  obtain ⟨found, hfound⟩ : ∃ found, ofMembers members = .object found := ⟨_, rfl⟩
  have hnames : Keyed.Ascending found := object.inj hfound ▸ Keyed.ascending_nil.foldl_insertNew
  have hsame (name : String) : Keyed.find? name found = Keyed.find? name members := by
    have hget := get?_ofMembers name members
    rwa [hfound] at hget
  rw [hfound, hnames.ext h hsame]

/-- The names of every object in a value ascend. -/
inductive Sorted : Json → Prop where
  | scalar (value : Scalar) : Sorted (.scalar value)
  | array {items : List Json} : (∀ item ∈ items, Sorted item) → Sorted (.array items)
  | object {members : List (String × Json)} : Keyed.Ascending members →
      (∀ member ∈ members, Sorted member.2) → Sorted (.object members)

@[simp] theorem sorted_scalar (value : Scalar) : (Json.scalar value).Sorted := .scalar value

@[simp] theorem sorted_array_iff : (Json.array items).Sorted ↔ ∀ item ∈ items, item.Sorted :=
  ⟨fun | .array h => h, .array⟩

@[simp] theorem sorted_object_iff :
    (Json.object members).Sorted ↔ Keyed.Ascending members ∧ ∀ member ∈ members, member.2.Sorted :=
  ⟨fun | .object hnames h => ⟨hnames, h⟩, fun ⟨hnames, h⟩ => .object hnames h⟩

theorem eq_object_of_members? (h : value.members? = some members) : value = .object members := by
  cases value with
  | object found => rw [Option.some.inj h]
  | array items => cases h
  | scalar scalar => cases h

theorem Sorted.of_members? (h : value.Sorted) (hmembers : value.members? = some members) :
    Keyed.Ascending members ∧ ∀ member ∈ members, member.2.Sorted :=
  sorted_object_iff.mp (eq_object_of_members? hmembers ▸ h)

theorem Sorted.child? (h : value.Sorted) (hchild : value.child? key = some child) : child.Sorted := by
  rcases child?_cases hchild with ⟨members, name, rfl, rfl, hmember⟩ | ⟨items, index, rfl, rfl, hitem⟩
  · cases h with
    | object _ hmembers => exact hmembers (name, child) (Keyed.mem_of_find? hmember)
  · cases h with
    | array hitems => exact hitems child (List.mem_of_getElem? hitem)

theorem Sorted.at? (h : value.Sorted) (hpart : value.at? path = some part) : part.Sorted := by
  induction path generalizing value with
  | nil => exact Option.some.inj ((at?_nil value).symm.trans hpart) ▸ h
  | cons key path ih =>
    rw [at?_cons] at hpart
    obtain ⟨child, hchild, hbelow⟩ := Option.bind_eq_some_iff.mp hpart
    exact ih (h.child? hchild) hbelow

theorem sorted_ofMembers (h : ∀ member ∈ members, member.2.Sorted) : (ofMembers members).Sorted := by
  refine .object Keyed.ascending_nil.foldl_insertNew fun member hmember => ?_
  exact h member ((Keyed.mem_of_mem_foldl_insertNew hmember).resolve_left List.not_mem_nil)

end Json

namespace Tree

mutual

/-- The value of a tree is sorted, whatever the order in which its members are written. -/
theorem sorted_toJson : (tree : Tree) → tree.toJson.Sorted
  | .object span members => by
    rw [toJson]
    refine .object ?_ (sorted_membersToJson [] members nofun)
    rw [membersToJson_eq]
    exact Keyed.ascending_nil.foldl_insertNew
  | .array span items => by
    rw [toJson]
    exact .array (sorted_itemsToJson items)
  | .scalar span value => .scalar value

theorem sorted_itemsToJson : (items : List Tree) → ∀ value ∈ itemsToJson items, value.Sorted
  | [] => nofun
  | item :: rest => by
    rw [itemsToJson]
    exact List.forall_mem_cons.mpr ⟨sorted_toJson item, sorted_itemsToJson rest⟩

theorem sorted_membersToJson (acc : Keyed Json) : (members : List (Member Tree)) →
    (∀ entry ∈ acc, entry.2.Sorted) → ∀ entry ∈ membersToJson acc members, entry.2.Sorted
  | [], hacc => hacc
  | ⟨_, name, _, some tree⟩ :: rest, hacc => by
    rw [membersToJson]
    refine sorted_membersToJson _ rest fun entry hentry => ?_
    unfold Keyed.insertNew at hentry
    split at hentry
    · exact hacc entry hentry
    · rcases Keyed.mem_insert hentry with rfl | hbefore
      · exact sorted_toJson tree
      · exact hacc entry hbefore
  | ⟨_, _, _, none⟩ :: rest, hacc => by
    rw [membersToJson]
    exact sorted_membersToJson acc rest hacc

end

end Tree

/-! ## Exact values -/

/-- A number is an integer of 64 bits, signed or unsigned. -/
def Number.Exact : Number → Prop
  | .int value => -0x8000000000000000 ≤ value ∧ value < 0x10000000000000000
  | .float _ => False

/-- A scalar is an exact number, or no number at all. -/
def Scalar.Exact : Scalar → Prop
  | .number value => value.Exact
  | _ => True

namespace Json

variable {value part child : Json} {items : List Json} {members : List (String × Json)} {key : Key} {path : Path}

/-- All numbers in a value are exact. -/
inductive Exact : Json → Prop where
  | scalar {value : Scalar} : value.Exact → Exact (.scalar value)
  | array {items : List Json} : (∀ item ∈ items, Exact item) → Exact (.array items)
  | object {members : List (String × Json)} : (∀ member ∈ members, Exact member.2) → Exact (.object members)

@[simp] theorem exact_scalar_iff {value : Scalar} : (Json.scalar value).Exact ↔ value.Exact :=
  ⟨fun | .scalar h => h, .scalar⟩

@[simp] theorem exact_array_iff : (Json.array items).Exact ↔ ∀ item ∈ items, item.Exact :=
  ⟨fun | .array h => h, .array⟩

@[simp] theorem exact_object_iff : (Json.object members).Exact ↔ ∀ member ∈ members, member.2.Exact :=
  ⟨fun | .object h => h, .object⟩

theorem exact_ofMembers (h : ∀ member ∈ members, member.2.Exact) : (ofMembers members).Exact :=
  .object fun member hmember =>
    h member ((Keyed.mem_of_mem_foldl_insertNew hmember).resolve_left List.not_mem_nil)

theorem exact_string (s : String) : (Json.string s).Exact := .scalar trivial

/-! ## Reach

A part stands inside as many containers as its path has keys, so the longest path says how deep a value is
nested. -/

mutual

/-- The number of keys in the longest path into a value. -/
def reach : Json → Nat
  | .scalar _ => 0
  | .array items => itemsReach items
  | .object members => membersReach members

/-- The number of keys in the longest path into an array. -/
def itemsReach : List Json → Nat
  | [] => 0
  | item :: rest => max (item.reach + 1) (itemsReach rest)

/-- The number of keys in the longest path into an object. -/
def membersReach : List (String × Json) → Nat
  | [] => 0
  | (_, value) :: rest => max (value.reach + 1) (membersReach rest)

end

theorem reach_lt_of_mem_items (h : part ∈ items) : part.reach < (Json.array items).reach := by
  rw [reach]
  induction items with
  | nil => cases h
  | cons item items ih =>
    rw [itemsReach]
    rcases List.mem_cons.mp h with rfl | hrest
    · exact Nat.le_max_left ..
    · exact Nat.lt_of_lt_of_le (ih hrest) (Nat.le_max_right ..)

theorem reach_lt_of_mem_members {name : String} (h : (name, part) ∈ members) :
    part.reach < (Json.object members).reach := by
  rw [reach]
  induction members with
  | nil => cases h
  | cons member members ih =>
    rw [membersReach]
    rcases List.mem_cons.mp h with rfl | hrest
    · exact Nat.le_max_left ..
    · exact Nat.lt_of_lt_of_le (ih hrest) (Nat.le_max_right ..)

theorem reach_object_le {n : Nat} (h : ∀ member ∈ members, member.2.reach < n) :
    (Json.object members).reach ≤ n := by
  rw [reach]
  induction members with
  | nil => exact Nat.zero_le n
  | cons member members ih =>
    obtain ⟨hfirst, hrest⟩ := List.forall_mem_cons.mp h
    rw [membersReach]
    exact Nat.max_le.mpr ⟨hfirst, ih hrest⟩

theorem reach_lt_of_child? (h : value.child? key = some child) : child.reach < value.reach := by
  rcases child?_cases h with ⟨members, name, rfl, rfl, hmember⟩ | ⟨items, index, rfl, rfl, hitem⟩
  · exact reach_lt_of_mem_members (Keyed.mem_of_find? hmember)
  · exact reach_lt_of_mem_items (List.mem_of_getElem? hitem)

theorem length_add_reach_le (h : value.at? path = some part) : path.length + part.reach ≤ value.reach := by
  induction path generalizing value with
  | nil =>
    rw [at?_nil] at h
    obtain rfl := Option.some.inj h
    simp
  | cons key path ih =>
    rw [at?_cons] at h
    obtain ⟨child, hchild, hbelow⟩ := Option.bind_eq_some_iff.mp h
    have hhere := reach_lt_of_child? hchild
    have hthere := ih hbelow
    rw [List.length_cons]
    omega

end Json

end PolicyAudit
