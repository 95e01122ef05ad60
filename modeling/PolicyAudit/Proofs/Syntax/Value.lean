-- SUMMARY: The value of a tree, member by member and element by element.
import PolicyAudit.Syntax.Document

/-! ## Tables filled in order

A table that keeps the first binding of each name answers from the bindings in their order. -/

namespace PolicyAudit

namespace Keyed

variable {α : Type}

theorem find?_insertNew (name other : String) (value : α) (entries : Keyed α) :
    find? other (insertNew name value entries) =
      (find? other entries).or (if name = other then some value else none) := by
  unfold insertNew
  split
  · rename_i hfound
    by_cases h : name = other
    · subst h
      simp [hfound]
    · simp [h]
  · rename_i hnone
    by_cases h : name = other
    · subst h
      simp [find?_insert_self, hnone]
    · simp [find?_insert_of_ne h, h]

/-- The look-up in a table filled with bindings finds what is there already, or else the first
binding. -/
theorem find?_foldl_insertNew (name : String) (entries acc : Keyed α) :
    find? name (entries.foldl (fun acc (k, v) => insertNew k v acc) acc) =
      (find? name acc).or (find? name entries) := by
  induction entries generalizing acc with
  | nil => simp
  | cons e entries ih =>
    obtain ⟨k, v⟩ := e
    rw [List.foldl_cons, ih, find?_insertNew, find?_cons, Option.or_assoc]
    by_cases h : k = name <;> simp [h]

end Keyed

/-- An object made of members answers with the first member of a name. -/
theorem Json.get?_ofMembers (name : String) (members : List (String × Json)) :
    (Json.ofMembers members).get? name = Keyed.find? name members := by
  simp [Json.ofMembers, Json.get?, Json.members?, Keyed.find?_foldl_insertNew]

/-! ## The value of a container -/

namespace Tree

/-- The members that have a value, with their values. -/
def entries (members : List (Member Tree)) : List (String × Json) :=
  members.filterMap fun member => member.value?.map fun tree => (member.name, tree.toJson)

theorem entries_cons (span : Span) (name : String) (nameSpan : Span) (tree : Tree)
    (members : List (Member Tree)) :
    entries (⟨span, name, nameSpan, some tree⟩ :: members) = (name, tree.toJson) :: entries members := rfl

theorem membersToJson_eq (acc : Keyed Json) (members : List (Member Tree)) :
    membersToJson acc members =
      (entries members).foldl (fun acc (name, value) => Keyed.insertNew name value acc) acc := by
  induction members generalizing acc with
  | nil => rfl
  | cons member members ih =>
    obtain ⟨span, name, nameSpan, value?⟩ := member
    cases value? with
    | none => simpa [membersToJson, entries] using ih acc
    | some tree => simpa [membersToJson, entries] using ih _

theorem toJson_object (span : Span) (members : List (Member Tree)) :
    (Tree.object span members).toJson = .ofMembers (entries members) := by
  rw [toJson, membersToJson_eq]
  rfl

theorem itemsToJson_eq_map (items : List Tree) : itemsToJson items = items.map toJson := by
  induction items with
  | nil => rfl
  | cons item items ih => simp [itemsToJson, ih]

theorem toJson_array (span : Span) (items : List Tree) :
    (Tree.array span items).toJson = .array (items.map toJson) := by
  rw [toJson, itemsToJson_eq_map]

/-- A tree and the value that it stands for. -/
def valued (tree : Tree) : Tree × Json := (tree, tree.toJson)

@[simp] theorem isNone_map_valued (tree? : Option Tree) : (tree?.map valued).isNone = tree?.isNone :=
  Option.isNone_map

theorem fst_map_valued (tree? : Option Tree) : (tree?.map valued).map Prod.fst = tree? := by
  cases tree? <;> rfl

theorem snd_map_valued (tree? : Option Tree) : (tree?.map valued).map Prod.snd = tree?.map toJson := by
  cases tree? <;> rfl

end Tree

end PolicyAudit
