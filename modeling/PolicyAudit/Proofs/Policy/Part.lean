-- SUMMARY: The parts of a document stand where their paths say.
import PolicyAudit.Policy.Field
import PolicyAudit.Proofs.Keyed
import PolicyAudit.Proofs.Syntax.Lookup

/-! ## Names apart

An object that was read binds each name once, so that every member is found under its name. -/

namespace PolicyAudit

namespace Keyed

variable {α : Type} {entries more : Keyed α}

/-- Every entry is what is found under its name. -/
def NamesApart (entries : Keyed α) : Prop :=
  ∀ name found, (name, found) ∈ entries → find? name entries = some found

theorem NamesApart.insertNew (h : NamesApart entries) (name : String) (value : α) :
    NamesApart (insertNew name value entries) := by
  intro other found hmem
  unfold Keyed.insertNew at hmem ⊢
  cases hname : find? name entries with
  | some old =>
    rw [hname] at hmem
    exact h other found hmem
  | none =>
    rw [hname] at hmem
    rcases mem_insert hmem with heq | hbefore
    · obtain ⟨rfl, rfl⟩ := Prod.mk.inj heq
      exact find?_insert_self ..
    · have hother := h other found hbefore
      have hne : name ≠ other := by
        rintro rfl
        cases hname.symm.trans hother
      exact (find?_insert_of_ne hne value entries).trans hother

theorem NamesApart.foldl_insertNew (h : NamesApart entries) :
    NamesApart (more.foldl (fun acc (k, v) => Keyed.insertNew k v acc) entries) := by
  induction more generalizing entries with
  | nil => exact h
  | cons e rest ih => exact ih (h.insertNew e.1 e.2)

end Keyed

/-- The names of an object's members are apart. -/
def Json.NamesApart (value : Json) : Prop :=
  ∀ members, value.members? = some members → Keyed.NamesApart members

theorem Tree.namesApart_toJson (tree : Tree) : tree.toJson.NamesApart := by
  intro members hmembers
  cases tree with
  | object span written =>
    rw [toJson_object] at hmembers
    obtain rfl := Option.some.inj hmembers
    exact Keyed.NamesApart.foldl_insertNew nofun
  | array span items => cases hmembers
  | scalar span value => cases hmembers

theorem Tree.Whole.exists_at? {tree : Tree} {path : Path} {value : Json} (h : tree.Whole)
    (hvalue : tree.toJson.at? path = some value) :
    ∃ sub, tree.at? path = some sub ∧ sub.toJson = value :=
  (at?_toJson_cases hvalue).resolve_right (h.not_shadows path)

/-! ## Parts

Rules find their way through a document by parts, each with the path that was taken. Every step that
they take makes a part that stands where its path says. -/

namespace Part

variable {value : Json} {part found : Part} {field : Field}

/-- The path of a part leads to it. -/
def StandsIn (value : Json) (part : Part) : Prop := value.at? part.path = some part.value

theorem standsIn_root (value : Json) : (root value).StandsIn value := Json.at?_nil value

theorem StandsIn.child {key : Key} {inner : Json} (h : part.StandsIn value)
    (hchild : part.value.child? key = some inner) :
    StandsIn value ⟨part.path ++ [key], inner⟩ := by
  unfold StandsIn at h ⊢
  rw [Json.at?_append, h, Option.bind_some, Json.at?_cons, hchild, Option.bind_some]
  exact Json.at?_nil inner

theorem child?_of_get? {object inner : Json} {name : String} (h : object.get? name = some inner) :
    object.child? (.name name) = some inner := by
  cases object with
  | object members => exact h
  | array items => cases h
  | scalar value => cases h

theorem StandsIn.field? (h : part.StandsIn value) (hfound : part.field? field = some found) :
    found.StandsIn value := by
  unfold Part.field? Json.spelling? at hfound
  obtain ⟨⟨name, inner⟩, hspelling, rfl⟩ := Option.map_eq_some_iff.mp hfound
  obtain ⟨spelling, -, hget⟩ := List.exists_of_findSome?_eq_some hspelling
  obtain ⟨_, hinner, hpair⟩ := Option.map_eq_some_iff.mp hget
  obtain ⟨rfl, rfl⟩ := Prod.mk.inj hpair
  exact h.child (child?_of_get? hinner)

theorem StandsIn.items? {items : List Part} (h : part.StandsIn value)
    (hitems : part.items? = some items) : ∀ item ∈ items, item.StandsIn value := by
  intro item hitem
  obtain ⟨path, inner⟩ := part
  cases inner with
  | array values =>
    obtain rfl := Option.some.inj hitems
    obtain ⟨index, hindex, rfl⟩ := List.mem_mapIdx.mp hitem
    exact h.child (List.getElem?_eq_getElem hindex)
  | object members => cases hitems
  | scalar scalar => cases hitems

theorem StandsIn.items (h : part.StandsIn value) : ∀ item ∈ part.items, item.StandsIn value := by
  unfold Part.items
  cases hitems : part.items? with
  | none => exact nofun
  | some items => exact h.items? hitems

/-- The elements of the list in a field. -/
theorem StandsIn.fieldItems (h : part.StandsIn value) (field : Field) :
    ∀ item ∈ ((part.field? field).map Part.items).getD [], item.StandsIn value := by
  cases hlist : part.field? field with
  | none => exact nofun
  | some list => exact (h.field? hlist).items

theorem StandsIn.members? {members : List (String × Part)} (h : part.StandsIn value)
    (hapart : part.value.NamesApart) (hmembers : part.members? = some members) :
    ∀ member ∈ members, member.2.StandsIn value := by
  intro member hmember
  obtain ⟨entries, hentries, rfl⟩ := Option.map_eq_some_iff.mp hmembers
  obtain ⟨⟨name, inner⟩, hmem, rfl⟩ := List.mem_map.mp hmember
  refine h.child (child?_of_get? ?_)
  rw [Json.get?, hentries]
  exact hapart entries hentries name inner hmem

theorem standsIn_properties (value : Json) : (properties value).StandsIn value := by
  unfold properties
  have hroot := standsIn_root value
  cases hfound : (root value).field? .properties with
  | none => exact hroot
  | some part =>
    dsimp only
    split
    · exact hroot.field? hfound
    · exact hroot

end Part

end PolicyAudit
