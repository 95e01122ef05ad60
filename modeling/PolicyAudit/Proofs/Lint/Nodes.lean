-- SUMMARY: When one node of a tree changes, what is collected from the other nodes stays the same.
import PolicyAudit.Proofs.Lint.Apart
import PolicyAudit.Proofs.Policy.Change
import PolicyAudit.Proofs.Syntax.Rewriting

/-! ## Lists of parts -/

namespace PolicyAudit

/-- A list around one of its elements, which may be replaced. -/
theorem exists_split_of_getElem? {α : Type} {l : List α} {i : Nat} {a : α} (h : l[i]? = some a) :
    ∃ before after, l = before ++ a :: after ∧ ∀ b, l.set i b = before ++ b :: after := by
  induction l generalizing i with
  | nil => cases h
  | cons x l ih =>
    cases i with
    | zero =>
      obtain rfl := Option.some.inj h
      exact ⟨[], l, rfl, fun _ => rfl⟩
    | succ i =>
      have hrest : l[i]? = some a := h
      obtain ⟨before, after, rfl, hset⟩ := ih hrest
      exact ⟨x :: before, after, rfl, fun b => by rw [List.set_cons_succ, hset]; rfl⟩

/-- What is put below a field is put below the spelling that the object has for it. -/
theorem Json.Puts.exists_of_spelling? {new value value' found : Json} {field : Field} {name : String}
    {path : Path} (h : Puts new (.name name :: path) value value')
    (hspelling : value.spelling? field = some (name, found)) :
    ∃ found', value'.spelling? field = some (name, found') ∧ Puts new path found found' ∧
      AlikeBut name value value' := by
  obtain ⟨hfound, -⟩ := spelling?_eq_some_iff.mp hspelling
  cases h with
  | name hold hput hnew hothers =>
    obtain rfl := Option.some.inj (hold.symm.trans hfound)
    have halike : AlikeBut name value value' := hothers
    exact ⟨_, halike.spelling?_of_replaced hspelling hnew, hput, halike⟩

namespace Part

variable {part item : Part} {field : Field} {value value' : Json}

/-- Where an element of the list in a field stands. -/
theorem exists_of_mem_fieldItems (h : item ∈ ((part.field? field).map Part.items).getD []) :
    ∃ name items index, part.value.spelling? field = some (name, .array items) ∧
      items[index]? = some item.value ∧ item.path = part.path ++ [.name name, .index index] := by
  cases hspelling : part.value.spelling? field with
  | none => simp [Part.field?, hspelling] at h
  | some found =>
    obtain ⟨name, found⟩ := found
    simp only [Part.field?, hspelling, Option.map_some, Option.getD_some] at h
    cases found with
    | array items =>
      obtain ⟨index, hindex, rfl⟩ := List.mem_mapIdx.mp h
      exact ⟨name, items, index, rfl, List.getElem?_eq_getElem hindex, List.append_assoc ..⟩
    | object members => cases h
    | scalar scalar => cases h

theorem field?_of_alikeBut {name : String} {other : Field} (h : Json.AlikeBut name part.value value')
    (hname : name ∈ field.spellings) (hne : field ≠ other) :
    (⟨part.path, value'⟩ : Part).field? other = part.field? other := by
  simp only [Part.field?, h.spelling?_eq (Field.not_mem_spellings hname hne)]

theorem isSome_of_fieldItems {before after : List Part}
    (h : ((part.field? field).map Part.items).getD [] = before ++ item :: after) :
    (part.field? field).isSome = true := by
  cases hfield : part.field? field with
  | none => simp [hfield] at h
  | some found => rfl

/-- The list in a field before and after one of its elements is replaced. -/
theorem fieldItems_of_replaced {name : String} {items : List Json} {index : Nat} {child child' : Json}
    (hold : value.spelling? field = some (name, .array items)) (hchild : items[index]? = some child)
    (hnew : value'.spelling? field = some (name, .array (items.set index child'))) (path : Path) :
    ∃ before after,
      (((⟨path, value⟩ : Part).field? field).map Part.items).getD [] =
        before ++ ⟨path ++ [.name name, .index index], child⟩ :: after ∧
      (((⟨path, value'⟩ : Part).field? field).map Part.items).getD [] =
        before ++ ⟨path ++ [.name name, .index index], child'⟩ :: after := by
  let place (i : Nat) (inner : Json) : Part := ⟨path ++ [.name name] ++ [.index i], inner⟩
  have hplaced : (items.mapIdx place)[index]? = some (place index child) := by
    rw [List.getElem?_mapIdx, hchild, Option.map_some]
  obtain ⟨before, after, hsplit, hset⟩ := exists_split_of_getElem? hplaced
  have hpath (inner : Json) : place index inner = ⟨path ++ [.name name, .index index], inner⟩ := by
    simp only [place, List.append_assoc, List.singleton_append]
  refine ⟨before, after, ?_, ?_⟩
  · rw [Part.field?, hold, ← hpath, ← hsplit]
    rfl
  · rw [Part.field?, hnew, ← hpath, ← hset, ← List.mapIdx_set]
    rfl

/-- Where something is put into an element of the list in a field, the other elements stay as they are. -/
theorem fieldItems_of_puts {new : Json} {path rest : Path}
    (hitem : item ∈ ((part.field? field).map Part.items).getD [])
    (hputs : Json.Puts new path part.value value') (hpath : part.path ++ path = item.path ++ rest) :
    ∃ name ∈ field.spellings, ∃ inner before after, Json.AlikeBut name part.value value' ∧
      value'.isObject = true ∧ Json.Puts new rest item.value inner ∧
      ((part.field? field).map Part.items).getD [] = before ++ item :: after ∧
      (((⟨part.path, value'⟩ : Part).field? field).map Part.items).getD [] =
        before ++ ⟨item.path, inner⟩ :: after := by
  obtain ⟨name, items, index, hspelling, hfound, hplace⟩ := exists_of_mem_fieldItems hitem
  obtain rfl : path = .name name :: .index index :: rest := by
    rw [hplace, List.append_assoc] at hpath
    exact List.append_cancel_left hpath
  obtain ⟨list, hlist, hbelow, halike⟩ := hputs.exists_of_spelling? hspelling
  have hname := Json.mem_spellings_of_spelling? hspelling
  have hobject := Json.isObject_of_spelling? hlist
  cases hbelow with
  | @index _ _ inner _ _ hold hinner =>
    obtain rfl := Option.some.inj (hold.symm.trans hfound)
    obtain ⟨before, after, hbefore, hafter⟩ := fieldItems_of_replaced hspelling hfound hlist part.path
    rw [← hplace] at hbefore hafter
    exact ⟨name, hname, inner, before, after, halike, hobject, hinner, hbefore, hafter⟩

end Part

/-! ## Nodes -/

namespace Assignment

variable {part : Part} {node node' : Node} {inherited : Bool} {value' root' : Json} {path : Path}

theorem nodesFrom_of_isObject (inherited : Bool) (h : part.value.isObject = true) :
    nodesFrom inherited part = ⟨part, inherited || part.value.hasField .scope⟩ ::
      (children part).flatMap (nodesFrom (inherited || part.value.hasField .scope)) := by
  rw [nodesFrom, if_pos h]
  simp

theorem isObject_of_mem_nodesFrom (h : node ∈ nodesFrom inherited part) : part.value.isObject = true := by
  unfold nodesFrom at h
  split at h
  · assumption
  · cases h

theorem isObject_of_mem_nodes (h : node ∈ nodesFrom inherited part) : node.part.value.isObject = true := by
  fun_induction nodesFrom inherited part with
  | case1 inherited part hobject covered ih =>
    rcases List.mem_cons.mp h with rfl | hbelow
    · exact hobject
    · obtain ⟨⟨child, hchild⟩, -, hmem⟩ := List.mem_flatMap.mp hbelow
      exact ih child hchild hmem
  | case2 => cases h

/-- Two nodes answer alike but for what is below them. -/
structure Node.Alike (node node' : Node) : Prop where
  path : node'.part.path = node.part.path
  covered : node'.covered = node.covered
  leaf : node'.leaf = node.leaf
  field : ∀ field, field ≠ .children → node'.part.field? field = node.part.field? field

/-- A value may take the place of a node's value when it is an object with the same children. Where there are
children, it must have a scope just as the other. -/
structure Node.Admits (node : Node) (value' : Json) : Prop where
  isObject : value'.isObject = true
  children : value'.spelling? .children = node.part.value.spelling? .children
  scope : node.part.value.hasField .scope = true → value'.hasField .scope = true
  covered : node.leaf = false → value'.hasField .scope = node.part.value.hasField .scope

/-- The node with another value. -/
def Node.withValue (node : Node) (value' : Json) : Node :=
  ⟨⟨node.part.path, value'⟩, node.covered || value'.hasField .scope⟩

theorem children_of_spelling? (h : value'.spelling? .children = part.value.spelling? .children) :
    children ⟨part.path, value'⟩ = children part := by
  simp only [children, Part.field?, h]

/-- The nodes from a node on, with another value in its place. -/
theorem nodesFrom_withValue
    (hadmits : Node.Admits ⟨part, inherited || part.value.hasField .scope⟩ value') :
    nodesFrom inherited ⟨part.path, value'⟩ =
      Node.withValue ⟨part, inherited || part.value.hasField .scope⟩ value' ::
        (children part).flatMap (nodesFrom (inherited || part.value.hasField .scope)) := by
  rw [nodesFrom_of_isObject inherited hadmits.isObject, children_of_spelling? hadmits.children]
  refine congr (congrArg List.cons ?_) ?_
  · rw [Node.withValue]
    cases hscope : part.value.hasField .scope with
    | false => simp
    | true => simp [hadmits.scope hscope]
  · cases hleaf : (children part) with
    | nil => rfl
    | cons child rest =>
      have hcovered := hadmits.covered (by simp [Node.leaf, hleaf])
      dsimp only at hcovered
      rw [hcovered]

/-- What is collected from nodes, alike ones in the same way, changes with the value of one node only at that
node. -/
theorem flatMap_nodesFrom {α : Type} {f : Node → List α} (hf : ∀ a b, Node.Alike a b → f b = f a)
    (hnode : node ∈ nodesFrom inherited part) (hpath : node.part.path = part.path ++ path)
    (hputs : Json.Puts value' path part.value root') (hadmits : node.Admits value') :
    ∃ before after, (nodesFrom inherited part).flatMap f = before ++ (f node ++ after) ∧
      (nodesFrom inherited ⟨part.path, root'⟩).flatMap f = before ++ (f (node.withValue value') ++ after) := by
  induction inherited, part using nodesFrom.induct generalizing path root' with
  | case1 inherited part hobject covered =>
    rename_i ih
    rw [nodesFrom_of_isObject inherited hobject] at hnode ⊢
    rcases List.mem_cons.mp hnode with rfl | hbelow
    · obtain rfl : path = [] := by simpa using hpath
      cases hputs with
      | here =>
        rw [nodesFrom_withValue hadmits]
        exact ⟨[], _, List.flatMap_cons, List.flatMap_cons⟩
    · obtain ⟨child, hchild, hmem⟩ := List.mem_flatMap.mp hbelow
      obtain ⟨rest, hrest⟩ := path_of_mem_nodesFrom hmem
      obtain ⟨name, hname, inner, before, after, halike, hroot, hinner, hold, hnew⟩ :=
        Part.fieldItems_of_puts hchild hputs (hpath.symm.trans hrest)
      obtain ⟨front, back, hfront, hback⟩ := ih child hchild hmem hrest hinner
      have hold : children part = before ++ child :: after := hold
      have hnew : children ⟨part.path, root'⟩ = before ++ ⟨child.path, inner⟩ :: after := hnew
      have hscope : root'.hasField .scope = part.value.hasField .scope := by
        rw [Json.hasField, halike.field?_eq_of_ne hname (by decide), ← Json.hasField]
      have hhead : Node.Alike ⟨part, covered⟩ ⟨⟨part.path, root'⟩, covered⟩ := by
        refine ⟨rfl, rfl, ?_, fun field hfield => ?_⟩
        · simp only [Node.leaf, hold, hnew]
          cases before <;> rfl
        · exact Part.field?_of_alikeBut halike hname hfield.symm
      rw [nodesFrom_of_isObject inherited hroot, hscope, hold, hnew]
      simp only [List.flatMap_cons, List.flatMap_append, covered] at hfront hback hhead ⊢
      rw [hfront, hback, hf _ _ hhead]
      refine ⟨f ⟨part, covered⟩ ++ ((before.flatMap (nodesFrom covered)).flatMap f ++ front),
        back ++ (after.flatMap (nodesFrom covered)).flatMap f, ?_, ?_⟩ <;>
        simp only [List.append_assoc, covered]
  | case2 inherited part hobject => exact absurd (isObject_of_mem_nodesFrom hnode) hobject

end Assignment

end PolicyAudit
