-- SUMMARY: Replacing a part of a document and adding a member to an object are updates of its value.
import PolicyAudit.Proofs.Json.Update
import PolicyAudit.Proofs.Lint.Editing
import PolicyAudit.Proofs.Lint.Fitting
import PolicyAudit.Proofs.Policy.Part

/-! ## Written documents -/

namespace PolicyAudit

variable {tree sub new : Tree} {text edited name : String} {path q : Path} {old value : Json} {edit : Edit}

namespace WritesDocument

/-- A part that is replaced in the text is replaced in the value. -/
theorem replaced (h : WritesDocument tree text.toList) (hsub : tree.at? path = some sub)
    (hvalue : Json.Prints path.length value) {doc : Document}
    (happly : (Edit.replaceValue doc sub value).apply text = .ok edited) :
    ∃ tree', WritesDocument tree' edited.toList ∧ tree'.toJson = tree.toJson.modifyAt (fun _ => value) path := by
  obtain ⟨tree', new, hnew, hwrites, -, -, hputs⟩ := h.rewrite hsub
    (P := fun new => new.toJson = value) (fun _ _ _ _ hmid => Edit.rewrites_replaceValue hmid hvalue) happly
  exact ⟨tree', hwrites, hputs.eq_modifyAt tree.sorted_toJson tree'.sorted_toJson
    (Tree.at?_toJson_of_some hsub) hnew.symm⟩

end WritesDocument

theorem Tree.get?_toJson_of_forall_ne (h : ∀ m ∈ sub.members, m.name ≠ name) : sub.toJson.get? name = none := by
  cases sub with
  | object span members =>
    rw [toJson_object, Json.get?_ofMembers, find?_entries, List.findSome?_eq_none_iff]
    exact fun m hm => if_neg (h m hm)
  | array | scalar => rfl

/-- What a tree stands for when a new member is added to it. -/
theorem Writes.Adds.toJson_eq (h : Writes.Adds sub.members name value new.members) (hsub : sub.isObject = true)
    (hfresh : sub.toJson.get? name = none) : new.toJson = sub.toJson.insert name value := by
  have hget := h.get?_toJson hsub
  have hnamed : new.toJson.get? name = some value := by
    rw [hget, hfresh, if_pos rfl, Option.none_or]
  obtain ⟨members', hnew, -⟩ := Json.object_of_get? hnamed
  obtain ⟨members, hold⟩ : ∃ members, sub.toJson = .object members := by
    cases sub with
    | object span found => exact ⟨_, Tree.toJson_object span found⟩
    | array | scalar => cases hsub
  obtain ⟨hnames', -⟩ := Json.sorted_object_iff.mp (hnew ▸ new.sorted_toJson)
  obtain ⟨hnames, -⟩ := Json.sorted_object_iff.mp (hold ▸ sub.sorted_toJson)
  rw [hnew, hold] at hget
  rw [hold] at hfresh
  rw [hnew, hold, Json.insert]
  refine congrArg Json.object (hnames'.ext (hnames.insert name value) fun other => ?_)
  have hother : Keyed.find? other members' = (Keyed.find? other members).or (if name = other then some value else none) :=
    hget other
  by_cases hsame : name = other
  · subst hsame
    have hnone : Keyed.find? name members = none := hfresh
    rw [hother, Keyed.find?_insert_self, hnone, if_pos rfl, Option.none_or]
  · rw [hother, Keyed.find?_insert_of_ne hsame, if_neg hsame, Option.or_none]

namespace WritesDocument

/-- A member that is added in the text is added to the value. -/
theorem inserted (h : WritesDocument tree text.toList) (hsub : tree.at? path = some sub)
    (hobject : sub.isObject = true) (hfresh : sub.toJson.get? name = none)
    (hvalue : Json.Prints (path.length + 1) value) {doc : Document} (hdoc : doc.text = text)
    (hedit : Edit.insertMember doc sub name value = .ok edit) (happly : edit.apply text = .ok edited) :
    ∃ tree', WritesDocument tree' edited.toList ∧
      tree'.toJson = tree.toJson.modifyAt (·.insert name value) path := by
  obtain ⟨tree', new, hadds, hwrites, -, -, hputs⟩ := h.rewrite hsub
    (P := fun new => Writes.Adds sub.members name value new.members)
    (fun _ _ _ htext hmid => Edit.rewrites_insertMember hmid (hdoc ▸ htext) hvalue hedit) happly
  exact ⟨tree', hwrites, hputs.eq_modifyAt tree.sorted_toJson tree'.sorted_toJson
    (Tree.at?_toJson_of_some hsub) (hadds.toJson_eq hobject hfresh).symm⟩

end WritesDocument

/-! ## Clean documents

Where the new value is nested too deep, the edit still applies, but then the text is not clean. -/

namespace Document

theorem valueAt?_eq_of_isClean (hclean : (ofText text).isClean = true) (path : Path) :
    (ofText text).valueAt? path = ((ofText text).at? path).map Tree.toJson := by
  cases hsub : (ofText text).at? path with
  | some sub => exact valueAt?_of_at? hsub
  | none =>
    refine Option.eq_none_iff_forall_ne_some.mpr fun value hvalue => ?_
    exact not_shadows_of_isClean hclean path (shadows_of_valueAt? hvalue hsub)

/-- In a clean document a path leads to the same in the tree as in the value. -/
theorem map_toJson_at? (hclean : (ofText text).isClean = true) (hvalue : (ofText text).value? = some value)
    (path : Path) : ((ofText text).at? path).map Tree.toJson = value.at? path := by
  rw [← valueAt?_eq_of_isClean hclean, valueAt?, hvalue, Option.bind_some]

theorem exists_writes_of_isClean (hclean : (ofText text).isClean = true)
    (hvalue : (ofText text).value? = some value) :
    ∃ tree, WritesDocument tree text.toList ∧ tree.toJson = value ∧
      ∀ path, (ofText text).at? path = tree.at? path := by
  obtain ⟨-, tree, htree⟩ := isClean_iff.mp hclean
  rw [value?, htree, Option.map_some] at hvalue
  refine ⟨tree, writes_of_clean hclean htree, Option.some.inj hvalue, fun path => ?_⟩
  rw [Document.at?, htree, Option.bind_some]

theorem clean_of_writesDocument (h : WritesDocument tree text.toList) :
    (ofText text).isClean = true ∧ (ofText text).value? = some tree.toJson := by
  obtain ⟨hclean, htree⟩ := clean_of_writes h
  exact ⟨hclean, by rw [value?, htree, Option.map_some]⟩

end Document

namespace Edit

open Document

/-- An edit makes a value of a text: it applies, and the new text is a clean document of the value unless that
is nested too deep. -/
def Makes (edit : Edit) (text : String) (value : Json) : Prop :=
  ∃ edited, edit.apply text = .ok edited ∧ (value.reach ≤ maxDepth →
    (ofText edited).isClean = true ∧ (ofText edited).value? = some value)

theorem makes_replaceValue (hclean : (ofText text).isClean = true) (hold : (ofText text).value? = some old)
    (hsub : (ofText text).at? path = some sub) (hsorted : value.Sorted) (hexact : value.Exact) :
    (replaceValue (.ofText text) sub value).Makes text (old.modifyAt (fun _ => value) path) := by
  obtain ⟨tree, hwrites, rfl, hat⟩ := exists_writes_of_isClean hclean hold
  have hfits : (replaceValue (.ofText text) sub value).Fits text.toList := fits_replaceValue hsub value
  obtain ⟨edited, happly⟩ := hfits.apply
  rw [hat] at hsub
  refine ⟨edited, happly, fun hreach => ?_⟩
  have hpart := Json.at?_modifyAt (Tree.at?_toJson_of_some hsub) (fun _ => value)
  have hdepth := Nat.le_trans (Json.length_add_reach_le hpart) hreach
  obtain ⟨tree', hwrites', hvalue⟩ := hwrites.replaced hsub (hsorted.prints hexact hdepth) happly
  exact hvalue ▸ clean_of_writesDocument hwrites'

theorem makes_insertMember (hclean : (ofText text).isClean = true) (hold : (ofText text).value? = some old)
    (hsub : (ofText text).at? path = some sub) (hobject : sub.isObject = true)
    (hfresh : sub.toJson.get? name = none) (hsorted : value.Sorted) (hexact : value.Exact)
    (hedit : insertMember (.ofText text) sub name value = .ok edit) :
    edit.Makes text (old.modifyAt (·.insert name value) path) := by
  obtain ⟨tree, hwrites, rfl, hat⟩ := exists_writes_of_isClean hclean hold
  obtain ⟨edited, happly⟩ := (fits_insertMember hsub hedit).apply
  rw [hat] at hsub
  refine ⟨edited, happly, fun hreach => ?_⟩
  have hpart : (tree.toJson.modifyAt (·.insert name value) path).at? (path ++ [.name name]) = some value := by
    rw [Json.at?_append, Json.at?_modifyAt (Tree.at?_toJson_of_some hsub), Option.bind_some,
      Json.at?_insert ((Tree.isObject_toJson sub).trans hobject)]
  have hdepth := Nat.le_trans (Json.length_add_reach_le hpart) hreach
  rw [List.length_append] at hdepth
  obtain ⟨tree', hwrites', hvalue⟩ :=
    hwrites.inserted hsub hobject hfresh (hsorted.prints hexact hdepth) rfl hedit happly
  exact hvalue ▸ clean_of_writesDocument hwrites'

/-! ## Point updates -/

/-- **Replacing a part.** The edit that replaces the part at a path of a clean document applies, and the text is
then a clean document of the value with that part replaced. The way to the part leads through what becomes of
the containers around it, and every path beside leads to the same as before. -/
theorem replaceValue_of_isClean (hclean : (ofText text).isClean = true)
    (hold : (ofText text).value? = some old) (hsub : (ofText text).at? path = some sub)
    (hsorted : value.Sorted) (hexact : value.Exact)
    (hreach : (old.modifyAt (fun _ => value) path).reach ≤ maxDepth) :
    ∃ edited, (replaceValue (.ofText text) sub value).apply text = .ok edited ∧
      (ofText edited).isClean = true ∧
      (ofText edited).value? = some (old.modifyAt (fun _ => value) path) ∧
      (∀ q rest, q ++ rest = path → ((ofText edited).at? q).map Tree.toJson =
        ((ofText text).at? q).map fun part => part.toJson.modifyAt (fun _ => value) rest) ∧
      ∀ q, ¬ path <+: q → ¬ q <+: path →
        ((ofText edited).at? q).map Tree.toJson = ((ofText text).at? q).map Tree.toJson := by
  obtain ⟨edited, happly, hmakes⟩ := makes_replaceValue hclean hold hsub hsorted hexact
  obtain ⟨hclean', hvalue'⟩ := hmakes hreach
  refine ⟨edited, happly, hclean', hvalue', ?_, fun q hbelow habove => ?_⟩
  · rintro q rest rfl
    rw [map_toJson_at? hclean' hvalue', Json.at?_modifyAt_above, ← map_toJson_at? hclean hold, Option.map_map]
    rfl
  · rw [map_toJson_at? hclean' hvalue', Json.at?_modifyAt_beside hbelow habove, map_toJson_at? hclean hold]

/-- The place has a comment before it and a comma after it, and the name on the way to it comes twice. -/
theorem replaceValue_of_isClean_of_comments :
    let text := "// one\n\x7b\"a\": [1, /* two */ 2,], \"a\": null,\x7d"
    let value := Json.object [("c", .array [])]
    ∃ old sub edited, ((ofText text).isClean = true ∧ (ofText text).value? = some old ∧
        (ofText text).at? [.name "a", .index 1] = some sub) ∧
      (value.Sorted ∧ value.Exact ∧
        (old.modifyAt (fun _ => value) [.name "a", .index 1]).reach ≤ maxDepth) ∧
      (replaceValue (.ofText text) sub value).apply text = .ok edited ∧ (ofText edited).isClean = true ∧
      (ofText edited).value? = some (old.modifyAt (fun _ => value) [.name "a", .index 1]) := by
  intro text value
  have hclean : (ofText text).isClean = true := by decide +kernel
  have hfound : ((ofText text).at? [.name "a", .index 1]).isSome = true := by decide +kernel
  have hdeep : (ofText text).value?.map (fun old => (old.modifyAt (fun _ => value)
      [.name "a", .index 1]).reach) = some 3 := by decide +kernel
  obtain ⟨sub, hsub⟩ := Option.isSome_iff_exists.mp hfound
  obtain ⟨old, hold, hreach⟩ := Option.map_eq_some_iff.mp hdeep
  have hsorted : value.Sorted := by simp [value]; decide
  have hexact : value.Exact := by simp [value]
  obtain ⟨edited, happly, hclean', hvalue, -⟩ :=
    replaceValue_of_isClean hclean hold hsub hsorted hexact (by rw [hreach]; decide)
  exact ⟨old, sub, edited, ⟨hclean, hold, hsub⟩, ⟨hsorted, hexact, by rw [hreach]; decide⟩, happly, hclean', hvalue⟩

/-- **Adding a member.** To every object of a clean document a member can be added whose name no member of it
has: the edit applies, and the text is then a clean document of the value with the name bound in that object.
Every path that leads neither through the new member nor to something around it leads to the same as before. -/
theorem insertMember_of_isClean (hclean : (ofText text).isClean = true)
    (hold : (ofText text).value? = some old) (hsub : (ofText text).at? path = some sub)
    (hobject : sub.isObject = true) (hname : ∀ m ∈ sub.members, m.name ≠ name)
    (hsorted : value.Sorted) (hexact : value.Exact)
    (hreach : (old.modifyAt (·.insert name value) path).reach ≤ maxDepth) :
    ∃ edit edited, insertMember (.ofText text) sub name value = .ok edit ∧ edit.apply text = .ok edited ∧
      (ofText edited).isClean = true ∧
      (ofText edited).value? = some (old.modifyAt (·.insert name value) path) ∧
      ((ofText edited).at? (path ++ [.name name])).map Tree.toJson = some value ∧
      ∀ q, ¬ path ++ [.name name] <+: q → ¬ q <+: path →
        ((ofText edited).at? q).map Tree.toJson = ((ofText text).at? q).map Tree.toJson := by
  obtain ⟨edit, hedit⟩ := exists_insertMember (.ofText text) name value hobject
  have hfresh := Tree.get?_toJson_of_forall_ne hname
  obtain ⟨edited, happly, hmakes⟩ := makes_insertMember hclean hold hsub hobject hfresh hsorted hexact hedit
  obtain ⟨hclean', hvalue'⟩ := hmakes hreach
  have hpart : old.at? path = some sub.toJson := by
    rw [← map_toJson_at? hclean hold, hsub, Option.map_some]
  refine ⟨edit, edited, hedit, happly, hclean', hvalue', ?_, fun q hbelow habove => ?_⟩
  · rw [map_toJson_at? hclean' hvalue', Json.at?_append, Json.at?_modifyAt hpart, Option.bind_some,
      Json.at?_insert ((Tree.isObject_toJson sub).trans hobject)]
  · rw [map_toJson_at? hclean' hvalue', Json.at?_modifyAt_insert hbelow habove, map_toJson_at? hclean hold]

/-- The last member stands on a line of its own, with a comma and a comment after it. -/
theorem insertMember_of_isClean_of_lines :
    let text := "\x7b\r\n\t\"a\": [],\r\n\t\"b\": 1, // one\r\n\x7d"
    let value := Json.object [("c", .array [.null])]
    ∃ old sub edit edited, ((ofText text).isClean = true ∧ (ofText text).value? = some old ∧
        (ofText text).at? [] = some sub ∧ sub.isObject = true ∧ ∀ m ∈ sub.members, m.name ≠ "d") ∧
      (value.Sorted ∧ value.Exact ∧ (old.modifyAt (·.insert "d" value) []).reach ≤ maxDepth) ∧
      insertMember (.ofText text) sub "d" value = .ok edit ∧ edit.apply text = .ok edited ∧
      (ofText edited).isClean = true ∧
      (ofText edited).value? = some (old.modifyAt (·.insert "d" value) []) := by
  intro text value
  have hclean : (ofText text).isClean = true := by decide +kernel
  have hfound : ((ofText text).at? []).map (fun sub => (sub.isObject, sub.members.map (·.name))) =
      some (true, ["a", "b"]) := by decide +kernel
  have hdeep : (ofText text).value?.map (fun old => (old.modifyAt (·.insert "d" value) []).reach) = some 3 := by
    decide +kernel
  obtain ⟨sub, hsub, hmembers⟩ := Option.map_eq_some_iff.mp hfound
  obtain ⟨hobject, hnames⟩ := Prod.mk.inj hmembers
  obtain ⟨old, hold, hreach⟩ := Option.map_eq_some_iff.mp hdeep
  have hname : ∀ m ∈ sub.members, m.name ≠ "d" := by
    intro m hm heq
    have hmem : "d" ∈ ["a", "b"] := hnames ▸ heq ▸ List.mem_map_of_mem hm
    exact absurd hmem (by decide)
  have hsorted : value.Sorted := by simp [value]; decide
  have hexact : value.Exact := by simp [value, Scalar.Exact]
  obtain ⟨edit, edited, hedit, happly, hclean', hvalue, -⟩ :=
    insertMember_of_isClean hclean hold hsub hobject hname hsorted hexact (by rw [hreach]; decide)
  exact ⟨old, sub, edit, edited, ⟨hclean, hold, hsub, hobject, hname⟩,
    ⟨hsorted, hexact, by rw [hreach]; decide⟩, hedit, happly, hclean', hvalue⟩

end Edit

end PolicyAudit
