-- SUMMARY: Changes of values, and fixes that make the same change in every text of a value.
import PolicyAudit.Proofs.Lint.Resolution
import PolicyAudit.Proofs.Lint.Updating

/-! ## Texts of a value -/

namespace PolicyAudit

open Document

variable {text : String} {path : Path} {value part : Json}

/-- A text is read without a fault, as a value. -/
structure Renders (text : String) (value : Json) : Prop where
  isClean : (ofText text).isClean = true
  value? : (ofText text).value? = some value

namespace Renders

theorem exists_at? (h : Renders text value) (hpart : value.at? path = some part) :
    ∃ tree, (ofText text).at? path = some tree ∧ tree.toJson = part := by
  rw [← map_toJson_at? h.isClean h.value?] at hpart
  exact Option.map_eq_some_iff.mp hpart

theorem at?_eq_none (h : Renders text value) (hpart : value.at? path = none) : (ofText text).at? path = none := by
  rw [← map_toJson_at? h.isClean h.value?] at hpart
  exact Option.map_eq_none_iff.mp hpart

theorem sorted (h : Renders text value) : value.Sorted := by
  obtain ⟨tree, -, rfl⟩ := Option.map_eq_some_iff.mp h.value?
  exact tree.sorted_toJson

theorem exists_of_isClean (hclean : (ofText text).isClean = true) : ∃ value, Renders text value := by
  obtain ⟨-, tree, htree⟩ := isClean_iff.mp hclean
  exact ⟨tree.toJson, hclean, by rw [Document.value?, htree, Option.map_some]⟩

theorem exists_of_context {ctx : Context} (hclean : (ofText text).isClean = true)
    (hctx : Context.ofDocument? (ofText text) = some ctx) :
    ∃ value, ctx = ⟨ofText text, value⟩ ∧ Renders text value := by
  obtain ⟨value, hvalue, rfl⟩ := Option.map_eq_some_iff.mp hctx
  exact ⟨value, rfl, hclean, hvalue⟩

theorem context_eq (h : Renders text value) :
    Context.ofDocument? (ofText text) = some ⟨ofText text, value⟩ := by
  rw [Context.ofDocument?, h.value?, Option.map_some]

/-- No part stands deeper than a value may. -/
theorem length_path_le (h : Renders text value) (hpart : value.at? path = some part) : path.length ≤ maxDepth := by
  obtain ⟨tree, ⟨g, w, g', -, hw, -, -⟩, rfl, hat⟩ := exists_writes_of_isClean h.isClean h.value?
  obtain ⟨sub, hsub, -⟩ := h.exists_at? hpart
  rw [hat] at hsub
  obtain ⟨pre, mid, post, -, hslot⟩ := hw.slot_at hsub
  have hdepth := hslot.part.depth_le
  omega

theorem ofJson?_path (h : Renders text value) (hpart : value.at? path = some part)
    (hsize : Text.byteLength text.toList < 0x10000000000000000) : Path.ofJson? path.toJson = some path := by
  obtain ⟨sub, hsub, -⟩ := h.exists_at? hpart
  obtain ⟨tree, htree, hat⟩ := Option.bind_eq_some_iff.mp hsub
  exact Document.ofJson?_path htree hat hsize

end Renders

/-! ## Changes

Both kinds of edits change a value in one place. A change says which, apart from any text. -/

/-- A change of a value in one place. -/
inductive Change where
  | replace (path : Path) (new : Json)
  | insert (path : Path) (name : String) (new : Json)

namespace Change

/-- The edit of a document that makes a change. -/
def edit? (doc : Document) : Change → Option Edit
  | replace path new => (doc.at? path).map fun tree => Edit.replaceValue doc tree new
  | insert path name new => (doc.at? path).bind fun tree => (Edit.insertMember doc tree name new).toOption

/-- The value after a change. -/
def result (old : Json) : Change → Json
  | replace path new => old.modifyAt (fun _ => new) path
  | insert path name new => old.modifyAt (·.insert name new) path

/-- There is something to replace at the path of a change, or else an object without the new member. -/
inductive Fits (value : Json) : Change → Prop where
  | replace {part new : Json} (path : Path) : value.at? path = some part → new.Sorted → new.Exact →
      Fits value (.replace path new)
  | insert {part new : Json} (path : Path) (name : String) : value.at? path = some part → part.isObject = true →
      part.get? name = none → new.Sorted → new.Exact → Fits value (.insert path name new)

variable {change : Change}

theorem map_insertMember {doc : Document} {tree : Tree} (htree : doc.at? path = some tree)
    (hobject : tree.isObject = true) (name : String) (new : Json) :
    (Edit.insertMember doc tree name new).map some = .ok (edit? doc (.insert path name new)) := by
  obtain ⟨edit, hedit⟩ := Edit.exists_insertMember doc name new hobject
  rw [edit?, htree, Option.bind_some, hedit]
  rfl

/-- Every text of a value has an edit for a change that fits the value, and the edit makes the change. -/
theorem Fits.exists_edit (h : change.Fits value) (htext : Renders text value) :
    ∃ edit, change.edit? (ofText text) = some edit ∧ edit.Makes text (change.result value) := by
  cases h with
  | replace path hpart hsorted hexact =>
    obtain ⟨tree, htree, rfl⟩ := htext.exists_at? hpart
    refine ⟨_, by rw [edit?, htree, Option.map_some], ?_⟩
    exact Edit.makes_replaceValue htext.isClean htext.value? htree hsorted hexact
  | insert path name hpart hobject hfresh hsorted hexact =>
    obtain ⟨tree, htree, rfl⟩ := htext.exists_at? hpart
    rw [Tree.isObject_toJson] at hobject
    obtain ⟨edit, hedit⟩ := Edit.exists_insertMember (ofText text) name _ hobject
    refine ⟨edit, by rw [edit?, htree, Option.bind_some, hedit]; rfl, ?_⟩
    exact Edit.makes_insertMember htext.isClean htext.value? htree hobject hfresh hsorted hexact hedit

/-- What a change writes is not nested too deep for its place. -/
def HasRoom : Change → Prop
  | replace path new => path.length + new.reach ≤ maxDepth
  | insert path _ new => path.length + 1 + new.reach ≤ maxDepth

/-- A change that fits a value and has room there is made in every text of the value. -/
theorem Fits.exists_made (h : change.Fits value) (hroom : change.HasRoom) (htext : Renders text value) :
    ∃ edit edited, change.edit? (ofText text) = some edit ∧ edit.apply text = .ok edited ∧
      Renders edited (change.result value) := by
  obtain ⟨edit, hedit, edited, happly, -⟩ := h.exists_edit htext
  obtain ⟨tree, hwrites, rfl, hat⟩ := exists_writes_of_isClean htext.isClean htext.value?
  refine ⟨edit, edited, hedit, happly, ?_⟩
  cases h with
  | replace path hpart hsorted hexact =>
    obtain ⟨sub, hsub, rfl⟩ := Option.map_eq_some_iff.mp hedit
    rw [hat] at hsub
    obtain ⟨tree', hwrites', hvalue⟩ := hwrites.replaced hsub (hsorted.prints hexact hroom) happly
    obtain ⟨hclean', hvalue'⟩ := clean_of_writesDocument hwrites'
    exact ⟨hclean', hvalue'.trans (congrArg some hvalue)⟩
  | insert path name hpart hobject hfresh hsorted hexact =>
    obtain ⟨sub, hsub, hinsert⟩ := Option.bind_eq_some_iff.mp hedit
    rw [← map_toJson_at? htext.isClean htext.value?, hsub] at hpart
    obtain rfl := Option.some.inj hpart
    rw [Tree.isObject_toJson] at hobject
    obtain ⟨made, hmade⟩ := Edit.exists_insertMember (ofText text) name _ hobject
    rw [hmade] at hinsert
    obtain rfl := Option.some.inj hinsert
    rw [hat] at hsub
    obtain ⟨tree', hwrites', hvalue⟩ :=
      hwrites.inserted hsub hobject hfresh (hsorted.prints hexact hroom) rfl hmade happly
    obtain ⟨hclean', hvalue'⟩ := clean_of_writesDocument hwrites'
    exact ⟨hclean', hvalue'.trans (congrArg some hvalue)⟩

end Change

/-! ## Uniform fixes -/

/-- A fix has no edit in any text of a value, or in each of them the edit of one change that fits the value. -/
def Uniform (value : Json) (fix : Context → Except AuditError (Option Edit)) : Prop :=
  (∀ text, Renders text value → ∀ edit, fix ⟨ofText text, value⟩ ≠ .ok (some edit)) ∨
    ∃ change : Change, change.Fits value ∧
      ∀ text, Renders text value → fix ⟨ofText text, value⟩ = .ok (change.edit? (ofText text))

namespace Uniform

variable {fix : Context → Except AuditError (Option Edit)}

theorem error (e : AuditError) (h : ∀ text, Renders text value → fix ⟨ofText text, value⟩ = .error e) :
    Uniform value fix := Or.inl fun text htext edit hedit => by cases (h text htext).symm.trans hedit

theorem noEdit (h : ∀ text, Renders text value → fix ⟨ofText text, value⟩ = .ok none) : Uniform value fix :=
  Or.inl fun text htext edit hedit => by cases (h text htext).symm.trans hedit

theorem noEditAt (hpart : value.at? path = some part)
    (h : ∀ text tree, (ofText text).at? path = some tree → tree.toJson = part →
      fix ⟨ofText text, value⟩ = .ok none) : Uniform value fix := by
  refine noEdit fun text htext => ?_
  obtain ⟨tree, htree, hvalue⟩ := htext.exists_at? hpart
  exact h text tree htree hvalue

theorem replace (new : Json) (hpart : value.at? path = some part) (hsorted : new.Sorted) (hexact : new.Exact)
    (h : ∀ text tree, Renders text value → (ofText text).at? path = some tree → tree.toJson = part →
      fix ⟨ofText text, value⟩ = .ok (some (Edit.replaceValue (ofText text) tree new))) : Uniform value fix := by
  refine Or.inr ⟨.replace path new, .replace path hpart hsorted hexact, fun text htext => ?_⟩
  obtain ⟨tree, htree, hvalue⟩ := htext.exists_at? hpart
  rw [h text tree htext htree hvalue, Change.edit?, htree, Option.map_some]

theorem replaceString (text : String) (hpart : value.at? path = some part)
    (h : ∀ source tree, Renders source value → (ofText source).at? path = some tree → tree.toJson = part →
      fix ⟨ofText source, value⟩ = .ok (some (Edit.replaceValue (ofText source) tree (.string text)))) :
    Uniform value fix := replace _ hpart (.scalar _) (Json.exact_string text) h

/-- What is no object takes no new member. -/
theorem insert (name : String) (new : Json) (hpart : value.at? path = some part)
    (hfresh : part.isObject = true → part.get? name = none) (hsorted : new.Sorted) (hexact : new.Exact)
    (h : ∀ text tree, (ofText text).at? path = some tree →
      fix ⟨ofText text, value⟩ = (Edit.insertMember (ofText text) tree name new).map some) :
    Uniform value fix := by
  cases hobject : part.isObject with
  | true =>
    refine Or.inr ⟨.insert path name new, .insert path name hpart hobject (hfresh hobject) hsorted hexact,
      fun text htext => ?_⟩
    obtain ⟨tree, htree, rfl⟩ := htext.exists_at? hpart
    rw [Tree.isObject_toJson] at hobject
    rw [h text tree htree, Change.map_insertMember htree hobject]
  | false =>
    refine Or.inl fun text htext edit hedit => ?_
    obtain ⟨tree, htree, rfl⟩ := htext.exists_at? hpart
    rw [h text tree htree] at hedit
    rw [Tree.isObject_toJson] at hobject
    cases tree with
    | object span members => cases hobject
    | array span items => cases hedit
    | scalar span value => cases hedit

end Uniform

end PolicyAudit
