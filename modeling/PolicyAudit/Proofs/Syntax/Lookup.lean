-- SUMMARY: Looking into the tree of a document and looking into its value.
import PolicyAudit.Proofs.Syntax.Acceptance

/-! ## One step

The tree goes by the first member of a name, and the value by the first one that has a value. -/

namespace PolicyAudit

namespace Tree

variable {tree sub : Tree} {name : String} {key : Key} {path : Path}

/-- The first member of a name has no value, but a later one has. -/
def ShadowsName (tree : Tree) (name : String) : Prop :=
  (∃ member, tree.member? name = some member ∧ member.value? = none) ∧
    ∃ member ∈ tree.members, member.name = name ∧ member.value?.isSome = true

/-- A path takes a name of which the first member has no value, but a later one has. -/
def Shadows (tree : Tree) : Path → Prop
  | [] => False
  | key :: path =>
    (∃ name, key = .name name ∧ tree.ShadowsName name) ∨
      ∃ sub, tree.child? key = some sub ∧ sub.Shadows path

/-- A tree is of the kind of a value: an object, an array of as many elements, or the same scalar. -/
def Matches : Tree → Json → Prop
  | .object .., .object _ => True
  | .array _ items, .array values => items.length = values.length
  | .scalar _ value, .scalar value' => value = value'
  | _, _ => False

theorem matches_toJson (tree : Tree) : tree.Matches tree.toJson := by
  cases tree with
  | object span members => simp only [toJson, Matches]
  | array span items => simp only [toJson_array, Matches, List.length_map]
  | scalar span value => simp only [toJson, Matches]

theorem find?_entries (name : String) (members : List (Member Tree)) :
    Keyed.find? name (entries members) =
      members.findSome? fun m => if m.name = name then m.value?.map toJson else none := by
  induction members with
  | nil => rfl
  | cons member members ih =>
    obtain ⟨span, k, nameSpan, value?⟩ := member
    cases value? with
    | none =>
      have hskip : entries (⟨span, k, nameSpan, none⟩ :: members) = entries members := rfl
      rw [hskip, ih]
      simp
    | some tree =>
      have htake : entries (⟨span, k, nameSpan, some tree⟩ :: members) =
        (k, tree.toJson) :: entries members := rfl
      rw [htake, Keyed.find?_cons, ih]
      by_cases hname : k = name <;> simp [hname]

/-- The value of the first member of a name, if it has one, is the value under that name. -/
theorem find?_entries_of_first {members : List (Member Tree)} {member : Member Tree}
    (hfirst : members.find? (·.name = name) = some member) (hvalue : member.value? = some sub) :
    Keyed.find? name (entries members) = some sub.toJson := by
  rw [find?_entries]
  induction members with
  | nil => cases hfirst
  | cons m members ih =>
    by_cases hname : m.name = name
    · rw [List.find?_cons_of_pos (by simp [hname])] at hfirst
      obtain rfl := Option.some.inj hfirst
      simp [hname, hvalue]
    · rw [List.find?_cons_of_neg (by simp [hname])] at hfirst
      simp [hname, ih hfirst]

theorem child?_object_toJson (span : Span) (members : List (Member Tree)) (name : String) :
    (Tree.object span members).toJson.child? (.name name) = Keyed.find? name (entries members) := by
  rw [toJson_object, ← Json.get?_ofMembers name (entries members)]
  rfl

theorem child?_array_toJson (span : Span) (items : List Tree) (index : Nat) :
    (Tree.array span items).toJson.child? (.index index) = items[index]?.map toJson := by
  rw [toJson_array, ← List.getElem?_map]
  rfl

theorem child?_toJson_of_some (h : tree.child? key = some sub) :
    tree.toJson.child? key = some sub.toJson := by
  rcases child?_cases h with ⟨span, members, name, member, rfl, rfl, hmember, hvalue⟩ |
    ⟨span, items, index, rfl, rfl, hitem⟩
  · rw [child?_object_toJson]
    exact find?_entries_of_first hmember hvalue
  · rw [child?_array_toJson, hitem, Option.map_some]

/-- Where only the value has a part, the name that leads to it is shadowed. -/
theorem shadowsName_of_child? {value : Json} (h : tree.toJson.child? key = some value)
    (hnone : tree.child? key = none) : ∃ name, key = .name name ∧ tree.ShadowsName name := by
  cases tree with
  | object span members =>
    cases key with
    | name name =>
      rw [child?_object_toJson, find?_entries] at h
      obtain ⟨member, hmember, hvalue⟩ := List.exists_of_findSome?_eq_some h
      split at hvalue
      · next hname =>
        have hsome : member.value?.isSome = true := by
          cases hm : member.value? with
          | none => simp [hm] at hvalue
          | some tree => rfl
        refine ⟨name, rfl, ?_, member, hmember, hname, hsome⟩
        cases hfirst : (Tree.object span members).member? name with
        | none =>
          have hnot := List.find?_eq_none.mp hfirst member hmember
          simp [hname] at hnot
        | some first =>
          refine ⟨first, rfl, ?_⟩
          simpa only [child?, hfirst, Option.bind_some] using hnone
      · cases hvalue
    | index index => cases h
  | array span items =>
    cases key with
    | name name => cases h
    | index index =>
      have hitem : items[index]? = none := hnone
      rw [child?_array_toJson, hitem] at h
      cases h
  | scalar span value => cases key <;> cases h

theorem child?_of_shadowsName (h : tree.ShadowsName name) : tree.child? (.name name) = none := by
  obtain ⟨⟨member, hmember, hvalue⟩, -⟩ := h
  cases tree with
  | object span members => simp only [child?, hmember, Option.bind_some, hvalue]
  | array span items => rfl
  | scalar span value => rfl

/-! ## Paths -/

theorem at?_toJson_of_some (h : tree.at? path = some sub) :
    tree.toJson.at? path = some sub.toJson := by
  induction path generalizing tree with
  | nil =>
    obtain rfl := Option.some.inj ((at?_nil tree).symm.trans h)
    exact Json.at?_nil _
  | cons key path ih =>
    rw [at?_cons] at h
    obtain ⟨next, hnext, hsub⟩ := Option.bind_eq_some_iff.mp h
    rw [Json.at?_cons, child?_toJson_of_some hnext]
    exact ih hsub

theorem at?_of_shadows (h : tree.Shadows path) : tree.at? path = none := by
  induction path generalizing tree with
  | nil => cases h
  | cons key path ih =>
    rw [at?_cons]
    rcases h with ⟨name, rfl, hname⟩ | ⟨next, hnext, hshadows⟩
    · rw [child?_of_shadowsName hname, Option.bind_none]
    · rw [hnext]
      exact ih hshadows

/-- A path that leads somewhere in the value leads there in the tree or takes a shadowed name. -/
theorem at?_toJson_cases {value : Json} (h : tree.toJson.at? path = some value) :
    (∃ sub, tree.at? path = some sub ∧ sub.toJson = value) ∨ tree.Shadows path := by
  induction path generalizing tree with
  | nil => exact .inl ⟨tree, at?_nil tree, Option.some.inj ((Json.at?_nil _).symm.trans h)⟩
  | cons key path ih =>
    rw [Json.at?_cons] at h
    obtain ⟨child, hchild, hrest⟩ := Option.bind_eq_some_iff.mp h
    cases hnext : tree.child? key with
    | none => exact .inr (.inl (shadowsName_of_child? hchild hnext))
    | some next =>
      rw [child?_toJson_of_some hnext] at hchild
      rw [← Option.some.inj hchild] at hrest
      rcases ih hrest with ⟨sub, hsub, hvalue⟩ | hshadows
      · exact .inl ⟨sub, by rw [at?_cons, hnext]; exact hsub, hvalue⟩
      · exact .inr (.inr ⟨next, hnext, hshadows⟩)

/-! ## Whole trees

A tree is whole when every member in it has a value. A name in such a tree is never shadowed. What is
read without a fault is whole: where a member has no value, there is a fault or the text has ended, and
then its object is not closed. -/

/-- Every member has a value. -/
inductive Whole : Tree → Prop where
  | object {span members} : (∀ m ∈ members, m.value? ≠ none) →
      (∀ m ∈ members, ∀ tree, m.value? = some tree → Whole tree) → Whole (.object span members)
  | array {span items} : (∀ item ∈ items, Whole item) → Whole (.array span items)
  | scalar {span value} : Whole (.scalar span value)

theorem Whole.child? (h : tree.Whole) (hsub : tree.child? key = some sub) : sub.Whole := by
  rcases child?_cases hsub with ⟨span, members, name, member, rfl, rfl, hmember, hvalue⟩ |
    ⟨span, items, index, rfl, rfl, hitem⟩
  · cases h with
    | object hvalues hwhole => exact hwhole member (List.mem_of_find?_eq_some hmember) sub hvalue
  · cases h with
    | array hitems => exact hitems sub (List.mem_of_getElem? hitem)

theorem Whole.not_shadowsName (h : tree.Whole) (name : String) : ¬ tree.ShadowsName name := by
  rintro ⟨⟨member, hmember, hvalue⟩, -⟩
  cases h with
  | object hvalues hwhole => exact hvalues member (List.mem_of_find?_eq_some hmember) hvalue
  | array hitems => cases hmember
  | scalar => cases hmember

theorem Whole.not_shadows (h : tree.Whole) (path : Path) : ¬ tree.Shadows path := by
  induction path generalizing tree with
  | nil => exact id
  | cons key path ih =>
    rintro (⟨name, rfl, hname⟩ | ⟨next, hnext, hshadows⟩)
    · exact h.not_shadowsName name hname
    · exact ih (h.child? hnext) hshadows

end Tree

namespace Cursor

variable {value : ValueReader} {opened depth : Nat} {c : Cursor}

/-- Whether whatever a reader takes without a fault is whole. -/
def WholeAt (value : ValueReader) : Prop :=
  ∀ {c : Cursor} {tree : Tree}, (value c).errors = [] → (value c).result = some tree → tree.Whole

theorem whole_of_readItems (hvalue : WholeAt value) (h : (readItems value opened c).errors = []) :
    ∀ item ∈ (readItems value opened c).result, item.Whole := by
  intro item hitem
  obtain ⟨d, -, hresult, hnone⟩ := exists_of_mem_readItems hitem
  exact hvalue (hnone h) hresult

/-- Without a value of some member the text would have ended before the closing brace. -/
theorem value_of_readMembers (hsound : SoundAt depth value)
    (h : (readMembers value opened c).errors = []) :
    ∀ m ∈ (readMembers value opened c).result, m.value? ≠ none := by
  induction hn : c.rest.length using Nat.strongRecOn generalizing c with
  | _ n ih =>
    cases hs : c.readTrivia.next.rest with
    | nil => exact absurd h (readMembers_end hs)
    | cons ch s =>
      by_cases hclose : ch = '}'
      · subst hclose
        rw [(readMembers_close value opened hs).1]
        exact fun _ hmember => absurd hmember List.not_mem_nil
      · by_cases hquote : ch = '"'
        · subst hquote
          obtain ⟨hresult, herrors, -⟩ := readMembers_quote value opened hs
          rw [herrors, List.append_eq_nil_iff, List.append_eq_nil_iff] at h
          obtain ⟨⟨-, hmember⟩, hrest⟩ := h
          have hlt : (readMember value c.readTrivia.next).next.rest.length < n := by
            rw [← hn]
            exact Nat.lt_of_lt_of_le (readMember_length_lt (by simp [hs]))
              c.readTrivia.reaches.length_le
          intro m hmem
          rw [hresult, List.mem_cons] at hmem
          rcases hmem with rfl | hmem
          · intro hnone
            rcases writes_of_readMember hsound hs hmember with
              hended | ⟨_, _, _, _, _, _, hread, -⟩
            · exact readMembers_end (Reaches.rest_eq_nil (Reading.reaches _) hended) hrest
            · rw [hread] at hnone
              cases hnone
          · exact ih _ hlt hrest rfl m hmem
        · exact absurd h (readMembers_other hs hclose hquote)

theorem wholeAt_readValue (room depth : Nat) (h : room + depth = Document.maxDepth + 1) :
    WholeAt (readValue room) := by
  induction room generalizing depth with
  | zero => exact fun herrors => by simp [readValue] at herrors
  | succ room ih =>
    have hsound := soundAt_readValue room (depth + 1) (by omega)
    have hinner : WholeAt (readValue room) := ih (depth + 1) (by omega)
    intro c tree herrors hresult
    rcases readValue_cases hresult with
      ⟨span, rfl, hread⟩ | ⟨span, rfl, hread⟩ | ⟨span, value, rfl⟩
    · refine .object (value_of_readMembers hsound (hread.symm.trans herrors)) ?_
      intro m hm part hpart
      obtain ⟨d, -, hvalue, hnone⟩ := exists_of_mem_readMembers hm hpart
      exact hinner (hnone (hread.symm.trans herrors)) hvalue
    · exact .array (whole_of_readItems hinner (hread.symm.trans herrors))
    · exact .scalar

end Cursor

/-! ## Documents -/

namespace Document

variable {text : String} {path : Path}

/-- The part of the value at a path. -/
def valueAt? (doc : Document) (path : Path) : Option Json := doc.value?.bind (·.at? path)

/-- A path takes a name of which the first member in the tree has no value, but a later one has. -/
def Shadows (doc : Document) (path : Path) : Prop :=
  ∃ tree, doc.tree? = some tree ∧ tree.Shadows path

theorem whole_of_isClean {tree : Tree} (h : (ofText text).isClean = true)
    (htree : (ofText text).tree? = some tree) : tree.Whole := by
  obtain ⟨herrors, -⟩ := isClean_iff.mp h
  obtain ⟨c, -, hresult, hnone⟩ := readValue_of_tree? htree
  exact Cursor.wholeAt_readValue (maxDepth + 1) 0 rfl (hnone herrors) hresult

theorem not_shadows_of_isClean (h : (ofText text).isClean = true) (path : Path) :
    ¬ (ofText text).Shadows path := by
  rintro ⟨tree, htree, hshadows⟩
  exact (whole_of_isClean h htree).not_shadows path hshadows

theorem valueAt?_of_at? {doc : Document} {sub : Tree} (h : doc.at? path = some sub) :
    doc.valueAt? path = some sub.toJson := by
  obtain ⟨tree, htree, hsub⟩ := Option.bind_eq_some_iff.mp h
  simp only [valueAt?, value?, htree, Option.map_some, Option.bind_some]
  exact Tree.at?_toJson_of_some hsub

theorem at?_of_shadows {doc : Document} (h : doc.Shadows path) : doc.at? path = none := by
  obtain ⟨tree, htree, hshadows⟩ := h
  simp only [Document.at?, htree, Option.bind_some]
  exact Tree.at?_of_shadows hshadows

theorem shadows_of_valueAt? {doc : Document} {value : Json} (h : doc.valueAt? path = some value)
    (hnone : doc.at? path = none) : doc.Shadows path := by
  cases htree : doc.tree? with
  | none => simp [valueAt?, value?, htree] at h
  | some tree =>
    simp only [valueAt?, value?, Document.at?, htree, Option.map_some, Option.bind_some] at h hnone
    rcases Tree.at?_toJson_cases h with ⟨sub, hsub, -⟩ | hshadows
    · cases hsub.symm.trans hnone
    · exact ⟨tree, htree, hshadows⟩

/-- **Looking up a path.** The tree and the value of a document agree on a path unless it takes a name of
which the first member has no value, while the value has something there. That does not happen in a
document that was read without a fault. -/
theorem at?_agrees_iff (text : String) (path : Path) :
    let doc := ofText text
    (∀ sub, doc.at? path = some sub →
      doc.valueAt? path = some sub.toJson ∧ sub.Matches sub.toJson) ∧
    (((doc.at? path).isSome = true ↔ (doc.valueAt? path).isSome = true) ↔
      ¬ (doc.Shadows path ∧ (doc.valueAt? path).isSome = true)) ∧
    (doc.isClean = true → ¬ doc.Shadows path) := by
  intro doc
  refine ⟨fun sub hsub => ⟨valueAt?_of_at? hsub, sub.matches_toJson⟩, ?_, fun hclean =>
    not_shadows_of_isClean hclean path⟩
  constructor
  · rintro hagree ⟨hshadows, hvalue⟩
    have hfound := hagree.mpr hvalue
    rw [at?_of_shadows hshadows] at hfound
    cases hfound
  · intro hnot
    constructor
    · intro hfound
      obtain ⟨sub, hsub⟩ := Option.isSome_iff_exists.mp hfound
      rw [valueAt?_of_at? hsub]
      rfl
    · intro hvalue
      cases hfound : doc.at? path with
      | some sub => rfl
      | none =>
        obtain ⟨value, hv⟩ := Option.isSome_iff_exists.mp hvalue
        exact absurd ⟨shadows_of_valueAt? hv hfound, hvalue⟩ hnot

/-- The first member has no value, the second one has. -/
example :
    let doc := ofText "\x7b\"a\": , \"a\": 1\x7d"
    (doc.at? [.name "a"]).isSome = false ∧ (doc.valueAt? [.name "a"]).isSome = true := by
  decide +kernel

end Document

end PolicyAudit
