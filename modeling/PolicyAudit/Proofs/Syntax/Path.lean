-- SUMMARY: Different paths lead to different nodes, and different nodes have different ranges.
import PolicyAudit.Proofs.Syntax.Placement
import PolicyAudit.Proofs.Text.Position

/-! ## Paths and places

A path goes by names and positions, a place by which child to take. A name takes the first member of that
name, and in it the value. -/

namespace PolicyAudit

theorem SyntaxNode.at?_append (node : SyntaxNode) (p q : List Nat) :
    node.at? (p ++ q) = (node.at? p).bind (·.at? q) := by
  induction p generalizing node with
  | nil => simp
  | cons n p ih =>
    rw [List.cons_append, at?_cons, at?_cons]
    cases node.children[n]? with
    | none => rfl
    | some child => exact ih child

namespace Tree

variable {tree sub a b : Tree} {key : Key} {p q : Path} {text : List Char}

/-- Where a key leads, as a place. -/
def stepOf : Tree → Key → List Nat
  | .object _ members, .name name => [members.findIdx (·.name = name), 0]
  | .array .., .index index => [index]
  | _, _ => []

/-- Where a path leads, as a place. -/
def placeOf (tree : Tree) : Path → List Nat
  | [] => []
  | key :: path => tree.stepOf key ++ ((tree.child? key).map (·.placeOf path)).getD []

theorem placeOf_cons (h : tree.child? key = some sub) (path : Path) :
    tree.placeOf (key :: path) = tree.stepOf key ++ sub.placeOf path := by
  rw [placeOf, h, Option.map_some, Option.getD_some]

theorem at?_stepOf (h : tree.child? key = some sub) :
    (SyntaxNode.value tree).at? (tree.stepOf key) = some (.value sub) := by
  rcases child?_cases h with ⟨span, members, name, member, rfl, rfl, hmember, hvalue⟩ |
    ⟨span, items, index, rfl, rfl, hitem⟩
  · have hfirst : members[members.findIdx (·.name = name)]? = some member :=
      (List.find?_eq_getElem?_findIdx ..).symm.trans hmember
    simp [stepOf, SyntaxNode.at?_cons, SyntaxNode.children, hfirst, hvalue]
  · simp [stepOf, SyntaxNode.at?_cons, SyntaxNode.children, hitem]

theorem at?_placeOf (h : tree.at? p = some sub) :
    (SyntaxNode.value tree).at? (tree.placeOf p) = some (.value sub) := by
  induction p generalizing tree with
  | nil =>
    rw [at?_nil] at h
    obtain rfl := Option.some.inj h
    exact SyntaxNode.at?_nil _
  | cons key path ih =>
    rw [at?_cons] at h
    obtain ⟨next, hnext, hsub⟩ := Option.bind_eq_some_iff.mp h
    rw [placeOf_cons hnext, SyntaxNode.at?_append, at?_stepOf hnext]
    exact ih hsub

theorem stepOf_ne_nil (h : tree.child? key = some sub) : tree.stepOf key ≠ [] := by
  rcases child?_cases h with ⟨span, members, name, member, rfl, rfl, -⟩ | ⟨span, items, index, rfl, rfl, -⟩
  · simp [stepOf]
  · simp [stepOf]

/-- Keys that lead the same way are the same key. -/
theorem stepOf_inj {key' : Key} {place place' : List Nat} (h : tree.child? key = some a)
    (h' : tree.child? key' = some b) (hplace : tree.stepOf key ++ place = tree.stepOf key' ++ place') :
    key = key' ∧ place = place' := by
  rcases child?_cases h with ⟨span, members, name, member, rfl, rfl, hmember, -⟩ |
    ⟨span, items, index, rfl, rfl, -⟩
  · cases key' with
    | index index => cases h'
    | name name' =>
      obtain ⟨member', hmember', -⟩ := Option.bind_eq_some_iff.mp h'
      have hname : member.name = name := by simpa using List.find?_some hmember
      have hname' : member'.name = name' := by simpa using List.find?_some hmember'
      simp only [member?, Tree.members, List.find?_eq_getElem?_findIdx] at hmember hmember'
      obtain ⟨hindex, hrest⟩ := List.cons.inj hplace
      rw [hindex, hmember'] at hmember
      obtain rfl := Option.some.inj hmember
      exact ⟨by rw [← hname, ← hname'], (List.cons.inj hrest).2⟩
  · cases key' with
    | name name => cases h'
    | index index' =>
      obtain ⟨rfl, hrest⟩ := List.cons.inj hplace
      exact ⟨rfl, hrest⟩

/-- A path is known by where it leads. -/
theorem placeOf_inj (ha : tree.at? p = some a) (hb : tree.at? q = some b)
    (h : tree.placeOf p = tree.placeOf q) : p = q := by
  induction p generalizing tree q with
  | nil =>
    cases q with
    | nil => rfl
    | cons key q =>
      rw [at?_cons] at hb
      obtain ⟨next, hnext, -⟩ := Option.bind_eq_some_iff.mp hb
      rw [placeOf_cons hnext] at h
      have hstep := (List.append_eq_nil_iff.mp h.symm).1
      exact absurd hstep (stepOf_ne_nil hnext)
  | cons key p ih =>
    rw [at?_cons] at ha
    obtain ⟨next, hnext, hbelow⟩ := Option.bind_eq_some_iff.mp ha
    cases q with
    | nil =>
      rw [placeOf_cons hnext] at h
      have hstep := (List.append_eq_nil_iff.mp h).1
      exact absurd hstep (stepOf_ne_nil hnext)
    | cons key' q =>
      rw [at?_cons] at hb
      obtain ⟨next', hnext', hbelow'⟩ := Option.bind_eq_some_iff.mp hb
      rw [placeOf_cons hnext, placeOf_cons hnext'] at h
      obtain ⟨rfl, hplace⟩ := stepOf_inj hnext hnext' h
      obtain rfl := Option.some.inj (hnext.symm.trans hnext')
      rw [ih hbelow hbelow' hplace]

end Tree

/-! ## Ranges

In a text that was read, a path is known by the lines and columns of what it leads to. -/

theorem Span.eq_of_bounds {a b : Span} (hstart : a.offset = b.offset)
    (hstop : a.offset + a.length = b.offset + b.length) : a = b := by
  cases a
  cases b
  simp_all

namespace Document

variable {text : String} {a b : Tree} {p q : Path}

theorem rangeOf_inj {a b : Tree} (ha : (SyntaxNode.value a).Placed text.toList)
    (hb : (SyntaxNode.value b).Placed text.toList)
    (h : (ofText text).rangeOf a.span = (ofText text).rangeOf b.span) : a.span = b.span := by
  obtain ⟨hstart, hstop⟩ := Range.ofOffsets_inj (Nat.le_add_right ..) (Nat.le_add_right ..)
    ha.starts ha.stops hb.starts hb.stops h
  exact Span.eq_of_bounds hstart hstop

theorem path_eq_of_rangeOf (ha : (ofText text).at? p = some a) (hb : (ofText text).at? q = some b)
    (h : (ofText text).rangeOf a.span = (ofText text).rangeOf b.span) : p = q := by
  obtain ⟨tree, htree, ha⟩ := Option.bind_eq_some_iff.mp ha
  obtain ⟨tree', htree', hb⟩ := Option.bind_eq_some_iff.mp hb
  obtain rfl := Option.some.inj (htree.symm.trans htree')
  have hplaced := all_placed_of_ofText htree
  have hspan := rangeOf_inj (hplaced.at? ha).self (hplaced.at? hb).self h
  exact Tree.placeOf_inj ha hb (hplaced.place_eq (Tree.at?_placeOf ha) (Tree.at?_placeOf hb) hspan)

end Document

end PolicyAudit
