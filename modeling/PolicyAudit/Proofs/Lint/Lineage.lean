-- SUMMARY: The nodes of a tree of assignments, told by how they hang from the root.
import PolicyAudit.Proofs.Lint.Nodes
import PolicyAudit.Proofs.Lint.Tally

/-! ## Nodes below nodes

A part is a node when it is an object, and either the root or an element of the list of children of a node. -/

namespace PolicyAudit.Assignment

variable {value : Json} {part child : Part} {above : List Part} {node a b : Node} {inherited : Bool}

/-- A part is a node, and the parts above it are the nodes from its parent up to the root. -/
inductive IsNode (value : Json) : Part → List Part → Prop
  | root (hobject : value.isObject = true) : IsNode value (.root value) []
  | child {parent list child : Part} {above : List Part} (h : IsNode value parent above)
    (hlist : parent.field? .children = some list) (hchild : child ∈ list.items)
    (hobject : child.value.isObject = true) : IsNode value child (parent :: above)

/-- A node has nothing below it: its field for children is absent, no list or an empty list. -/
def IsLeaf (part : Part) : Prop := ∀ items, part.value.field? .children = some (.array items) → items = []

/-- Whether one of some parts has a scope. -/
def declared (parts : List Part) : Bool := parts.any (·.value.hasField .scope)

theorem declared_cons (part : Part) (above : List Part) :
    declared (part :: above) = (declared above || part.value.hasField .scope) := by
  rw [declared, List.any_cons, Bool.or_comm, ← declared]

theorem mem_children_iff :
    child ∈ children part ↔ ∃ list, part.field? .children = some list ∧ child ∈ list.items := by
  unfold children
  cases part.field? .children with
  | none => simp
  | some list => simp

theorem leaf_iff : node.leaf = true ↔ IsLeaf node.part := by
  rw [Node.leaf, List.isEmpty_iff, children, IsLeaf]
  cases hlist : node.part.field? .children with
  | none => simp [Part.field?_value_eq_none hlist]
  | some list =>
    have hvalue := Part.field?_value hlist
    obtain ⟨path, found⟩ := list
    cases found with
    | array items => simp [hvalue, Part.items, Part.items?, Json.items?]
    | object members => simp [hvalue, Part.items, Part.items?, Json.items?]
    | scalar scalar => simp [hvalue, Part.items, Part.items?, Json.items?]

/-! ## The traversal finds the nodes -/

/-- Below a part that is a node as soon as it is an object, only nodes are found. -/
theorem exists_isNode_of_mem_nodesFrom (hpart : part.value.isObject = true → IsNode value part above)
    (hinherited : inherited = declared above) (hnode : node ∈ nodesFrom inherited part) :
    ∃ above, IsNode value node.part above ∧ node.covered = declared (node.part :: above) := by
  induction inherited, part using nodesFrom.induct generalizing above with
  | case1 inherited part hobject covered =>
    rename_i ih
    rw [nodesFrom_of_isObject inherited hobject] at hnode
    have hcovered : covered = declared (part :: above) := by rw [declared_cons, ← hinherited]
    rcases List.mem_cons.mp hnode with rfl | hbelow
    · exact ⟨above, hpart hobject, hcovered⟩
    · obtain ⟨child, hchild, hmem⟩ := List.mem_flatMap.mp hbelow
      obtain ⟨list, hlist, hitem⟩ := mem_children_iff.mp hchild
      exact ih child hchild (.child (hpart hobject) hlist hitem) hcovered hmem
  | case2 inherited part hobject => exact absurd (isObject_of_mem_nodesFrom hnode) hobject

/-- With a node its children are found. -/
theorem mem_nodesFrom_child (hnode : node ∈ nodesFrom inherited part) (hchild : child ∈ children node.part)
    (hobject : child.value.isObject = true) :
    ⟨child, node.covered || child.value.hasField .scope⟩ ∈ nodesFrom inherited part := by
  fun_induction nodesFrom inherited part with
  | case1 inherited part hpart covered ih =>
    refine List.mem_cons_of_mem _ (List.mem_flatMap.mpr ?_)
    rcases List.mem_cons.mp hnode with rfl | hbelow
    · refine ⟨⟨child, hchild⟩, List.mem_attach .., ?_⟩
      dsimp only
      rw [nodesFrom_of_isObject _ hobject]
      exact List.mem_cons_self
    · obtain ⟨⟨other, hother⟩, hattach, hmem⟩ := List.mem_flatMap.mp hbelow
      exact ⟨⟨other, hother⟩, hattach, ih other hother hmem⟩
  | case2 => cases hnode

theorem IsNode.mem_nodes (h : IsNode value part above) : ⟨part, declared (part :: above)⟩ ∈ nodes value := by
  induction h with
  | root hobject =>
    have hroot : (Part.root value).value.isObject = true := hobject
    rw [nodes, nodesFrom_of_isObject _ hroot]
    simp [declared]
  | @child parent list child above h hlist hchild hobject ih =>
    have hmem := mem_nodesFrom_child ih (mem_children_iff.mpr ⟨list, hlist, hchild⟩) hobject
    rwa [declared_cons]

/-- A node is found together with whether it or a node above it has a scope. -/
theorem mem_nodes_iff :
    node ∈ nodes value ↔ ∃ above, IsNode value node.part above ∧ node.covered = declared (node.part :: above) := by
  constructor
  · exact exists_isNode_of_mem_nodesFrom .root rfl
  · rintro ⟨above, hnode, hcovered⟩
    have hmem := hnode.mem_nodes
    rwa [← hcovered] at hmem

/-- What is asked of a part alone may be asked of the nodes that are found. -/
theorem exists_mem_nodes_iff {P : Part → Prop} :
    (∃ node ∈ nodes value, P node.part) ↔ ∃ part above, IsNode value part above ∧ P part := by
  constructor
  · rintro ⟨node, hnode, hP⟩
    obtain ⟨above, hnode, -⟩ := mem_nodes_iff.mp hnode
    exact ⟨node.part, above, hnode, hP⟩
  · rintro ⟨part, above, hnode, hP⟩
    exact ⟨_, hnode.mem_nodes, hP⟩

/-! ## Findings on nodes -/

/-- A path goes on from one node only, lists of children aside. -/
theorem eq_of_below {path : Path} (ha : a ∈ nodes value) (hb : b ∈ nodes value) (hpa : Below a.part path)
    (hpb : Below b.part path) : a = b :=
  eq_of_pairwise (nodesFrom_ahead false (Part.root value)) ha hb (fun h => h.ne hpa hpb rfl)
    fun h => h.ne hpb hpa rfl

/-- Findings that are one for each path on every node, and stay with their nodes, are so in the tree. -/
theorem onceAt_flatMap_nodes {code : String} {f : Node → List Issue} {P : Node → Path → Prop}
    (h : ∀ node ∈ nodes value, Issue.OnceAt code (P node) (f node))
    (hbelow : ∀ node ∈ nodes value, ∀ path, P node path → Below node.part path) :
    Issue.OnceAt code (fun path => ∃ node ∈ nodes value, P node path) ((nodes value).flatMap f) := by
  refine .flatMap h ((nodesFrom_ahead false (Part.root value)).imp_of_mem ?_)
  intro a b ha hb hahead path hpa hpb
  exact absurd rfl (hahead.ne (hbelow a ha path hpa) (hbelow b hb path hpb))

end PolicyAudit.Assignment
