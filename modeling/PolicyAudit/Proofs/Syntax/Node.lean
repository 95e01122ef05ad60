-- SUMMARY: The nodes of a syntax tree, what holds of all of them, and how they may lie in a text.
import PolicyAudit.Syntax.Document

/-! ## Nodes

The nodes of a tree are its values and the members of its objects. A place says how to come to a node:
which child to take at each level. -/

namespace PolicyAudit

/-- A node of a syntax tree. -/
inductive SyntaxNode where
  | value (tree : Tree)
  | member (member : Member Tree)

namespace SyntaxNode

/-- Where a node stands in its text. -/
def span : SyntaxNode → Span
  | .value tree => tree.span
  | .member m => m.span

/-- The nodes directly below a node, in their order. -/
def children : SyntaxNode → List SyntaxNode
  | .value (.object _ members) => members.map .member
  | .value (.array _ items) => items.map .value
  | .value (.scalar ..) => []
  | .member m => m.value?.toList.map .value

/-- The node at a place. -/
def at? (node : SyntaxNode) : List Nat → Option SyntaxNode
  | [] => some node
  | n :: place => node.children[n]?.bind (·.at? place)

variable {node child : SyntaxNode} {P : SyntaxNode → Prop}

@[simp] theorem at?_nil (node : SyntaxNode) : node.at? [] = some node := by
  simp [at?]

theorem at?_cons (node : SyntaxNode) (n : Nat) (place : List Nat) :
    node.at? (n :: place) = node.children[n]?.bind (·.at? place) := by
  rw [at?]

/-- Whether something holds of a node and of all nodes below it. -/
def All (P : SyntaxNode → Prop) (node : SyntaxNode) : Prop :=
  ∀ place found, node.at? place = some found → P found

theorem All.self (h : node.All P) : P node := h [] node (at?_nil node)

theorem All.of_mem_children (h : node.All P) (hchild : child ∈ node.children) : child.All P := by
  intro place found hfound
  obtain ⟨n, hn⟩ := List.mem_iff_getElem?.mp hchild
  apply h (n :: place)
  rw [at?_cons, hn]
  exact hfound

theorem all_of_children (hself : P node) (hchildren : ∀ child ∈ node.children, child.All P) :
    node.All P := by
  intro place found hfound
  cases place with
  | nil =>
    rw [at?_nil] at hfound
    obtain rfl := Option.some.inj hfound
    exact hself
  | cons n place =>
    rw [at?_cons] at hfound
    obtain ⟨child, hchild, hbelow⟩ := Option.bind_eq_some_iff.mp hfound
    exact hchildren child (List.mem_of_getElem? hchild) place found hbelow

/-- What holds of all nodes of a tree holds of all nodes of its parts. -/
theorem All.at? {tree sub : Tree} {path : Path} (h : (SyntaxNode.value tree).All P)
    (hsub : tree.at? path = some sub) : (SyntaxNode.value sub).All P := by
  induction path generalizing tree with
  | nil =>
    rw [Tree.at?_nil] at hsub
    obtain rfl := Option.some.inj hsub
    exact h
  | cons key path ih =>
    rw [Tree.at?_cons] at hsub
    obtain ⟨next, hnext, hrest⟩ := Option.bind_eq_some_iff.mp hsub
    refine ih ?_ hrest
    rcases Tree.child?_cases hnext with ⟨span, members, name, member, rfl, rfl, hmember, hvalue⟩ |
      ⟨span, items, index, rfl, rfl, hitem⟩
    · have hmem : SyntaxNode.member member ∈ members.map .member :=
        List.mem_map_of_mem (List.mem_of_find?_eq_some hmember)
      have hall : (SyntaxNode.member member).All P := All.of_mem_children h hmem
      apply All.of_mem_children hall
      simp [children, hvalue]
    · have hmem : SyntaxNode.value next ∈ items.map .value := List.mem_map_of_mem (List.mem_of_getElem? hitem)
      exact All.of_mem_children h hmem

/-! ## Nodes side by side -/

/-- Nodes that stand one after the other between two offsets. -/
structure LaidOut (start stop : Nat) (nodes : List SyntaxNode) : Prop where
  inside : ∀ node ∈ nodes, start ≤ node.span.offset ∧ node.span.stop ≤ stop
  ordered : nodes.Pairwise fun a b => a.span.stop ≤ b.span.offset

variable {nodes more : List SyntaxNode} {start mid stop : Nat}

theorem LaidOut.nil (start stop : Nat) : LaidOut start stop [] := ⟨by simp, .nil⟩

theorem LaidOut.singleton (hstart : start ≤ node.span.offset) (hstop : node.span.stop ≤ stop) :
    LaidOut start stop [node] := ⟨by simp [hstart, hstop], by simp⟩

theorem LaidOut.mono {start' stop' : Nat} (h : LaidOut start stop nodes) (hstart : start' ≤ start)
    (hstop : stop ≤ stop') : LaidOut start' stop' nodes := by
  refine ⟨?_, h.ordered⟩
  intro node hnode
  obtain ⟨hle, hge⟩ := h.inside node hnode
  exact ⟨Nat.le_trans hstart hle, Nat.le_trans hge hstop⟩

theorem LaidOut.append (h : LaidOut start mid nodes) (hmore : LaidOut mid stop more)
    (hstart : start ≤ mid) (hstop : mid ≤ stop) : LaidOut start stop (nodes ++ more) := by
  constructor
  case inside =>
    intro node hnode
    rcases List.mem_append.mp hnode with hnode | hnode
    · exact (h.mono (Nat.le_refl _) hstop).inside node hnode
    · exact (hmore.mono hstart (Nat.le_refl _)).inside node hnode
  case ordered =>
    refine List.pairwise_append.mpr ⟨h.ordered, hmore.ordered, ?_⟩
    intro a ha b hb
    exact Nat.le_trans (h.inside a ha).2 (hmore.inside b hb).1

/-- Nodes with something in them take up a byte each. -/
theorem LaidOut.length_le (h : LaidOut start stop nodes)
    (hnonempty : ∀ node ∈ nodes, 0 < node.span.length) : nodes.length ≤ stop - start := by
  induction nodes generalizing start with
  | nil => simp
  | cons node nodes ih =>
    obtain ⟨hle, hge⟩ := h.inside node List.mem_cons_self
    obtain ⟨hafter, hordered⟩ := List.pairwise_cons.mp h.ordered
    have hrest : LaidOut node.span.stop stop nodes := by
      refine ⟨?_, hordered⟩
      intro other hother
      exact ⟨hafter other hother, (h.inside other (List.mem_cons_of_mem _ hother)).2⟩
    have hlength := ih hrest fun other hother => hnonempty other (List.mem_cons_of_mem _ hother)
    have hpos := hnonempty node List.mem_cons_self
    simp only [List.length_cons, Span.stop] at *
    omega

end SyntaxNode

end PolicyAudit
