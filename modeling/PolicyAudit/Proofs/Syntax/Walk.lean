-- SUMMARY: A walk through a tree lists every part once, each before its own parts.
import PolicyAudit.Proofs.Json.Sorted
import PolicyAudit.Proofs.Syntax.Shape

/-! ## The order of a walk -/

namespace PolicyAudit

/-- The order of the keys of a container: names ascend, and so do positions. -/
def Key.Before : Key → Key → Prop
  | .name a, .name b => a < b
  | .index i, .index j => i < j
  | _, _ => False

/-- A path comes before those that go on from it, and of two paths that part the one with the earlier key
comes first. -/
def Path.Before (p q : Path) : Prop := List.Lex Key.Before p q

theorem Path.before_append {key key' : Key} (h : key.Before key') (path p q : Path) :
    Path.Before (path ++ [key] ++ p) (path ++ [key'] ++ q) := by
  induction path with
  | nil => exact .rel h
  | cons first path ih => exact .cons ih

theorem Path.before_append_self (path : Path) (key : Key) (q : Path) :
    Path.Before path (path ++ [key] ++ q) := by
  induction path with
  | nil => exact .nil
  | cons first path ih => exact .cons ih

theorem Key.not_before_self (key : Key) : ¬ key.Before key := by
  cases key with
  | name name => exact String.lt_irrefl name
  | index index => exact Nat.lt_irrefl index

theorem Path.not_before_self (path : Path) : ¬ Path.Before path path := by
  induction path with
  | nil => exact nofun
  | cons key path ih =>
    intro h
    cases h with
    | rel hkey => exact key.not_before_self hkey
    | cons hrest => exact ih hrest

theorem Path.Before.ne {p q : Path} (h : Path.Before p q) : p ≠ q := by
  rintro rfl
  exact Path.not_before_self p h

namespace Tree

/-! ## Sorted trees -/

/-- The names of the members of every object ascend. -/
inductive Sorted : Tree → Prop where
  | object {span members} : members.Pairwise (fun a b => a.name < b.name) →
      (∀ m ∈ members, ∀ tree, m.value? = some tree → Sorted tree) → Sorted (.object span members)
  | array {span items} : (∀ item ∈ items, Sorted item) → Sorted (.array span items)
  | scalar {span value} : Sorted (.scalar span value)

variable {tree sub : Tree} {items : List Tree} {members : List (Member Tree)} {member : Member Tree}
variable {path p q : Path} {key : Key} {index : Nat}

/-- Every member is the first one of its name. -/
theorem find?_of_pairwise (h : members.Pairwise (fun a b => a.name < b.name)) (hmem : member ∈ members) :
    members.find? (·.name = member.name) = some member := by
  induction members with
  | nil => cases hmem
  | cons first members ih =>
    obtain ⟨hfirst, hrest⟩ := List.pairwise_cons.mp h
    rcases List.mem_cons.mp hmem with rfl | hlater
    · exact List.find?_cons_of_pos (by simp)
    · have hne : first.name ≠ member.name := fun heq =>
        String.lt_irrefl member.name (heq ▸ hfirst member hlater)
      rw [List.find?_cons_of_neg (by simp [hne]), ih hrest hlater]

theorem child?_name_iff {span : Span} {name : String}
    (h : members.Pairwise (fun a b => a.name < b.name)) :
    (Tree.object span members).child? (.name name) = some sub ↔
      ∃ m ∈ members, m.name = name ∧ m.value? = some sub := by
  constructor
  · intro hchild
    obtain ⟨member, hmember, hvalue⟩ := Option.bind_eq_some_iff.mp hchild
    exact ⟨member, List.mem_of_find?_eq_some hmember, by simpa using List.find?_some hmember, hvalue⟩
  · rintro ⟨member, hmem, rfl, hvalue⟩
    rw [child?, member?, Tree.members, find?_of_pairwise h hmem, Option.bind_some, hvalue]

theorem Sorted.child? (h : tree.Sorted) (hsub : tree.child? key = some sub) : sub.Sorted := by
  rcases child?_cases hsub with ⟨span, members, name, member, rfl, rfl, hmember, hvalue⟩ |
    ⟨span, items, index, rfl, rfl, hitem⟩
  · cases h with
    | object hnames hsorted => exact hsorted member (List.mem_of_find?_eq_some hmember) sub hvalue
  · cases h with
    | array hitems => exact hitems sub (List.mem_of_getElem? hitem)

/-! ## What a walk lists -/

theorem mem_walkItems_iff : (p, sub) ∈ walkItems path index items ↔
    ∃ (i : Nat) (item : Tree), items[i]? = some item ∧
      (p, sub) ∈ item.walkFrom (path ++ [.index (index + i)]) := by
  induction items generalizing index with
  | nil => simp [walkItems]
  | cons item items ih =>
    rw [walkItems, List.mem_append, ih]
    constructor
    · rintro (hhere | ⟨i, found, hfound, hentry⟩)
      · exact ⟨0, item, rfl, hhere⟩
      · exact ⟨i + 1, found, hfound, by rwa [Nat.add_assoc, Nat.add_comm 1] at hentry⟩
    · rintro ⟨_ | i, found, hfound, hentry⟩
      · obtain rfl := Option.some.inj hfound
        exact .inl hentry
      · exact .inr ⟨i, found, hfound, by rwa [Nat.add_assoc, Nat.add_comm 1]⟩

theorem mem_walkMembers_iff : (p, sub) ∈ walkMembers path members ↔
    ∃ m ∈ members, ∃ tree, m.value? = some tree ∧ (p, sub) ∈ tree.walkFrom (path ++ [.name m.name]) := by
  induction members with
  | nil => simp [walkMembers]
  | cons first members ih =>
    obtain ⟨span, name, nameSpan, _ | value⟩ := first
    · simp [walkMembers, ih]
    · simp [walkMembers, ih]

/-- A walk lists the tree and what the walks through its children list. -/
theorem mem_walkFrom_iff_child? (h : tree.Sorted) : (p, sub) ∈ tree.walkFrom path ↔
    (p = path ∧ sub = tree) ∨
      ∃ key child, tree.child? key = some child ∧ (p, sub) ∈ child.walkFrom (path ++ [key]) := by
  cases h with
  | @object span members hnames _ =>
    rw [walkFrom, List.mem_cons, Prod.mk.injEq, mem_walkMembers_iff]
    refine or_congr_right ⟨?_, ?_⟩
    · rintro ⟨member, hmem, child, hvalue, hentry⟩
      exact ⟨.name member.name, child, (child?_name_iff hnames).mpr ⟨member, hmem, rfl, hvalue⟩, hentry⟩
    · rintro ⟨_ | _, child, hchild, hentry⟩
      · obtain ⟨member, hmem, rfl, hvalue⟩ := (child?_name_iff hnames).mp hchild
        exact ⟨member, hmem, child, hvalue, hentry⟩
      · cases hchild
  | @array span items _ =>
    rw [walkFrom, List.mem_cons, Prod.mk.injEq, mem_walkItems_iff]
    refine or_congr_right ⟨?_, ?_⟩
    · rintro ⟨i, item, hitem, hentry⟩
      exact ⟨.index i, item, hitem, by rwa [Nat.zero_add] at hentry⟩
    · rintro ⟨_ | i, child, hchild, hentry⟩
      · cases hchild
      · exact ⟨i, child, hchild, by rwa [Nat.zero_add]⟩
  | @scalar span value =>
    rw [walkFrom, List.mem_singleton, Prod.mk.injEq]
    refine ⟨.inl, Or.rec id ?_⟩
    rintro ⟨key, child, hchild, -⟩
    cases key <;> cases hchild

/-- A walk through a sorted tree lists the parts at its paths. -/
theorem mem_walkFrom_iff (h : tree.Sorted) :
    (p, sub) ∈ tree.walkFrom path ↔ ∃ q, p = path ++ q ∧ tree.at? q = some sub := by
  induction hn : tree.nesting using Nat.strongRecOn generalizing tree path with
  | _ n ih =>
    subst hn
    rw [mem_walkFrom_iff_child? h]
    constructor
    · rintro (⟨rfl, rfl⟩ | ⟨key, child, hchild, hentry⟩)
      · exact ⟨[], (List.append_nil _).symm, at?_nil _⟩
      · obtain ⟨q, rfl, hq⟩ := (ih _ (nesting_child? hchild) (h.child? hchild) rfl).mp hentry
        exact ⟨key :: q, by simp, by rwa [at?_cons, hchild]⟩
    · rintro ⟨_ | ⟨key, q⟩, rfl, hq⟩
      · exact .inl ⟨List.append_nil _, Option.some.inj (hq.symm.trans (at?_nil tree))⟩
      · rw [at?_cons] at hq
        obtain ⟨child, hchild, hbelow⟩ := Option.bind_eq_some_iff.mp hq
        refine .inr ⟨key, child, hchild, (ih _ (nesting_child? hchild) (h.child? hchild) rfl).mpr ?_⟩
        exact ⟨q, by simp, hbelow⟩

theorem mem_walk_iff (h : tree.Sorted) : (p, sub) ∈ tree.walk ↔ tree.at? p = some sub := by
  rw [walk, mem_walkFrom_iff h]
  simp

/-! ## The order of what is listed -/

/-- One entry of a walk may come before another. -/
def Before (a b : Path × Tree) : Prop := Path.Before a.1 b.1

theorem before_of_mem_walkFrom {a b sub' : Tree} {key' : Key} (ha : a.Sorted) (hb : b.Sorted)
    (hkey : key.Before key') (hp : (p, sub) ∈ a.walkFrom (path ++ [key]))
    (hq : (q, sub') ∈ b.walkFrom (path ++ [key'])) : Before (p, sub) (q, sub') := by
  obtain ⟨p, rfl, -⟩ := (mem_walkFrom_iff ha).mp hp
  obtain ⟨q, rfl, -⟩ := (mem_walkFrom_iff hb).mp hq
  exact Path.before_append hkey path p q

theorem pairwise_walkItems (hsorted : ∀ item ∈ items, item.Sorted)
    (hwalks : ∀ item ∈ items, ∀ path, (item.walkFrom path).Pairwise Before) :
    (walkItems path index items).Pairwise Before := by
  induction items generalizing index with
  | nil => exact .nil
  | cons item items ih =>
    obtain ⟨hitem, hitems⟩ := List.forall_mem_cons.mp hsorted
    obtain ⟨hwalk, hrest⟩ := List.forall_mem_cons.mp hwalks
    rw [walkItems, List.pairwise_append]
    refine ⟨hwalk _, ih hitems hrest, ?_⟩
    rintro ⟨p, sub⟩ hp ⟨q, sub'⟩ hq
    obtain ⟨i, found, hfound, hq⟩ := mem_walkItems_iff.mp hq
    have hkey : Key.Before (.index index) (.index (index + 1 + i)) := by
      rw [Key.Before]
      omega
    exact before_of_mem_walkFrom hitem (hitems found (List.mem_of_getElem? hfound)) hkey hp hq

theorem pairwise_walkMembers (hnames : members.Pairwise (fun a b => a.name < b.name))
    (hsorted : ∀ m ∈ members, ∀ tree, m.value? = some tree → tree.Sorted)
    (hwalks : ∀ m ∈ members, ∀ tree, m.value? = some tree → ∀ path, (tree.walkFrom path).Pairwise Before) :
    (walkMembers path members).Pairwise Before := by
  induction members with
  | nil => exact .nil
  | cons first members ih =>
    obtain ⟨hfirst, hrest⟩ := List.pairwise_cons.mp hnames
    obtain ⟨hvalue, hvalues⟩ := List.forall_mem_cons.mp hsorted
    obtain ⟨hwalk, hlater⟩ := List.forall_mem_cons.mp hwalks
    obtain ⟨span, name, nameSpan, _ | value⟩ := first
    · exact ih hrest hvalues hlater
    · rw [walkMembers, List.pairwise_append]
      refine ⟨hwalk value rfl _, ih hrest hvalues hlater, ?_⟩
      rintro ⟨p, sub⟩ hp ⟨q, sub'⟩ hq
      obtain ⟨member, hmem, child, hchild, hq⟩ := mem_walkMembers_iff.mp hq
      have hkey : Key.Before (.name name) (.name member.name) := hfirst member hmem
      exact before_of_mem_walkFrom (hvalue value rfl) (hvalues member hmem child hchild) hkey hp hq

/-- A walk goes by the order of paths, so that no path comes twice. -/
theorem pairwise_walkFrom (h : tree.Sorted) (path : Path) : (tree.walkFrom path).Pairwise Before := by
  induction h generalizing path with
  | @object span members hnames hsorted ih =>
    rw [walkFrom, List.pairwise_cons]
    refine ⟨?_, pairwise_walkMembers hnames hsorted ih⟩
    rintro ⟨p, sub⟩ hentry
    obtain ⟨member, hmem, child, hvalue, hentry⟩ := mem_walkMembers_iff.mp hentry
    obtain ⟨q, rfl, -⟩ := (mem_walkFrom_iff (hsorted member hmem child hvalue)).mp hentry
    exact Path.before_append_self path (.name member.name) q
  | @array span items hsorted ih =>
    rw [walkFrom, List.pairwise_cons]
    refine ⟨?_, pairwise_walkItems hsorted ih⟩
    rintro ⟨p, sub⟩ hentry
    obtain ⟨i, item, hitem, hentry⟩ := mem_walkItems_iff.mp hentry
    obtain ⟨q, rfl, -⟩ := (mem_walkFrom_iff (hsorted item (List.mem_of_getElem? hitem))).mp hentry
    exact Path.before_append_self path _ q
  | scalar => exact List.pairwise_singleton ..

end Tree

end PolicyAudit
