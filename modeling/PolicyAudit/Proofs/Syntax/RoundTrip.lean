-- SUMMARY: A printed value is read back as it was, and a walk through its tree finds all of its parts.
import PolicyAudit.Proofs.Lint.Printing
import PolicyAudit.Proofs.Syntax.Acceptance

/-! ## Printed documents -/

namespace PolicyAudit

variable {value : Json} {text : String}

theorem Json.Shows.writesDocument (h : Shows 0 value text.toList) :
    ∃ tree, WritesDocument tree text.toList ∧ tree.toJson = value ∧ tree.Sorted := by
  obtain ⟨tree, hwrites, hvalue, hsorted⟩ := h 0
  exact ⟨tree, ⟨[], text.toList, [], .nil, hwrites, .closed .nil, by simp⟩, hvalue, hsorted⟩

/-- Both printed forms are documents of a sorted tree. -/
theorem Json.Prints.writesDocument (h : Prints 0 value) (htext : text = value.render ∨ text = value.pretty) :
    ∃ tree, WritesDocument tree text.toList ∧ tree.toJson = value ∧ tree.Sorted := by
  apply Json.Shows.writesDocument
  rcases htext with rfl | rfl
  · rw [render, String.toList_ofList]
    exact h.compact
  · rw [pretty, String.toList_ofList, ← Edit.indentLines_nil (value.indented 0)]
    exact h.indented .nil 0

namespace Document

/-- **Printing and reading.** A value of which all numbers are integers of 64 bits and which is not nested too
deep is printed, compact or indented, as a clean document of that value. A walk through its tree goes by the
order of paths, so that each part of the value comes once and before its own parts, and every path that the
walk lists leads to the part that it is listed with. -/
theorem ofText_of_printed (hsorted : value.Sorted) (hexact : value.Exact) (hreach : value.reach ≤ maxDepth)
    (htext : text = value.render ∨ text = value.pretty) :
    let doc := ofText text
    doc.isClean = true ∧ doc.value? = some value ∧ ∃ tree, doc.tree? = some tree ∧
      ((tree.walk.map (·.1)).Pairwise Path.Before ∧ (tree.walk.map (·.1)).Nodup) ∧
      (∀ path part, value.at? path = some part ↔ ∃ sub, (path, sub) ∈ tree.walk ∧ sub.toJson = part) ∧
      ∀ path sub, (path, sub) ∈ tree.walk → doc.at? path = some sub := by
  intro doc
  have hprints : Json.Prints 0 value := hsorted.prints hexact (by rwa [Nat.zero_add])
  obtain ⟨tree, hwrites, rfl, hnames⟩ := hprints.writesDocument htext
  obtain ⟨hclean, htree⟩ := clean_of_writes hwrites
  have hwhole := whole_of_isClean hclean htree
  have hordered : (tree.walk.map (·.1)).Pairwise Path.Before :=
    List.pairwise_map.mpr (Tree.pairwise_walkFrom hnames [])
  refine ⟨hclean, by rw [value?, htree, Option.map_some], tree, htree, ⟨hordered, ?_⟩, fun path part => ?_,
    fun path sub hlisted => ?_⟩
  · exact hordered.imp Path.Before.ne
  · constructor
    · intro hpart
      obtain ⟨sub, hsub, hvalue⟩ := (Tree.at?_toJson_cases hpart).resolve_right (hwhole.not_shadows path)
      exact ⟨sub, (Tree.mem_walk_iff hnames).mpr hsub, hvalue⟩
    · rintro ⟨sub, hlisted, rfl⟩
      exact Tree.at?_toJson_of_some ((Tree.mem_walk_iff hnames).mp hlisted)
  · rw [Document.at?, htree, Option.bind_some]
    exact (Tree.mem_walk_iff hnames).mp hlisted

/-- A value with empty containers, an empty name, names and strings that are written with escapes, and the
least and the greatest of the exact numbers. -/
def sample : Json :=
  .object [("", .array []),
    ("a\"\\\n", .array [.number (.int (-0x8000000000000000)), .object [], .number (.int 0xffffffffffffffff)]),
    ("é", .object [("\u0007", .string "\t😀\u007f"), ("null", .null)])]

theorem ofText_of_printed_of_sample :
    (sample.Sorted ∧ sample.Exact ∧ sample.reach ≤ maxDepth) ∧
      (ofText sample.pretty).isClean = true ∧ (ofText sample.pretty).value? = some sample ∧
      ∃ tree, (ofText sample.pretty).tree? = some tree ∧ (tree.walk.map (·.1)).Nodup := by
  have hsorted : sample.Sorted := by simp [sample]; decide
  have hexact : sample.Exact := by simp [sample, Scalar.Exact, Number.Exact]
  have hreach : sample.reach ≤ maxDepth := by decide
  obtain ⟨hclean, hvalue, tree, htree, ⟨-, hnodup⟩, -⟩ := ofText_of_printed hsorted hexact hreach (.inr rfl)
  exact ⟨⟨hsorted, hexact, hreach⟩, hclean, hvalue, tree, htree, hnodup⟩

end Document

end PolicyAudit
