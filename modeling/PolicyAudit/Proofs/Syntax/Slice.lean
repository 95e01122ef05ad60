-- SUMMARY: What a node of a document covers is by itself a document with the value of the node.
import PolicyAudit.Proofs.Syntax.Acceptance
import PolicyAudit.Proofs.Syntax.Placement

/-! ## Slices -/

namespace PolicyAudit

namespace Span

/-- The part of a text that a span covers, where it begins and ends between two characters. -/
def slice? (text : List Char) (span : Span) : Option (List Char) :=
  (Text.splitAtByte text span.offset).bind fun (_, after) =>
    (Text.splitAtByte after span.length).map fun (slice, _) => slice

theorem slice?_eq_some {text before w after : List Char} {span : Span}
    (htext : text = before ++ (w ++ after)) (hoffset : Text.byteLength before = span.offset)
    (hlength : Text.byteLength w = span.length) : span.slice? text = some w := by
  have hbefore : Text.splitAtByte text span.offset = some (before, w ++ after) :=
    Text.splitAtByte_eq_some_iff.mpr ⟨htext, hoffset⟩
  have hw : Text.splitAtByte (w ++ after) span.length = some (w, after) :=
    Text.splitAtByte_eq_some_iff.mpr ⟨rfl, hlength⟩
  simp only [slice?, hbefore, Option.bind_some, hw, Option.map_some]

end Span

/-- What is spelled inside many containers is spelled inside fewer. -/
theorem Spells.mono {depth depth' : Nat} {p : Phrase} {w : List Char} (h : Spells depth p w)
    (hle : depth' ≤ depth) : Spells depth' p w := by
  induction h generalizing depth' with
  | scalar hdepth hw => exact .scalar (Nat.le_trans hle hdepth) hw
  | array hdepth _ ih => exact .array (Nat.le_trans hle hdepth) (ih (Nat.succ_le_succ hle))
  | object hdepth _ ih => exact .object (Nat.le_trans hle hdepth) (ih (Nat.succ_le_succ hle))
  | noItem hg => exact .noItem hg
  | lastItem hg _ hg' ih => exact .lastItem hg (ih hle) hg'
  | consItem hg _ hg' _ ih ihrest => exact .consItem hg (ih hle) hg' (ihrest hle)
  | named hk hg hg' _ ih => exact .named hk hg hg' (ih hle)
  | noMember hg => exact .noMember hg
  | lastMember hg _ hg' ih => exact .lastMember hg (ih hle) hg'
  | consMember hg _ hg' _ ih ihrest => exact .consMember hg (ih hle) hg' (ihrest hle)

/-! ## Spelled nodes -/

namespace SyntaxNode

/-- Whether what a node covers is spelled for its value. This asks nothing of members. -/
def Spelled (text : List Char) : SyntaxNode → Prop
  | .value tree => ∃ w, tree.span.slice? text = some w ∧ Spells 0 (.value tree.toJson) w
  | .member _ => True

end SyntaxNode

namespace Cursor

open SyntaxNode

variable {text : List Char} {room depth : Nat} {c : Cursor} {tree : Tree}

theorem spelled_of_soundAt {value : ValueReader} (hsound : SoundAt depth value)
    (hplaces : PlacesIn text value) (hc : c.Within text) (herrors : (value c).errors = [])
    (hresult : (value c).result = some tree) : (SyntaxNode.value tree).Spelled text := by
  obtain ⟨w, hw, hwrites⟩ := hsound.writes herrors hresult
  obtain ⟨before, htext, hbefore⟩ := hc.exists_before
  obtain ⟨after, hafter, hlength⟩ := (hc.of_reaches (value c).reaches).exists_before
  have hspan := (hplaces c hc tree hresult).1
  refine ⟨w, ?_, hwrites.spells.mono (Nat.zero_le depth)⟩
  refine Span.slice?_eq_some (htext.trans (congrArg (before ++ ·) hw)) ?_ ?_
  · rw [hbefore, hspan]
    rfl
  · -- The text before the next cursor is that before this one and `w`.
    have hsame : before ++ w = after := by
      apply (List.append_left_inj (value c).next.rest).mp
      rw [← hafter, htext, hw, List.append_assoc]
    rw [hspan, ← hlength, ← hbefore, ← hsame, Text.byteLength_append]
    simp [Span.between]

/-- Every node of what is read without a fault is spelled for its value. -/
theorem all_spelled_of_readValue (h : room + depth = Document.maxDepth + 1) (hc : c.Within text)
    (herrors : (readValue room c).errors = []) (hresult : (readValue room c).result = some tree) :
    (SyntaxNode.value tree).All (Spelled text) := by
  induction room generalizing depth c tree with
  | zero => cases hresult
  | succ room ih =>
    have hself := spelled_of_soundAt (soundAt_readValue (room + 1) depth h)
      (placesIn_readValue text (room + 1)) hc herrors hresult
    have hopen : (c.skip 1).Within text := hc.of_reaches (c.reaches_skip 1)
    have hinner : room + (depth + 1) = Document.maxDepth + 1 := by omega
    refine all_of_children hself ?_
    intro child hchild
    rcases readValue_cases hresult with
      ⟨span, rfl, hread⟩ | ⟨span, rfl, hread⟩ | ⟨span, value, rfl⟩
    · rw [hread] at herrors
      obtain ⟨m, hm, rfl⟩ := List.mem_map.mp hchild
      refine all_of_children trivial ?_
      intro part hpart
      obtain ⟨sub, hsub, rfl⟩ := List.mem_map.mp hpart
      obtain ⟨d, hd, hvalue, hnone⟩ := exists_of_mem_readMembers hm (Option.mem_toList.mp hsub)
      exact ih hinner (hopen.of_reaches hd) (hnone herrors) hvalue
    · rw [hread] at herrors
      obtain ⟨sub, hsub, rfl⟩ := List.mem_map.mp hchild
      obtain ⟨d, hd, hvalue, hnone⟩ := exists_of_mem_readItems hsub
      exact ih hinner (hopen.of_reaches hd) (hnone herrors) hvalue
    · cases hchild

end Cursor

/-! ## Documents -/

namespace Document

open SyntaxNode

variable {text : String} {tree : Tree}

theorem all_spelled_of_isClean (hclean : (ofText text).isClean = true)
    (htree : (ofText text).tree? = some tree) :
    (SyntaxNode.value tree).All (Spelled text.toList) := by
  obtain ⟨herrors, -⟩ := isClean_iff.mp hclean
  obtain ⟨c, hc, hresult, hnone⟩ := readValue_of_tree? htree
  have hroom : maxDepth + 1 + 0 = maxDepth + 1 := rfl
  exact Cursor.all_spelled_of_readValue hroom hc (hnone herrors) hresult

/-- A text that is spelled for a value is by itself a document with that value. -/
theorem clean_of_spells_value {v : Json} {w : List Char} (h : Spells 0 (.value v) w) :
    (ofText (String.ofList w)).isClean = true ∧ (ofText (String.ofList w)).value? = some v := by
  apply clean_of_spells
  exact ⟨[], w, [], .nil, h, .closed .nil, by simp⟩

/-- **Spans.** Whatever the text, the nodes of its tree cover stretches of whole characters, each inside the
node above it, in their order and without overlap, so that no two of them have the same span. In a
document that is read without a fault, what a value covers is by itself a document with that value. -/
theorem nodes_of_ofText (htree : (ofText text).tree? = some tree) :
    (∀ place node, (SyntaxNode.value tree).at? place = some node → node.Placed text.toList) ∧
    (∀ p q a b, (SyntaxNode.value tree).at? p = some a → (SyntaxNode.value tree).at? q = some b →
      a.span = b.span → p = q) ∧
    ((ofText text).isClean = true →
      ∀ place part, (SyntaxNode.value tree).at? place = some (.value part) →
        ∃ w, part.span.slice? text.toList = some w ∧
          (ofText (String.ofList w)).isClean = true ∧
          (ofText (String.ofList w)).value? = some part.toJson) := by
  have hplaced := all_placed_of_ofText htree
  refine ⟨hplaced, ?_, ?_⟩
  · intro p q a b ha hb hspan
    exact hplaced.place_eq ha hb hspan
  · intro hclean place part hpart
    obtain ⟨w, hslice, hspells⟩ := all_spelled_of_isClean hclean htree place _ hpart
    exact ⟨w, hslice, clean_of_spells_value hspells⟩

/-- A list with a character of two bytes and a comma after its last element. -/
theorem nodes_of_list : ∃ tree, (ofText "[1, \"é\",]").tree? = some tree ∧
    (∀ place node, (SyntaxNode.value tree).at? place = some node →
      node.Placed "[1, \"é\",]".toList) ∧
    ∃ w, tree.span.slice? "[1, \"é\",]".toList = some w ∧
      (ofText (String.ofList w)).isClean = true ∧
      (ofText (String.ofList w)).value? = some tree.toJson := by
  have hsome : (ofText "[1, \"é\",]").tree?.isSome = true := by decide +kernel
  obtain ⟨tree, htree⟩ := Option.isSome_iff_exists.mp hsome
  obtain ⟨hplaced, -, hslices⟩ := nodes_of_ofText htree
  exact ⟨tree, htree, hplaced, hslices (by decide +kernel) [] tree (SyntaxNode.at?_nil _)⟩

end Document

end PolicyAudit
