-- SUMMARY: A text is read without a fault exactly when the grammar spells it, and then to its value.
import PolicyAudit.Proofs.Syntax.Completeness
import PolicyAudit.Proofs.Syntax.Soundness

/-! ## Documents -/

namespace PolicyAudit

namespace Document

theorem isClean_iff {doc : Document} :
    doc.isClean = true ↔ doc.errors = [] ∧ ∃ tree, doc.tree? = some tree := by
  simp [isClean, List.isEmpty_iff, Option.isSome_iff_exists]

theorem endsNumber_of_finalGap {g : List Char} (hg : FinalGap g) : EndsNumber g := by
  cases hg with
  | closed hg => simpa using EndsNumber.of_gap hg (s := []) (by simp [EndsNumber])
  | lineComment _ hg => exact .of_gap hg (by simp [EndsNumber]; decide)

variable {text : String} {tree : Tree}

/-- A document that is written for a tree is read to that tree, and without a fault. -/
theorem clean_of_writes (h : WritesDocument tree text.toList) :
    (ofText text).isClean = true ∧ (ofText text).tree? = some tree := by
  obtain ⟨g, w, g', hg, hw, hg', htext⟩ := h
  obtain ⟨ch, w', hhead, hch⟩ := hw.spells.exists_head
  have hsolid : Trivia.Solid (w ++ g') := by
    rw [hhead]
    exact solid_of_beginsValue hch _
  obtain ⟨hgap, hnext⟩ := Cursor.readTrivia_of_gap (c := ⟨0, text.toList⟩) hg hsolid htext
  have hpos : (Cursor.readTrivia ⟨0, text.toList⟩).next.pos = Text.byteLength g := by
    rw [Cursor.Reaches.pos_eq (Reading.reaches _) (by rw [hnext]; exact htext), Nat.zero_add]
  have hroot : readRoot (Cursor.readTrivia ⟨0, text.toList⟩).next = Cursor.readValue 129 _ := by
    rw [readRoot, if_neg (by simp [hnext, hhead])]
    rfl
  obtain ⟨herrors, hafter, htree⟩ :=
    Cursor.completeAt_readValue 129 0 rfl (hw.at_pos hpos.symm) (endsNumber_of_finalGap hg') hnext
  obtain ⟨htrailing, hend⟩ := Cursor.readTrivia_of_finalGap (by rw [hafter]; exact hg')
  rw [isClean_iff]
  simp only [ofText]
  rw [hroot]
  simp [hgap, herrors, htree, htrailing, trailingErrors, hend]

/-- A document that is read without a fault is written for the tree that is read. -/
theorem writes_of_clean (h : (ofText text).isClean = true) (htree : (ofText text).tree? = some tree) :
    WritesDocument tree text.toList := by
  obtain ⟨herrors, -⟩ := isClean_iff.1 h
  simp only [ofText, List.append_eq_nil_iff] at herrors htree
  obtain ⟨⟨⟨hgap, hroot⟩, htrailing⟩, hend⟩ := herrors
  by_cases hne : (Cursor.readTrivia ⟨0, text.toList⟩).next.rest = []
  · simp [readRoot, hne] at htree
  · have hread : readRoot (Cursor.readTrivia ⟨0, text.toList⟩).next = Cursor.readValue 129 _ := by
      rw [readRoot, if_neg hne]
      rfl
    rw [hread] at hroot htree htrailing hend
    obtain ⟨w, hwc, hw⟩ := (Cursor.soundAt_readValue 129 0 rfl).writes hroot htree
    obtain ⟨g, hc, hg⟩ := Cursor.exists_gap_of_readTrivia hgap
    obtain ⟨g', hc', hg'⟩ := Cursor.exists_gap_of_readTrivia htrailing
    have hpos := Cursor.Reaches.pos_eq (Reading.reaches _) hc
    simp [htree, trailingErrors] at hend
    refine ⟨g, w, g', hg.resolve_right fun h => hne h.2, hw.at_pos (hpos.trans (Nat.zero_add _)), ?_, ?_⟩
    · exact hg'.elim .closed fun h => h.1
    · rw [hwc, hc', hend, List.append_nil] at hc
      exact hc

/-- A document that the grammar spells is read to its value, and without a fault. -/
theorem clean_of_spells {v : Json} (h : SpellsDocument v text.toList) :
    (ofText text).isClean = true ∧ (ofText text).value? = some v := by
  obtain ⟨g, w, g', hg, hw, hg', htext⟩ := h
  obtain ⟨_, hwrites, hv⟩ := hw.exists_writes (Text.byteLength g)
  cases hv with
  | value tree =>
    obtain ⟨hclean, htree⟩ := clean_of_writes ⟨g, w, g', hg, hwrites, hg', htext⟩
    exact ⟨hclean, by rw [value?, htree, Option.map_some]⟩

/-- A document that is read without a fault is spelled by the grammar for the value that is read. -/
theorem spells_of_clean (h : (ofText text).isClean = true) :
    ∃ v, (ofText text).value? = some v ∧ SpellsDocument v text.toList := by
  obtain ⟨-, tree, htree⟩ := isClean_iff.1 h
  obtain ⟨g, w, g', hg, hw, hg', htext⟩ := writes_of_clean h htree
  exact ⟨tree.toJson, by rw [value?, htree, Option.map_some], g, w, g', hg, hw.spells, hg', htext⟩

end Document

/-- **The accepted dialect.** A text is read without a fault exactly when it is a value between gaps, and
its value is then the one that it is spelled for. -/
theorem isClean_iff_spellsDocument (text : String) :
    ((Document.ofText text).isClean = true ↔ ∃ v, SpellsDocument v text.toList) ∧
      ∀ v, SpellsDocument v text.toList ↔
        (Document.ofText text).isClean = true ∧ (Document.ofText text).value? = some v := by
  have hspells : ∀ v, SpellsDocument v text.toList ↔
      (Document.ofText text).isClean = true ∧ (Document.ofText text).value? = some v := by
    intro v
    constructor
    · exact Document.clean_of_spells
    · rintro ⟨hclean, hv⟩
      obtain ⟨v', hv', hspells⟩ := Document.spells_of_clean hclean
      obtain rfl := Option.some.inj (hv.symm.trans hv')
      exact hspells
  refine ⟨⟨fun hclean => ?_, fun ⟨v, hv⟩ => ((hspells v).1 hv).1⟩, hspells⟩
  obtain ⟨v, -, hv⟩ := Document.spells_of_clean hclean
  exact ⟨v, hv⟩

end PolicyAudit
