-- SUMMARY: What a pattern finds in a text is one of its spellings, letter case aside.
import PolicyAudit.Text.Fold
import PolicyAudit.Text.Pattern

/-! ## Spellings of a pattern -/

namespace PolicyAudit.Text

/-- The two characters outside ASCII that fold to ASCII letters. -/
def foldsFromOutside (c : Char) : Bool := c == '\u017f' || c == '\u212a'

theorem ReadsAs.map_toLower {word read : List Char} (h : ReadsAs word read)
    (hread : ∀ c ∈ read, foldsFromOutside c = false) : read.map Char.toLower = word := by
  induction h with
  | nil => rfl
  | @cons p c word text hchar _ ih =>
    have hc := hread c List.mem_cons_self
    simp only [foldsFromOutside, Bool.or_eq_false_iff] at hc
    simp only [matchesChar, hc.1, hc.2, Bool.and_false, Bool.or_false, beq_iff_eq] at hchar
    rw [List.map_cons, hchar, ih fun d hd => hread d (List.mem_cons_of_mem c hd)]

namespace Pattern

/-- The texts in lower case that a pattern is for. -/
def spellings : Pattern → List (List Char)
  | [] => [[]]
  | words :: rest => words.flatMap fun word => (spellings rest).map (word.toList ++ ·)

variable {pattern : Pattern} {text read : List Char}

theorem Fits.mem_spellings (h : pattern.Fits read) (hread : ∀ c ∈ read, foldsFromOutside c = false) :
    read.map Char.toLower ∈ spellings pattern := by
  induction h with
  | nil => exact List.mem_singleton_self []
  | @cons words rest word read more hword hreads _ ih =>
    have hfirst := hreads.map_toLower fun c hc => hread c (List.mem_append_left more hc)
    have hrest := ih fun c hc => hread c (List.mem_append_right read hc)
    rw [List.map_append, hfirst]
    exact List.mem_flatMap.mpr ⟨word, hword, List.mem_map_of_mem hrest⟩

theorem exists_infix_of_occurs (h : pattern.occurs text = true) :
    ∃ read, pattern.Fits read ∧ read <:+: text := by
  induction text with
  | nil =>
    obtain ⟨read, rest, hfits, htext⟩ := startsText_iff.mp h
    exact ⟨read, hfits, [], rest, htext.symm⟩
  | cons c text ih =>
    rw [occurs, Bool.or_eq_true] at h
    rcases h with hstart | hlater
    · obtain ⟨read, rest, hfits, htext⟩ := startsText_iff.mp hstart
      exact ⟨read, hfits, [], rest, htext.symm⟩
    · obtain ⟨read, hfits, hread⟩ := ih hlater
      exact ⟨read, hfits, List.infix_cons hread⟩

/-- What occurs in a text, in lower case, is a spelling of the pattern. -/
theorem exists_spelling_of_occurs (h : pattern.occurs text = true)
    (htext : ∀ c ∈ text, foldsFromOutside c = false) :
    ∃ spelling ∈ spellings pattern, spelling <:+: text.map Char.toLower := by
  obtain ⟨read, hfits, hread⟩ := exists_infix_of_occurs h
  exact ⟨_, hfits.mem_spellings fun c hc => htext c (hread.subset hc), hread.map Char.toLower⟩

end Pattern

/-! ## Substrings -/

variable {s text needle part : String}

theorem contains_iff : contains text needle = true ↔ needle.toList <:+: text.toList :=
  occursIn_iff ..

theorem toList_foldCase (s : String) : (foldCase s).toList = s.toList.map Char.toLower :=
  String.toList_ofList

/-- What a part of a text contains, the text contains. -/
theorem contains_foldCase_of_infix (h : contains (foldCase s) needle = true)
    (hpart : s.toList <:+: text.toList) : contains (foldCase text) needle = true := by
  rw [contains_iff, toList_foldCase] at h ⊢
  exact h.trans (hpart.map Char.toLower)

theorem contains_of_contains (h : contains text needle = true) (hpart : contains needle part = true) :
    contains text part = true :=
  contains_iff.mpr ((contains_iff.mp hpart).trans (contains_iff.mp h))

end PolicyAudit.Text
