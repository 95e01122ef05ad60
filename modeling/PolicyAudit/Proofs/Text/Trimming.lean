-- SUMMARY: A pattern occurs in a text just if it occurs in the text in lower case and without its ends.
import PolicyAudit.Proofs.Text.Pattern
import PolicyAudit.Text.Blank

/-! ## Letter case

A pattern takes no notice of the case of letters, so it occurs in a text just if it occurs in the text in
lower case. -/

namespace PolicyAudit.Text

variable {word read text : List Char} {p c : Char} {pattern : Pattern} {q : Char → Bool}

theorem toNat_toLower (c : Char) :
    c.toLower.toNat = if 65 ≤ c.toNat ∧ c.toNat ≤ 90 then c.toNat + 32 else c.toNat := by
  have hrange : (c.val ≥ 'A'.val ∧ c.val ≤ 'Z'.val) ↔ 65 ≤ c.toNat ∧ c.toNat ≤ 90 := Iff.rfl
  unfold Char.toLower
  by_cases h : 65 ≤ c.toNat ∧ c.toNat ≤ 90
  · have hsmall : c.val.toNat ≤ 90 := h.2
    have hdistance : (32 : UInt32).toNat = 32 := rfl
    have hadd : (c.val + 32).toNat = c.val.toNat + 32 := by
      rw [UInt32.toNat_add, hdistance]
      exact Nat.mod_eq_of_lt (by omega)
    rw [dif_pos (hrange.mpr h), if_pos h]
    exact hadd
  · rw [dif_neg (fun h' => h (hrange.mp h')), if_neg h]

theorem toLower_toLower (c : Char) : c.toLower.toLower = c.toLower := by
  apply Char.toNat_inj.mp
  rw [toNat_toLower c.toLower, if_neg]
  rw [toNat_toLower]
  split <;> omega

/-- Only letters of ASCII change. -/
theorem toLower_eq_iff_of_outside (hp : 127 < p.toNat) : c.toLower = p ↔ c = p := by
  rw [← Char.toNat_inj, ← Char.toNat_inj, toNat_toLower]
  split <;> omega

theorem matchesChar_toLower (p c : Char) : matchesChar p c.toLower = matchesChar p c := by
  have hlong : (c.toLower == '\u017f') = (c == '\u017f') := by
    rw [Bool.eq_iff_iff, beq_iff_eq, beq_iff_eq]
    exact toLower_eq_iff_of_outside (by decide)
  have hkelvin : (c.toLower == '\u212a') = (c == '\u212a') := by
    rw [Bool.eq_iff_iff, beq_iff_eq, beq_iff_eq]
    exact toLower_eq_iff_of_outside (by decide)
  rw [matchesChar, matchesChar, toLower_toLower, hlong, hkelvin]

theorem stripWord?_map_toLower (word text : List Char) :
    stripWord? word (text.map Char.toLower) = (stripWord? word text).map (List.map Char.toLower) := by
  induction word generalizing text with
  | nil => rfl
  | cons p word ih =>
    cases text with
    | nil => rfl
    | cons c text =>
      rw [List.map_cons, stripWord?, stripWord?, matchesChar_toLower]
      split
      · exact ih text
      · rfl

namespace Pattern

theorem startsText_map_toLower (pattern : Pattern) (text : List Char) :
    pattern.startsText (text.map Char.toLower) = pattern.startsText text := by
  induction pattern generalizing text with
  | nil => rfl
  | cons words pattern ih =>
    rw [startsText, startsText]
    congr 1
    funext word
    rw [stripWord?_map_toLower]
    cases stripWord? word.toList text with
    | none => rfl
    | some rest => exact ih rest

theorem occurs_map_toLower (pattern : Pattern) (text : List Char) :
    pattern.occurs (text.map Char.toLower) = pattern.occurs text := by
  induction text with
  | nil => rfl
  | cons c text ih =>
    rw [List.map_cons, occurs, occurs, ih, ← List.map_cons, startsText_map_toLower]

/-! ## The ends of a text

Characters that stand for none of those of a pattern may be taken off the ends of a text. -/

theorem occurs_iff : pattern.occurs text = true ↔ ∃ read, pattern.Fits read ∧ read <:+: text := by
  constructor
  · exact exists_infix_of_occurs
  · rintro ⟨read, hfits, before, after, rfl⟩
    induction before with
    | nil =>
      have hstarts : pattern.startsText (read ++ after) = true := startsText_iff.mpr ⟨read, after, hfits, rfl⟩
      rw [List.nil_append]
      cases htext : read ++ after with
      | nil => rwa [htext] at hstarts
      | cons c rest => rw [occurs, ← htext, hstarts, Bool.true_or]
    | cons c before ih =>
      rw [List.cons_append, List.cons_append, occurs, ih, Bool.or_true]

/-- Whether none of the characters of a pattern is of the given sort. -/
def lacks (pattern : Pattern) (q : Char → Bool) : Bool :=
  pattern.all fun words => words.all fun word => word.toList.all fun p => !q p

theorem lacks_iff : pattern.lacks q = true ↔
    ∀ words ∈ pattern, ∀ word ∈ words, ∀ p ∈ word.toList, q p = false := by
  simp only [lacks, List.all_eq_true, Bool.not_eq_true']

theorem Fits.lacks (h : pattern.Fits read) (hpattern : pattern.lacks q = true)
    (hq : ∀ p c, matchesChar p c = true → q c = true → q p = true) : ∀ c ∈ read, q c = false := by
  have hword : ∀ {word read}, ReadsAs word read → (∀ p ∈ word, q p = false) → ∀ c ∈ read, q c = false := by
    intro word read hreads hlacks
    induction hreads with
    | nil => exact fun c hc => absurd hc List.not_mem_nil
    | @cons p c word text hchar _ ih =>
      intro d hd
      rcases List.mem_cons.mp hd with rfl | hd
      · rw [Bool.eq_false_iff]
        intro hc
        exact Bool.false_ne_true ((hlacks p List.mem_cons_self).symm.trans (hq p d hchar hc))
      · exact ih (fun p hp => hlacks p (List.mem_cons_of_mem _ hp)) d hd
  rw [lacks_iff] at hpattern
  induction h with
  | nil => exact fun c hc => absurd hc List.not_mem_nil
  | @cons words rest word read more hmem hreads _ ih =>
    intro c hc
    rcases List.mem_append.mp hc with hfirst | hlater
    · exact hword hreads (hpattern words List.mem_cons_self word hmem) c hfirst
    · exact ih (fun words hwords => hpattern words (List.mem_cons_of_mem _ hwords)) c hlater

end Pattern

/-- A character that stands for a blank is that blank. -/
theorem isBlank_of_matchesChar (h : matchesChar p c = true) (hc : isBlank c = true) : isBlank p = true := by
  have hsame : c.toLower = c := by
    apply Char.toNat_inj.mp
    rw [toNat_toLower, if_neg]
    rintro ⟨hlow, hhigh⟩
    simp only [isBlank, Bool.or_eq_true, Bool.and_eq_true, decide_eq_true_eq, beq_iff_eq] at hc
    omega
  simp only [matchesChar, hsame, Bool.or_eq_true, Bool.and_eq_true, beq_iff_eq] at h
  rcases h with (rfl | ⟨-, rfl⟩) | ⟨-, rfl⟩
  · exact hc
  · exact absurd hc (by decide)
  · exact absurd hc (by decide)

/-- What has none of some characters is found as well when they are dropped in front. -/
theorem infix_dropWhile_iff (hne : read ≠ []) (hread : ∀ c ∈ read, q c = false) :
    read <:+: text.dropWhile q ↔ read <:+: text := by
  induction text with
  | nil => rfl
  | cons c text ih =>
    cases hc : q c with
    | false => rw [List.dropWhile_cons_of_neg (by simp [hc])]
    | true =>
      rw [List.dropWhile_cons_of_pos hc, ih, List.infix_cons_iff]
      refine ⟨.inr, fun h => h.resolve_left fun hstart => ?_⟩
      obtain ⟨first, rest, rfl⟩ := List.exists_cons_of_ne_nil hne
      obtain rfl := (List.cons_prefix_cons.mp hstart).1
      exact Bool.false_ne_true ((hread first List.mem_cons_self).symm.trans hc)

theorem infix_dropEnd_iff (hne : read ≠ []) (hread : ∀ c ∈ read, q c = false) :
    read <:+: (text.reverse.dropWhile q).reverse ↔ read <:+: text := by
  have hreverse : ∀ c ∈ read.reverse, q c = false := fun c hc => hread c (List.mem_reverse.mp hc)
  have hdrop : read.reverse <:+: text.reverse.dropWhile q ↔ read.reverse <:+: text.reverse :=
    infix_dropWhile_iff (by simpa using hne) hreverse
  rwa [← List.reverse_infix, List.reverse_reverse, List.reverse_infix] at hdrop

end PolicyAudit.Text
