-- SUMMARY: Word patterns that ignore letter case.

/-! ## Letters of either case

A pattern is written in lower case and matches letters of either case. Two characters outside ASCII
fold to ASCII letters, the long s and the Kelvin sign, and match those letters too. -/

namespace PolicyAudit.Text

/-- Whether a character of a text stands for the lower-case character `p` of a pattern. -/
def matchesChar (p c : Char) : Bool :=
  c.toLower == p || (p == 's' && c == '\u017f') || (p == 'k' && c == '\u212a')

/-- What follows a word at the start of a text. -/
def stripWord? : List Char → List Char → Option (List Char)
  | [], text => some text
  | _ :: _, [] => none
  | p :: word, c :: text => if matchesChar p c then stripWord? word text else none

/-- A pattern: a sequence of places, each filled by one of several words. -/
abbrev Pattern : Type := List (List String)

namespace Pattern

/-- Whether some text that fits the pattern stands at the start. -/
def startsText : Pattern → List Char → Bool
  | [], _ => true
  | words :: rest, text =>
    words.any fun word =>
      match stripWord? word.toList text with
      | some text => startsText rest text
      | none => false

/-- Whether some text that fits the pattern stands anywhere. -/
def occurs (pattern : Pattern) : List Char → Bool
  | [] => pattern.startsText []
  | c :: text => pattern.startsText (c :: text) || pattern.occurs text

/-- Whether some text that fits the pattern stands before the next line feed. -/
def occursOnLine (pattern : Pattern) : List Char → Bool
  | [] => pattern.startsText []
  | c :: text =>
    pattern.startsText (c :: text) || (c ≠ '\n' && pattern.occursOnLine text)

end Pattern

/-! ## What the searches find -/

/-- A text is a word, letter case aside. -/
inductive ReadsAs : List Char → List Char → Prop where
  | nil : ReadsAs [] []
  | cons {p c word text} : matchesChar p c = true → ReadsAs word text →
      ReadsAs (p :: word) (c :: text)

theorem stripWord?_eq_some_iff {word text rest : List Char} :
    stripWord? word text = some rest ↔ ∃ read, ReadsAs word read ∧ text = read ++ rest := by
  induction word generalizing text with
  | nil =>
    simp only [stripWord?, Option.some.injEq]
    constructor
    · rintro rfl
      exact ⟨[], .nil, rfl⟩
    · rintro ⟨read, hread, rfl⟩
      cases hread
      rfl
  | cons p word ih =>
    constructor
    · intro h
      cases text with
      | nil => cases h
      | cons c text =>
        simp only [stripWord?] at h
        split at h
        · next hchar =>
          obtain ⟨read, hread, rfl⟩ := ih.mp h
          exact ⟨c :: read, .cons hchar hread, rfl⟩
        · cases h
    · rintro ⟨read, hread, rfl⟩
      cases hread with
      | cons hchar hread =>
        simp only [List.cons_append, stripWord?, hchar, if_true]
        exact ih.mpr ⟨_, hread, rfl⟩

/-- A text is put together of words, one for each place of the pattern. -/
inductive Pattern.Fits : Pattern → List Char → Prop where
  | nil : Fits [] []
  | cons {words rest word read more} : word ∈ words → ReadsAs word.toList read →
      Fits rest more → Fits (words :: rest) (read ++ more)

namespace Pattern

theorem startsText_iff {pattern : Pattern} {text : List Char} :
    pattern.startsText text = true ↔ ∃ read rest, pattern.Fits read ∧ text = read ++ rest := by
  induction pattern generalizing text with
  | nil =>
    simp only [startsText, true_iff]
    exact ⟨[], text, .nil, rfl⟩
  | cons words pattern ih =>
    simp only [startsText, List.any_eq_true]
    constructor
    · rintro ⟨word, hword, h⟩
      split at h
      · next rest hstrip =>
        obtain ⟨read, hread, rfl⟩ := stripWord?_eq_some_iff.mp hstrip
        obtain ⟨more, rest, hmore, rfl⟩ := ih.mp h
        exact ⟨read ++ more, rest, .cons hword hread hmore, (List.append_assoc ..).symm⟩
      · cases h
    · rintro ⟨_, rest, hfits, rfl⟩
      cases hfits with
      | @cons _ _ word read more hword hread hmore =>
        have hstrip : stripWord? word.toList (read ++ more ++ rest) = some (more ++ rest) :=
          stripWord?_eq_some_iff.mpr ⟨read, hread, List.append_assoc ..⟩
        refine ⟨word, hword, ?_⟩
        rw [hstrip]
        exact ih.mpr ⟨more, rest, hmore, rfl⟩

theorem occursOnLine_iff {pattern : Pattern} {text : List Char} :
    pattern.occursOnLine text = true ↔
      ∃ gap read rest, '\n' ∉ gap ∧ pattern.Fits read ∧ text = gap ++ (read ++ rest) := by
  induction text with
  | nil =>
    simp only [occursOnLine, startsText_iff]
    constructor
    · rintro ⟨read, rest, hfits, h⟩
      exact ⟨[], read, rest, List.not_mem_nil, hfits, h⟩
    · rintro ⟨gap, read, rest, -, hfits, h⟩
      obtain ⟨rfl, -⟩ := List.append_eq_nil_iff.mp h.symm
      exact ⟨read, rest, hfits, h⟩
  | cons c text ih =>
    simp only [occursOnLine, Bool.or_eq_true, Bool.and_eq_true, decide_eq_true_eq, ih,
      startsText_iff]
    constructor
    · rintro (⟨read, rest, hfits, h⟩ | ⟨hc, gap, read, rest, hgap, hfits, rfl⟩)
      · exact ⟨[], read, rest, List.not_mem_nil, hfits, h⟩
      · refine ⟨c :: gap, read, rest, ?_, hfits, rfl⟩
        simp only [List.mem_cons, not_or]
        exact ⟨Ne.symm hc, hgap⟩
    · rintro ⟨gap, read, rest, hgap, hfits, h⟩
      cases gap with
      | nil => exact .inl ⟨read, rest, hfits, h⟩
      | cons g gap =>
        obtain ⟨rfl, rfl⟩ := List.cons.inj h
        simp only [List.mem_cons, not_or] at hgap
        exact .inr ⟨Ne.symm hgap.1, gap, read, rest, hgap.2, hfits, rfl⟩

end Pattern

end PolicyAudit.Text
