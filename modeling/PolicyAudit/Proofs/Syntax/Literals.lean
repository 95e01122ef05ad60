-- SUMMARY: The extent of strings and numbers in a text.
import PolicyAudit.Proofs.Syntax.Grammar

/-! ## Strings -/

namespace PolicyAudit

namespace Quotation

/-- A closed string ends with a quotation mark. -/
theorem exists_of_closed {s : List Char} (h : (scan s).closed = true) :
    ∃ rest, s = (scan s).body ++ '"' :: rest := by
  fun_induction scan s with
  | case1 => simp at h
  | case2 rest => exact ⟨rest, rfl⟩
  | case3 => simp at h
  | case4 c rest ih =>
    obtain ⟨tail, htail⟩ := ih h
    exact ⟨tail, by simp [cons, ← htail]⟩
  | case5 c rest _ _ _ ih =>
    obtain ⟨tail, htail⟩ := ih h
    exact ⟨tail, by simp [cons, ← htail]⟩

/-- A character that neither ends a string nor takes another one along. -/
private theorem scan_cons {c : Char} (hquote : c ≠ '"') (hfeed : c ≠ '\n') (hslash : c ≠ '\\')
    (s : List Char) : scan (c :: s) = (scan s).cons c := by
  rw [scan]
  · exact hquote
  · exact hfeed
  · intro d rest h
    exact absurd h hslash

private theorem scan_hex {c : Char} (h : (Quoted.hexValue? c).isSome = true) (s : List Char) :
    scan (c :: s) = (scan s).cons c := by
  apply scan_cons
  all_goals
    rintro rfl
    revert h
    decide

/-- An escape that names a UTF-16 unit does not end a string. -/
private theorem scan_unit {a b c d : Char} {n : Nat} (h : Quoted.unit? a b c d = some n)
    (s : List Char) :
    scan ('\\' :: 'u' :: a :: b :: c :: d :: s) =
      ⟨'\\' :: 'u' :: a :: b :: c :: d :: (scan s).body, (scan s).closed⟩ := by
  simp only [Quoted.unit?, Option.bind_eq_bind, Option.bind_eq_some_iff] at h
  obtain ⟨_, ha, _, hb, _, hc, _, hd, -⟩ := h
  rw [scan, scan_hex (by simp [ha]), scan_hex (by simp [hb]), scan_hex (by simp [hc]),
    scan_hex (by simp [hd])]
  rfl

/-- A string literal is one string, whatever follows it. -/
theorem scan_of_decode {body text : List Char} (h : Quoted.decode body = some text)
    (s : List Char) : scan (body ++ '"' :: s) = ⟨body, true⟩ := by
  fun_induction Quoted.decode body generalizing text with
  | case1 => rfl
  | case4 a b c d high hunit _ e f g i rest low hunit' _ _ =>
    rename_i ih
    obtain ⟨tail, htail, -⟩ := Option.map_eq_some_iff.1 h
    simp only [List.cons_append, scan_unit hunit, scan_unit hunit', ih htail]
  | case8 a b c d rest high hunit _ _ ih =>
    obtain ⟨tail, htail, -⟩ := Option.map_eq_some_iff.1 h
    simp only [List.cons_append, scan_unit hunit, ih htail]
  | case10 c rest _ e _ ih =>
    obtain ⟨tail, htail, -⟩ := Option.map_eq_some_iff.1 h
    simp only [List.cons_append, scan, ih htail]
    rfl
  | case12 c rest _ _ hc ih =>
    obtain ⟨tail, htail, -⟩ := Option.map_eq_some_iff.1 h
    simp only [not_or] at hc
    have hfeed : c ≠ '\n' := by
      rintro rfl
      exact hc.2.2 (by decide)
    rw [List.cons_append, scan_cons hc.1 hfeed hc.2.1, ih htail]
    rfl
  | _ => simp at h

end Quotation

/-! ## Numbers -/

/-- A number begins with a minus sign or a digit, and consists of characters of numerals. -/
theorem Number.ofChars?_spec {w : List Char} {n : Number} (h : Number.ofChars? w = some n) :
    (∃ c rest, w = c :: rest ∧ (c = '-' ∨ c.isDigit = true)) ∧
      ∀ c ∈ w, Numeral.isNumeralChar c = true := by
  obtain ⟨_, hnumeral, -⟩ := Option.bind_eq_some_iff.1 h
  exact Numeral.ofChars?_spec hnumeral

/-- Whether a number that ends here cannot go on. -/
def EndsNumber (s : List Char) : Prop := ∀ c ∈ s.head?, Numeral.isNumeralChar c = false

theorem takeWhile_isNumeralChar {w s : List Char} (hw : ∀ c ∈ w, Numeral.isNumeralChar c = true)
    (hs : EndsNumber s) : (w ++ s).takeWhile Numeral.isNumeralChar = w := by
  rw [List.takeWhile_append_of_pos hw]
  cases s with
  | nil => simp
  | cons c s => simp [hs c rfl]

/-! ## The first character of a value -/

/-- The characters that values begin with. -/
def beginsValue (c : Char) : Bool :=
  c == '{' || c == '[' || c == '"' || c == '-' || c.isDigit || c == 't' || c == 'f' || c == 'n'

theorem Spells.exists_head {depth : Nat} {value : Json} {w : List Char}
    (h : Spells depth (.value value) w) : ∃ c rest, w = c :: rest ∧ beginsValue c = true := by
  cases h with
  | scalar _ hw =>
    cases hw with
    | null => exact ⟨'n', _, rfl, by decide⟩
    | true => exact ⟨'t', _, rfl, by decide⟩
    | false => exact ⟨'f', _, rfl, by decide⟩
    | number hn =>
      obtain ⟨⟨c, rest, rfl, hc⟩, -⟩ := Number.ofChars?_spec hn
      rcases hc with rfl | hc
      · exact ⟨'-', rest, rfl, by decide⟩
      · exact ⟨c, rest, rfl, by simp [beginsValue, hc]⟩
    | string => exact ⟨'"', _, rfl, by decide⟩
  | array => exact ⟨'[', _, rfl, by decide⟩
  | object => exact ⟨'{', _, rfl, by decide⟩

theorem ne_of_beginsValue {c d : Char} (hc : beginsValue c = true) (hd : beginsValue d = false) :
    c ≠ d := by
  rintro rfl
  simp [hc] at hd

end PolicyAudit
