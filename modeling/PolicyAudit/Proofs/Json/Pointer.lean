-- SUMMARY: What a path comes to when its pointer is read.
import Mathlib.Logic.Basic
import PolicyAudit.Json.Pointer

/-! ## Pieces of a written text -/

namespace PolicyAudit

namespace Text

variable {mark : Char} {piece : List Char}

theorem pieces_of_not_mem (h : mark ∉ piece) : pieces mark piece = [piece] := by
  induction piece with
  | nil => rfl
  | cons c piece ih =>
    obtain ⟨hc, hpiece⟩ := not_or.mp (mt List.mem_cons.mpr h)
    simp only [pieces, if_neg (Ne.symm hc), ih hpiece]

theorem pieces_append_mark (h : mark ∉ piece) (rest : List Char) :
    pieces mark (piece ++ mark :: rest) = piece :: pieces mark rest := by
  induction piece with
  | nil => simp [pieces]
  | cons c piece ih =>
    obtain ⟨hc, hpiece⟩ := not_or.mp (mt List.mem_cons.mpr h)
    simp only [List.cons_append, pieces, if_neg (Ne.symm hc), ih hpiece]

end Text

/-! ## Names

The two escapes are taken back one after the other: first the slashes, then the tildes. -/

namespace Pointer

variable {token name : List Char} {index : Nat} {path : Path}

theorem slash_not_mem_escape (name : List Char) : '/' ∉ escape name := by
  fun_induction escape name <;> simp_all [eq_comm]

theorem unescapeSlash_cons {c : Char} (h : c ≠ '~') (rest : List Char) :
    unescapeSlash (c :: rest) = c :: unescapeSlash rest := by
  rw [unescapeSlash]
  exact fun _ hc => absurd hc h

theorem unescapeTilde_cons {c : Char} (h : c ≠ '~') (rest : List Char) :
    unescapeTilde (c :: rest) = c :: unescapeTilde rest := by
  rw [unescapeTilde]
  exact fun _ hc => absurd hc h

/-- Once the slashes are back, only the tildes are still escaped. -/
theorem unescapeSlash_escape (name : List Char) :
    unescapeSlash (escape name) = name.flatMap fun c => if c = '~' then ['~', '0'] else [c] := by
  fun_induction escape name with
  | case1 => rfl
  | case2 rest ih => simp [unescapeSlash, ih]
  | case3 rest ih => simp [unescapeSlash, ih]
  | case4 c rest htilde hslash ih =>
    rw [unescapeSlash_cons htilde, ih, List.flatMap_cons, if_neg htilde, List.singleton_append]

theorem unescapeTilde_flatMap (name : List Char) :
    unescapeTilde (name.flatMap fun c => if c = '~' then ['~', '0'] else [c]) = name := by
  induction name with
  | nil => rfl
  | cons c name ih =>
    by_cases hc : c = '~'
    · simpa [hc, unescapeTilde] using ih
    · rw [List.flatMap_cons, if_neg hc, List.singleton_append, unescapeTilde_cons hc, ih]

theorem unescape_escape (name : List Char) : unescape (escape name) = name := by
  rw [unescape, unescapeSlash_escape, unescapeTilde_flatMap]

theorem unescape_of_not_mem (h : '~' ∉ token) : unescape token = token := by
  have hboth : unescapeSlash token = token ∧ unescapeTilde token = token := by
    induction token with
    | nil => exact ⟨rfl, rfl⟩
    | cons c token ih =>
      obtain ⟨hc, htoken⟩ := not_or.mp (mt List.mem_cons.mpr h)
      obtain ⟨hslash, htilde⟩ := ih htoken
      rw [unescapeSlash_cons (Ne.symm hc), unescapeTilde_cons (Ne.symm hc), hslash, htilde]
      exact ⟨rfl, rfl⟩
  rw [unescape, hboth.1, hboth.2]

/-! ## Positions -/

/-- A text of digits, one at least, that denotes a number of 64 bits. -/
def IsNumeral (token : List Char) : Prop :=
  (token ≠ [] ∧ ∀ c ∈ token, c.isDigit = true) ∧
    Nat.ofDigitChars 10 token 0 < 0x10000000000000000

theorem word?_eq_some_iff :
    word? token = some index ↔ IsNumeral token ∧ Nat.ofDigitChars 10 token 0 = index := by
  have hvalue : token.foldl (fun acc c => acc * 10 + (c.toNat - '0'.toNat)) 0 =
      Nat.ofDigitChars 10 token 0 := by
    simp only [Nat.ofDigitChars, Nat.mul_comm]
  simp only [word?, hvalue, List.all_eq_true, Option.ite_none_right_eq_some, Option.some.injEq,
    IsNumeral, and_assoc]

theorem isSome_word?_iff : (word? token).isSome = true ↔ IsNumeral token := by
  simp only [Option.isSome_iff_exists, word?_eq_some_iff, exists_and_left, exists_eq', and_true]

instance (token : List Char) : Decidable (IsNumeral token) := decidable_of_iff _ isSome_word?_iff

theorem word?_of_not_isNumeral (h : ¬ IsNumeral token) : word? token = none :=
  Option.not_isSome_iff_eq_none.mp (mt isSome_word?_iff.mp h)

/-- What is no numeral is empty, has something in it that is no digit, or denotes too large a number. -/
theorem not_isNumeral_iff :
    ¬ IsNumeral token ↔ token = [] ∨ (∃ c ∈ token, c.isDigit = false) ∨
      0x10000000000000000 ≤ Nat.ofDigitChars 10 token 0 := by
  simp only [IsNumeral, not_and_or, not_not, not_forall, exists_prop, Bool.not_eq_true, Nat.not_lt, or_assoc]

theorem isDigit_of_mem_toString {c : Char} (h : c ∈ (toString index).toList) :
    c.isDigit = true := by
  have hdigit : c ∈ Nat.toDigits 10 index := Nat.toList_repr ▸ h
  exact Nat.isDigit_of_mem_toDigits (by decide) (by decide) hdigit

theorem word?_toString (h : index < 0x10000000000000000) :
    word? (toString index).toList = some index := by
  have hne : (toString index).toList ≠ [] := Nat.toList_repr ▸ Nat.toDigits_ne_nil
  have hvalue : Nat.ofDigitChars 10 (toString index).toList 0 = index :=
    Nat.toList_repr ▸ Nat.ofDigitChars_ten_toDigits
  exact word?_eq_some_iff.mpr
    ⟨⟨⟨hne, fun c => isDigit_of_mem_toString⟩, hvalue.symm ▸ h⟩, hvalue⟩

/-! ## Paths

The written form of a path does not say which of its keys are names. A name that is a numeral is taken for
a position, and everything else comes back. -/

/-- A path without a name that is read as a position. -/
def Unambiguous (path : Path) : Prop := ∀ name, .name name ∈ path → ¬ IsNumeral name.toList

@[simp] theorem unambiguous_nil : Unambiguous [] := nofun

@[simp] theorem unambiguous_cons_name (name : String) (path : Path) :
    Unambiguous (.name name :: path) ↔ ¬ IsNumeral name.toList ∧ Unambiguous path := by
  simp only [Unambiguous, List.mem_cons, Key.name.injEq, forall_eq_or_imp]

@[simp] theorem unambiguous_cons_index (index : Nat) (path : Path) :
    Unambiguous (.index index :: path) ↔ Unambiguous path := by
  simp only [Unambiguous, List.mem_cons, reduceCtorEq, false_or]

@[simp] theorem unambiguous_append (path more : Path) :
    Unambiguous (path ++ more) ↔ Unambiguous path ∧ Unambiguous more := by
  simp only [Unambiguous, List.mem_append, or_imp, forall_and]

theorem key_writeKey_of_isNumeral {name : String} (h : IsNumeral name.toList) :
    key (writeKey (.name name)) = .index (Nat.ofDigitChars 10 name.toList 0) := by
  simp only [key, writeKey, unescape_escape, word?_eq_some_iff.mpr ⟨h, rfl⟩]

theorem key_writeKey_of_not_isNumeral {name : String} (h : ¬ IsNumeral name.toList) :
    key (writeKey (.name name)) = .name name := by
  simp only [key, writeKey, unescape_escape, word?_of_not_isNumeral h, String.ofList_toList]

/-- A name comes back unless it is a numeral. -/
theorem key_writeKey_name_iff {name : String} :
    key (writeKey (.name name)) = .name name ↔ ¬ IsNumeral name.toList := by
  refine ⟨fun h hnumeral => ?_, key_writeKey_of_not_isNumeral⟩
  rw [key_writeKey_of_isNumeral hnumeral] at h
  cases h

theorem key_writeKey_index (h : index < 0x10000000000000000) :
    key (writeKey (.index index)) = .index index := by
  have htilde : '~' ∉ (toString index).toList := by
    intro hmem
    exact absurd (isDigit_of_mem_toString hmem) (by decide)
  simp only [key, writeKey, unescape_of_not_mem htilde, word?_toString h]

theorem slash_not_mem_writeKey (key : Key) : '/' ∉ writeKey key := by
  cases key with
  | name name => exact slash_not_mem_escape name.toList
  | index index =>
    intro hmem
    exact absurd (isDigit_of_mem_toString hmem) (by decide)

theorem pieces_flatMap_writeKey {piece : List Char} (h : '/' ∉ piece) (path : Path) :
    Text.pieces '/' (piece ++ path.flatMap fun key => '/' :: writeKey key) =
      piece :: path.map writeKey := by
  induction path generalizing piece with
  | nil => simpa using Text.pieces_of_not_mem h
  | cons key path ih =>
    rw [List.flatMap_cons, List.cons_append, Text.pieces_append_mark h,
      ih (slash_not_mem_writeKey key), List.map_cons]

theorem read_write (path : Path) : read (write path) = path.map fun k => key (writeKey k) := by
  have htokens := pieces_flatMap_writeKey List.not_mem_nil path
  rw [List.nil_append] at htokens
  rw [read, write, String.toList_ofList, tokens, htokens, List.tail_cons, List.map_map]
  rfl

/-- Keys come back one by one. -/
theorem read_write_eq_self_iff_forall_mem :
    read (write path) = path ↔ ∀ k ∈ path, key (writeKey k) = k := by
  rw [read_write, ← List.map_inj_left, List.map_id']

theorem read_write_of_unambiguous (h : Unambiguous path)
    (hindices : ∀ index, .index index ∈ path → index < 0x10000000000000000) :
    read (write path) = path := by
  refine read_write_eq_self_iff_forall_mem.mpr fun k hk => ?_
  cases k with
  | name name => exact key_writeKey_of_not_isNumeral (h name hk)
  | index index => exact key_writeKey_index (hindices index hk)

/-- **Pointers.** A path whose positions fit 64 bits comes back from its pointer if and only if no name in it is a
numeral, that is a row of digits, one at least, whose number fits 64 bits. Name by name: one comes back if and only if
it is empty, has something in it that is no digit, such as a slash, a tilde or a plus sign, or denotes too large a
number. -/
theorem read_write_eq_self_iff (hindices : ∀ index, .index index ∈ path → index < 0x10000000000000000) :
    (read (write path) = path ↔ ∀ name, .name name ∈ path → ¬ IsNumeral name.toList) ∧
    ∀ (i : Nat) (name : String), path[i]? = some (.name name) →
      ((read (write path))[i]? = some (.name name) ↔
        name = "" ∨ (∃ c ∈ name.toList, c.isDigit = false) ∨
          0x10000000000000000 ≤ Nat.ofDigitChars 10 name.toList 0) := by
  refine ⟨?_, fun i name hname => ?_⟩
  · refine ⟨fun h name hname => ?_, fun h => read_write_of_unambiguous h hindices⟩
    exact key_writeKey_name_iff.mp (read_write_eq_self_iff_forall_mem.mp h _ hname)
  · rw [read_write, List.getElem?_map, hname, Option.map_some, Option.some.injEq, key_writeKey_name_iff,
      not_isNumeral_iff, String.toList_eq_nil_iff]

/-- Marks and escapes in names, a number with a sign, and one that does not fit 64 bits beside a position that does.
The last name is a numeral in spite of its zeros. -/
theorem read_write_eq_self_iff_of_marks :
    let path : Path := [.name "", .name "a/b", .name "~", .name "~0", .name "/~1", .name "~01", .name "+7",
      .name "18446744073709551616", .index 18446744073709551615]
    (∀ index, .index index ∈ path ++ [.name "007"] → index < 0x10000000000000000) ∧
      read (write path) = path ∧ read (write (path ++ [.name "007"])) ≠ path ++ [.name "007"] := by
  intro path
  have hindices : ∀ index, .index index ∈ path ++ [.name "007"] → index < 0x10000000000000000 := by simp [path]
  have hnames : ∀ name, .name name ∈ path → ¬ IsNumeral name.toList := by
    simp only [path, List.mem_cons, Key.name.injEq, List.not_mem_nil, reduceCtorEq, or_false, forall_eq_or_imp,
      forall_eq]
    decide +kernel
  refine ⟨hindices, ?_, fun h => ?_⟩
  · exact (read_write_eq_self_iff fun index hindex => hindices index (List.mem_append_left _ hindex)).1.mpr hnames
  · exact (read_write_eq_self_iff hindices).1.mp h "007" (by simp) (by decide +kernel)

end Pointer

end PolicyAudit
