-- SUMMARY: Numerals, their grammar and the numbers they denote.
import PolicyAudit.Json.Value

/-! ## The grammar of numerals

A numeral is an optional minus sign, an integer part without superfluous zeros, an optional
fraction and an optional exponent. -/

namespace PolicyAudit

/-- A numeral, taken apart. The lists hold decimal digits. -/
structure Numeral where
  negative : Bool
  whole : List Char
  fraction : Option (List Char)
  /-- Whether the exponent is negative, and its digits. -/
  exponent : Option (Bool × List Char)
deriving Repr, DecidableEq

namespace Numeral

/-- Whether a character may stand in a numeral. -/
def isNumeralChar (c : Char) : Bool :=
  c.isDigit || c == '-' || c == '+' || c == '.' || c == 'e' || c == 'E'

/-- The digits of an exponent after its sign, which must be all that is left. -/
private def exponentDigits? (negative : Bool) (s : List Char) : Option (Bool × List Char) :=
  if s ≠ [] ∧ s.all Char.isDigit then some (negative, s) else none

/-- An exponent that takes up all of a text, or the lack of one. -/
private def exponent? : List Char → Option (Option (Bool × List Char))
  | [] => some none
  | c :: rest =>
    if c = 'e' ∨ c = 'E' then
      match rest with
      | '+' :: digits => (exponentDigits? false digits).map some
      | '-' :: digits => (exponentDigits? true digits).map some
      | digits => (exponentDigits? false digits).map some
    else none

/-- The numeral that a text without a sign is. -/
private def ofUnsigned? (negative : Bool) (text : List Char) : Option Numeral :=
  let whole := text.takeWhile Char.isDigit
  let rest := text.dropWhile Char.isDigit
  if whole = [] ∨ (whole.head? = some '0' ∧ whole.length ≠ 1) then none
  else
    match rest with
    | '.' :: rest =>
      let fraction := rest.takeWhile Char.isDigit
      if fraction = [] then none
      else
        (exponent? (rest.dropWhile Char.isDigit)).map fun e => ⟨negative, whole, some fraction, e⟩
    | rest => (exponent? rest).map fun e => ⟨negative, whole, none, e⟩

/-- The numeral that a text is. -/
def ofChars? : List Char → Option Numeral
  | '-' :: rest => ofUnsigned? true rest
  | text => ofUnsigned? false text

/-! ## The characters of a numeral -/

private theorem isNumeralChar_of_exponentDigits? {negative : Bool} {s : List Char}
    {e : Bool × List Char} (h : exponentDigits? negative s = some e) :
    ∀ c ∈ s, isNumeralChar c = true := by
  unfold exponentDigits? at h
  split at h
  · rename_i hs
    intro c hc
    simp [isNumeralChar, List.all_eq_true.1 hs.2 c hc]
  · cases h

private theorem isNumeralChar_of_exponent? {s : List Char} {e : Option (Bool × List Char)}
    (h : exponent? s = some e) : ∀ c ∈ s, isNumeralChar c = true := by
  cases s with
  | nil => simp
  | cons c rest =>
    simp only [exponent?] at h
    split at h
    · rename_i he
      have hc : isNumeralChar c = true := by rcases he with rfl | rfl <;> decide
      refine List.forall_mem_cons.2 ⟨hc, ?_⟩
      split at h
      all_goals
        obtain ⟨_, hdigits, -⟩ := Option.map_eq_some_iff.1 h
        have hrest := isNumeralChar_of_exponentDigits? hdigits
      · exact List.forall_mem_cons.2 ⟨by decide, hrest⟩
      · exact List.forall_mem_cons.2 ⟨by decide, hrest⟩
      · exact hrest
    · cases h

private theorem isNumeralChar_of_takeWhile {s : List Char}
    (h : ∀ c ∈ s.dropWhile Char.isDigit, isNumeralChar c = true) :
    ∀ c ∈ s, isNumeralChar c = true := by
  intro c hc
  rw [← List.takeWhile_append_dropWhile (p := Char.isDigit) (l := s), List.mem_append] at hc
  rcases hc with hc | hc
  · simp [isNumeralChar, List.all_eq_true.1 List.all_takeWhile c hc]
  · exact h c hc

private theorem ofUnsigned?_spec {negative : Bool} {s : List Char} {n : Numeral}
    (h : ofUnsigned? negative s = some n) :
    (∃ c rest, s = c :: rest ∧ c.isDigit = true) ∧ ∀ c ∈ s, isNumeralChar c = true := by
  simp only [ofUnsigned?] at h
  split at h
  · cases h
  · rename_i hwhole
    have hhead : ∃ c rest, s = c :: rest ∧ c.isDigit = true := by
      cases s with
      | nil => simp at hwhole
      | cons c rest =>
        refine ⟨c, rest, rfl, ?_⟩
        cases hc : c.isDigit with
        | true => rfl
        | false => simp [hc] at hwhole
    refine ⟨hhead, isNumeralChar_of_takeWhile ?_⟩
    split at h
    · rename_i rest hrest
      rw [hrest]
      split at h
      · cases h
      · obtain ⟨_, he, -⟩ := Option.map_eq_some_iff.1 h
        exact List.forall_mem_cons.2
          ⟨by decide, isNumeralChar_of_takeWhile (isNumeralChar_of_exponent? he)⟩
    · obtain ⟨_, he, -⟩ := Option.map_eq_some_iff.1 h
      exact isNumeralChar_of_exponent? he

/-- A numeral begins with a minus sign or a digit, and consists of characters of numerals. -/
theorem ofChars?_spec {s : List Char} {n : Numeral} (h : ofChars? s = some n) :
    (∃ c rest, s = c :: rest ∧ (c = '-' ∨ c.isDigit = true)) ∧
      ∀ c ∈ s, isNumeralChar c = true := by
  unfold ofChars? at h
  split at h
  · rename_i rest
    exact ⟨⟨'-', rest, rfl, .inl rfl⟩,
      List.forall_mem_cons.2 ⟨by decide, (ofUnsigned?_spec h).2⟩⟩
  · obtain ⟨⟨c, rest, rfl, hc⟩, hchars⟩ := ofUnsigned?_spec h
    exact ⟨⟨c, rest, rfl, .inr hc⟩, hchars⟩

/-! ## The number of a numeral

An integer of 64 bits is kept exactly. Any other numeral is a double: its leading digits, as many
as fit 64 bits, are rounded to a double, which is then scaled by a power of ten. -/

/-- The value of a decimal digit. -/
private def digitValue (c : Char) : Nat := c.toNat - '0'.toNat

/-- The bound on exact integers. -/
private def wordSize : Nat := 0x10000000000000000

/-- Takes digits into `acc` as long as it stays below 2^64, and says how many were left. -/
def takeDigits (acc : Nat) : List Char → Nat × Nat
  | [] => (acc, 0)
  | c :: rest =>
    let next := acc * 10 + digitValue c
    if next < wordSize then takeDigits next rest else (acc, rest.length + 1)

/-- A power of ten as the nearest double. -/
private def powerOfTen (n : Nat) : Float := Float.ofScientific 1 false n

/-- The largest exponent of a power of ten that is a double. -/
private def largestPower : Nat := 308

/-- A double divided by a power of ten, in steps that are powers of ten themselves. -/
def scaleDown (x : Float) (n : Nat) : Float :=
  if n ≤ largestPower then x / powerOfTen n
  else if x == 0 then x
  else scaleDown (x / powerOfTen largestPower) (n - largestPower)
termination_by n
decreasing_by simp only [largestPower] at *; omega

/-- A double times a power of ten, unless that is too large for a double. -/
def scale? (x : Float) (exponent : Int) : Option Float :=
  if exponent < 0 then some (scaleDown x exponent.natAbs)
  else if exponent ≤ largestPower then
    let scaled := x * powerOfTen exponent.toNat
    if scaled.isInf then none else some scaled
  else if x == 0 then some x
  else none

/-- The value of a list of digits. -/
private def natOfDigits (digits : List Char) : Nat :=
  digits.foldl (fun acc c => acc * 10 + digitValue c) 0

/-- The bound on written exponents: a longer exponent leads to zero or is too large. -/
private def exponentBound : Nat := 0x80000000

/-- The exponents that scaling can be asked for. -/
private def clampExponent (e : Int) : Int := max (-(exponentBound : Int)) (min e (exponentBound - 1))

/-- The double with the given leading digits and powers of ten. -/
private def float? (n : Numeral) (significand : Nat) (shift : Int) : Option Float :=
  match n.exponent with
  | none => scale? (Float.ofNat significand) shift
  | some (negative, digits) =>
    let written := natOfDigits digits
    if exponentBound ≤ written then
      if significand ≠ 0 ∧ ¬negative then none else some 0
    else
      let exponent : Int := if negative then shift - written else shift + written
      scale? (Float.ofNat significand) (clampExponent exponent)

/-- The number that a numeral denotes, unless it is too large for a double. -/
def number? (n : Numeral) : Option Number :=
  let (whole, dropped) := takeDigits 0 n.whole
  let signed (x : Float) : Number := .float (if n.negative then -x else x)
  match n.fraction, n.exponent with
  | none, none =>
    if dropped = 0 ∧ ¬n.negative then some (.int whole)
    else if dropped = 0 ∧ 0 < whole ∧ whole ≤ 0x8000000000000000 then some (.int (-whole))
    else (float? n whole dropped).map signed
  | none, some _ => (float? n whole dropped).map signed
  | some digits, _ =>
    let (significand, ignored) := takeDigits whole digits
    let shift : Int := (dropped : Int) - ((digits.length - ignored : Nat) : Int)
    (float? n significand shift).map signed

end Numeral

/-- The number that a text is a numeral of. -/
def Number.ofChars? (text : List Char) : Option Number :=
  (Numeral.ofChars? text).bind Numeral.number?

/-! ## Integers

An integer of 64 bits, signed or unsigned, is read back from its decimal digits. -/

namespace Numeral

variable {digits : List Char} {acc n : Nat}

private theorem le_ofDigitChars (digits : List Char) (acc : Nat) :
    acc ≤ Nat.ofDigitChars 10 digits acc := by
  induction digits generalizing acc with
  | nil => exact Nat.le_refl acc
  | cons c rest ih =>
    rw [Nat.ofDigitChars_cons]
    have hnext := ih (10 * acc + (c.toNat - '0'.toNat))
    omega

/-- No digit of a number of 64 bits is left. -/
private theorem takeDigits_of_lt (h : Nat.ofDigitChars 10 digits acc < wordSize) :
    takeDigits acc digits = (Nat.ofDigitChars 10 digits acc, 0) := by
  induction digits generalizing acc with
  | nil => rfl
  | cons c rest ih =>
    rw [Nat.ofDigitChars_cons, Nat.mul_comm] at h ⊢
    have hnext : acc * 10 + digitValue c < wordSize := Nat.lt_of_le_of_lt (le_ofDigitChars rest _) h
    rw [takeDigits, if_pos hnext]
    exact ih h

/-- Only zero is written with a zero in front. -/
private theorem head?_toDigits (hn : 0 < n) : (Nat.toDigits 10 n).head? ≠ some '0' := by
  induction n using Nat.strongRecOn with
  | _ n ih =>
    rw [Nat.toDigits_eq_if (by decide)]
    split
    · next hlt =>
      have hdigits : ∀ n < 10, 0 < n → n.digitChar ≠ '0' := by decide
      simpa using hdigits n hlt hn
    · next hge =>
      have hquotient : 0 < n / 10 := by omega
      have hhead := List.head?_eq_some_head (Nat.toDigits_ne_nil (b := 10) (n := n / 10))
      rw [List.head?_append, hhead, Option.some_or, ← hhead]
      exact ih (n / 10) (by omega) hquotient

private theorem ofUnsigned?_toDigits (negative : Bool) (n : Nat) :
    ofUnsigned? negative (Nat.toDigits 10 n) = some ⟨negative, Nat.toDigits 10 n, none, none⟩ := by
  have hdigits : ∀ c ∈ Nat.toDigits 10 n, c.isDigit = true := fun c hc =>
    Nat.isDigit_of_mem_toDigits (by decide) (by decide) hc
  have hwhole : ¬(Nat.toDigits 10 n = [] ∨
      (Nat.toDigits 10 n).head? = some '0' ∧ (Nat.toDigits 10 n).length ≠ 1) := by
    rintro (hnil | ⟨hzero, hlength⟩)
    · exact Nat.toDigits_ne_nil hnil
    · obtain rfl : n = 0 := Nat.eq_zero_of_not_pos fun hpos => head?_toDigits hpos hzero
      exact hlength rfl
  have htake : (Nat.toDigits 10 n ++ []).takeWhile Char.isDigit = Nat.toDigits 10 n ++ [] :=
    List.takeWhile_append_of_pos hdigits
  have hdrop : (Nat.toDigits 10 n ++ []).dropWhile Char.isDigit = [] := List.dropWhile_append_of_pos hdigits
  rw [List.append_nil] at htake hdrop
  simp only [ofUnsigned?, htake, hdrop, if_neg hwhole, exponent?, Option.map_some]

private theorem takeDigits_toDigits (h : n < wordSize) : takeDigits 0 (Nat.toDigits 10 n) = (n, 0) := by
  have hvalue : Nat.ofDigitChars 10 (Nat.toDigits 10 n) 0 = n := Nat.ofDigitChars_ten_toDigits
  rw [takeDigits_of_lt (hvalue.symm ▸ h), hvalue]

end Numeral

/-- The digits of a natural number below 2^64. -/
theorem Number.ofChars?_nat {n : Nat} (h : n < 0x10000000000000000) :
    Number.ofChars? (toString n).toList = some (.int n) := by
  have hdigits : (toString n).toList = Nat.toDigits 10 n := Nat.toList_repr
  have hunsigned : Numeral.ofChars? (Nat.toDigits 10 n) = Numeral.ofUnsigned? false (Nat.toDigits 10 n) := by
    unfold Numeral.ofChars?
    split
    · next rest hminus =>
      have hdigit : '-' ∈ Nat.toDigits 10 n := hminus ▸ List.mem_cons_self
      exact absurd (Nat.isDigit_of_mem_toDigits (by decide) (by decide) hdigit) (by decide)
    · rfl
  rw [Number.ofChars?, hdigits, hunsigned, Numeral.ofUnsigned?_toDigits, Option.bind_some, Numeral.number?,
    Numeral.takeDigits_toDigits h]
  rfl

/-- A minus sign and the digits of a natural number up to 2^63. -/
theorem Number.ofChars?_neg {n : Nat} (hpos : 0 < n) (h : n ≤ 0x8000000000000000) :
    Number.ofChars? ('-' :: (toString n).toList) = some (.int (-n)) := by
  have hdigits : (toString n).toList = Nat.toDigits 10 n := Nat.toList_repr
  have hword : n < 0x10000000000000000 := Nat.lt_of_le_of_lt h (by decide)
  have hsign : Numeral.ofChars? ('-' :: Nat.toDigits 10 n) =
      Numeral.ofUnsigned? true (Nat.toDigits 10 n) := rfl
  rw [Number.ofChars?, hdigits, hsign, Numeral.ofUnsigned?_toDigits, Option.bind_some, Numeral.number?,
    Numeral.takeDigits_toDigits hword]
  simp [hpos, h]

/-- What is written for an integer of 64 bits, signed or unsigned, is a numeral of it. -/
theorem Number.ofChars?_toString {value : Int} (hlow : -0x8000000000000000 ≤ value)
    (hhigh : value < 0x10000000000000000) : Number.ofChars? (toString value).toList = some (.int value) := by
  cases value with
  | ofNat n => exact ofChars?_nat (Int.ofNat_lt.mp hhigh)
  | negSucc n =>
    have htext : (toString (Int.negSucc n)).toList = '-' :: (toString (n + 1)).toList := by
      rw [Int.toString_eq_repr, Int.repr, String.toList_append]
      rfl
    rw [htext, ofChars?_neg (Nat.succ_pos n) (by omega)]
    rfl

end PolicyAudit
