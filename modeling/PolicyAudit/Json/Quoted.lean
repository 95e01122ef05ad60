-- SUMMARY: Quoted strings, their escapes and their reading.

/-! ## Quoted strings

Inside quotes a quotation mark, a backslash and the control characters below U+0020 are written as
escapes, and every other character stands for itself. Reading accepts all JSON escapes: the short
ones, and four hexadecimal digits that name a UTF-16 unit, where a high surrogate needs a low one
after it. -/

namespace PolicyAudit.Quoted

/-- The hexadecimal digit of a number below sixteen, in lower case. -/
private def hexDigit (n : Nat) : Char :=
  if n < 10 then Char.ofNat ('0'.toNat + n) else Char.ofNat ('a'.toNat + n - 10)

/-- The written form of one character. -/
def escape (c : Char) : List Char :=
  if c = '"' then ['\\', '"']
  else if c = '\\' then ['\\', '\\']
  else if c = '\x08' then ['\\', 'b']
  else if c = '\t' then ['\\', 't']
  else if c = '\n' then ['\\', 'n']
  else if c = '\x0c' then ['\\', 'f']
  else if c = '\r' then ['\\', 'r']
  else if c.toNat < 0x20 then
    ['\\', 'u', '0', '0', hexDigit (c.toNat / 16), hexDigit (c.toNat % 16)]
  else [c]

/-- The written form of a text, without the quotation marks. -/
def encode (s : List Char) : List Char := s.flatMap escape

/-! ## Reading -/

/-- The value of a hexadecimal digit of either case. -/
def hexValue? (c : Char) : Option Nat :=
  if '0' ≤ c ∧ c ≤ '9' then some (c.toNat - '0'.toNat)
  else if 'a' ≤ c ∧ c ≤ 'f' then some (c.toNat - 'a'.toNat + 10)
  else if 'A' ≤ c ∧ c ≤ 'F' then some (c.toNat - 'A'.toNat + 10)
  else none

/-- The UTF-16 unit that four hexadecimal digits name. -/
def unit? (a b c d : Char) : Option Nat := do
  let a ← hexValue? a
  let b ← hexValue? b
  let c ← hexValue? c
  let d ← hexValue? d
  return ((a * 16 + b) * 16 + c) * 16 + d

/-- The character that a short escape names. -/
def shortEscape? (c : Char) : Option Char :=
  if c = '"' ∨ c = '\\' ∨ c = '/' then some c
  else if c = 'b' then some '\x08'
  else if c = 'f' then some '\x0c'
  else if c = 'n' then some '\n'
  else if c = 'r' then some '\r'
  else if c = 't' then some '\t'
  else none

/-- The text that a written form stands for, where it is one. -/
def decode : List Char → Option (List Char)
  | [] => some []
  | '\\' :: 'u' :: a :: b :: c :: d :: rest =>
    match unit? a b c d with
    | none => none
    | some high =>
      if 0xD800 ≤ high ∧ high < 0xDC00 then
        match rest with
        | '\\' :: 'u' :: e :: f :: g :: h :: rest =>
          match unit? e f g h with
          | none => none
          | some low =>
            if 0xDC00 ≤ low ∧ low < 0xE000 then
              let code := 0x10000 + (high - 0xD800) * 0x400 + (low - 0xDC00)
              (decode rest).map (Char.ofNat code :: ·)
            else none
        | _ => none
      else if 0xDC00 ≤ high ∧ high < 0xE000 then none
      else (decode rest).map (Char.ofNat high :: ·)
  | '\\' :: c :: rest =>
    match shortEscape? c with
    | none => none
    | some e => (decode rest).map (e :: ·)
  | c :: rest =>
    if c = '"' ∨ c = '\\' ∨ c.toNat < 0x20 then none else (decode rest).map (c :: ·)

/-! ## Reading what was written -/

theorem unit?_hexDigit {n : Nat} (h : n < 0x20) :
    unit? '0' '0' (hexDigit (n / 16)) (hexDigit (n % 16)) = some n := by
  revert n
  decide

theorem decode_escape (c : Char) (rest : List Char) :
    decode (escape c ++ rest) = (decode rest).map (c :: ·) := by
  unfold escape
  iterate 7
    split
    · next hc => subst hc; rfl
  split
  · next hcontrol =>
    have hunit := unit?_hexDigit hcontrol
    simp only [List.cons_append, List.nil_append, decode, hunit]
    rw [if_neg (by omega), if_neg (by omega), Char.ofNat_toNat]
  · next hquote hslash _ _ _ _ _ hcontrol =>
    rw [List.singleton_append, decode]
    · rw [if_neg (by simp [hquote, hslash, hcontrol])]
    · rintro _ _ _ _ _ rfl
      exact absurd rfl hslash
    · rintro _ _ rfl
      exact absurd rfl hslash

/-- What is written for a text is read back as the text. -/
theorem decode_encode (s : List Char) : decode (encode s) = some s := by
  induction s with
  | nil => rfl
  | cons c s ih =>
    rw [encode, List.flatMap_cons, decode_escape, ← encode, ih]
    rfl

/-- A line feed is written as an escape. -/
theorem feed_not_mem_encode (s : List Char) : '\n' ∉ encode s := by
  have hdigits : ∀ n < 0x20, hexDigit (n / 16) ≠ '\n' ∧ hexDigit (n % 16) ≠ '\n' := by decide
  intro h
  obtain ⟨c, -, hc⟩ := List.mem_flatMap.mp h
  unfold escape at hc
  iterate 7
    split at hc
    · simp at hc
  split at hc
  · next hcontrol =>
    have := hdigits _ hcontrol
    simp [this.1.symm, this.2.symm] at hc
  · next hfeed _ _ _ => exact hfeed (List.mem_singleton.mp hc).symm

end PolicyAudit.Quoted

/-! ## The extent of a quoted string -/

namespace PolicyAudit

/-- What stands between an opening quotation mark and the end of its string. A string that is not
closed ends before the next line feed. -/
structure Quotation where
  body : List Char
  closed : Bool
deriving Repr, DecidableEq

namespace Quotation

/-- The same with one more character in front. -/
def cons (c : Char) (q : Quotation) : Quotation := { q with body := c :: q.body }

/-- The quotation at the start of the text after a quotation mark. A backslash takes the character
after it along, whatever that is. -/
def scan : List Char → Quotation
  | [] => ⟨[], false⟩
  | '"' :: _ => ⟨[], true⟩
  | '\n' :: _ => ⟨[], false⟩
  | '\\' :: c :: rest => ((scan rest).cons c).cons '\\'
  | c :: rest => (scan rest).cons c

/-- The number of characters, quotation marks included. -/
def length (q : Quotation) : Nat := 1 + q.body.length + q.closed.toNat

theorem length_pos (q : Quotation) : 0 < q.length := by
  unfold length; omega

end Quotation

end PolicyAudit
