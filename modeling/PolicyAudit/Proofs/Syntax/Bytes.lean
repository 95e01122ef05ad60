-- SUMMARY: The bytes of a text, and which character each of them belongs to.
import PolicyAudit.Json.Numeral
import PolicyAudit.Proofs.Syntax.Placement

/-! ## Bytes of a character

A character below U+0080 is one byte, with the number of the character. All bytes of any other character are
at least 128, so that a byte below 128 is a character wherever it stands. -/

namespace PolicyAudit

namespace Text

/-- The byte of a character that has just one. -/
def byte (c : Char) : UInt8 := c.toUInt8

/-- Whether a byte is a decimal digit. -/
def isDigitByte (b : UInt8) : Bool := byte '0' ≤ b && b ≤ byte '9'

/-- Whether a byte may stand in a numeral. -/
def isNumeralByte (b : UInt8) : Bool :=
  isDigitByte b || b == byte '-' || b == byte '+' || b == byte '.' || b == byte 'e' || b == byte 'E'

/-- Whether a byte is a blank between tokens. -/
def isGapByte (b : UInt8) : Bool := b == byte ' ' || b == byte '\t' || b == byte '\n' || b == byte '\r'

/-- The first byte of a character. -/
def leadByte (c : Char) : UInt8 := (String.utf8EncodeChar c).headD 0

/-- The bytes of a character after the first. -/
def tailBytes (c : Char) : List UInt8 := (String.utf8EncodeChar c).tail

/-- The UTF-8 form of a text. -/
def bytes (text : List Char) : List UInt8 := text.flatMap String.utf8EncodeChar

variable {c d : Char} {b : UInt8}

theorem utf8EncodeChar_ne_nil (c : Char) : String.utf8EncodeChar c ≠ [] := by
  have := c.utf8Size_pos
  rw [← List.length_pos_iff, String.length_utf8EncodeChar]
  exact this

theorem leadByte_cons_tailBytes (c : Char) : leadByte c :: tailBytes c = String.utf8EncodeChar c := by
  unfold leadByte tailBytes
  cases h : String.utf8EncodeChar c with
  | nil => exact absurd h (utf8EncodeChar_ne_nil c)
  | cons b rest => rfl

theorem length_tailBytes (c : Char) : 1 + (tailBytes c).length = c.utf8Size := by
  rw [← String.length_utf8EncodeChar, ← leadByte_cons_tailBytes, List.length_cons, Nat.add_comm]

theorem utf8EncodeChar_of_lt (h : c.toNat < 128) : String.utf8EncodeChar c = [UInt8.ofNat c.toNat] := by
  have hle : c.val.toNat ≤ 127 := Nat.le_of_lt_succ h
  simp only [String.utf8EncodeChar, if_pos hle]
  rfl

theorem tailBytes_of_lt (h : c.toNat < 128) : tailBytes c = [] := by
  rw [tailBytes, utf8EncodeChar_of_lt h, List.tail_cons]

theorem utf8Size_of_lt (h : c.toNat < 128) : c.utf8Size = 1 := by
  rw [← length_tailBytes, tailBytes_of_lt h, List.length_nil]

theorem le_ofNat {n : Nat} (hlow : 128 ≤ n) (hhigh : n < 256) : 128 ≤ UInt8.ofNat n := by
  have h128 : (128 : UInt8).toNat = 128 := rfl
  rw [UInt8.le_iff_toNat_le, h128, UInt8.toNat_ofNat', Nat.mod_eq_of_lt hhigh]
  exact hlow

theorem le_of_mem_utf8EncodeChar (h : 128 ≤ c.toNat) (hb : b ∈ String.utf8EncodeChar c) : 128 ≤ b := by
  have hlt : ¬ c.val.toNat ≤ 127 := Nat.not_le_of_lt h
  simp only [String.utf8EncodeChar, if_neg hlt] at hb
  split at hb
  · simp only [List.mem_cons, List.not_mem_nil, or_false] at hb
    rcases hb with rfl | rfl <;> exact le_ofNat (by omega) (by omega)
  split at hb
  · simp only [List.mem_cons, List.not_mem_nil, or_false] at hb
    rcases hb with rfl | rfl | rfl <;> exact le_ofNat (by omega) (by omega)
  · simp only [List.mem_cons, List.not_mem_nil, or_false] at hb
    rcases hb with rfl | rfl | rfl | rfl <;> exact le_ofNat (by omega) (by omega)

/-- Only the first byte of a character can be below 128. -/
theorem le_of_mem_tailBytes (hb : b ∈ tailBytes c) : 128 ≤ b := by
  rcases Nat.lt_or_ge c.toNat 128 with h | h
  · rw [tailBytes, utf8EncodeChar_of_lt h] at hb
    cases hb
  · exact le_of_mem_utf8EncodeChar h (List.mem_of_mem_tail hb)

theorem toNat_byte (hd : d.toNat < 128) : (byte d).toNat = d.toNat := by
  have hval : d.val.toNat = d.toNat := rfl
  rw [byte, Char.toUInt8, UInt32.toNat_toUInt8, hval]
  exact Nat.mod_eq_of_lt (by omega)

theorem leadByte_of_lt (hc : c.toNat < 128) : leadByte c = byte c := by
  rw [leadByte, utf8EncodeChar_of_lt hc, List.headD_cons, ← UInt8.toNat_inj, toNat_byte hc, UInt8.toNat_ofNat']
  exact Nat.mod_eq_of_lt (by omega)

theorem le_leadByte (hc : 128 ≤ c.toNat) : 128 ≤ (leadByte c).toNat := by
  have hmem : leadByte c ∈ String.utf8EncodeChar c := by simp [← leadByte_cons_tailBytes]
  exact UInt8.le_iff_toNat_le.mp (le_of_mem_utf8EncodeChar hc hmem)

theorem ne_byte_of_le (hb : 128 ≤ b) (hd : d.toNat < 128) : b ≠ byte d := by
  rintro rfl
  rw [UInt8.le_iff_toNat_le, toNat_byte hd] at hb
  exact Nat.not_le_of_lt hd hb

/-- A byte below 128 tells its character. -/
theorem leadByte_eq_byte_iff (hd : d.toNat < 128) : leadByte c = byte d ↔ c = d := by
  constructor
  · intro h
    rcases Nat.lt_or_ge c.toNat 128 with hc | hc
    · rw [leadByte_of_lt hc, ← UInt8.toNat_inj, toNat_byte hc, toNat_byte hd] at h
      exact Char.toNat_inj.mp h
    · have hle := le_leadByte hc
      rw [h, toNat_byte hd] at hle
      omega
  · rintro rfl
    exact leadByte_of_lt hd

theorem map_leadByte_eq_some_iff (hd : d.toNat < 128) {found : Option Char} :
    found.map leadByte = some (byte d) ↔ found = some d := by
  cases found with
  | none => simp
  | some c => simp [leadByte_eq_byte_iff hd]

theorem isDigitByte_leadByte (c : Char) : isDigitByte (leadByte c) = c.isDigit := by
  have hzero : (byte '0').toNat = 48 := rfl
  have hnine : (byte '9').toNat = 57 := rfl
  have hdigit : c.isDigit = decide (48 ≤ c.toNat ∧ c.toNat ≤ 57) := by
    simp [Char.isDigit, UInt32.le_iff_toNat_le]
  rw [isDigitByte, hdigit]
  simp only [UInt8.le_iff_toNat_le, hzero, hnine]
  rcases Nat.lt_or_ge c.toNat 128 with hc | hc
  · simp [leadByte_of_lt hc, toNat_byte hc]
  · have hle := le_leadByte hc
    rw [decide_eq_false (show ¬ (leadByte c).toNat ≤ 57 by omega), Bool.and_false]
    exact (decide_eq_false (by omega)).symm

theorem leadByte_beq_byte (hd : d.toNat < 128) : (leadByte c == byte d) = (c == d) := by
  rw [Bool.eq_iff_iff, beq_iff_eq, beq_iff_eq]
  exact leadByte_eq_byte_iff hd

theorem isNumeralByte_leadByte (c : Char) : isNumeralByte (leadByte c) = Numeral.isNumeralChar c := by
  simp (disch := decide) only [isNumeralByte, Numeral.isNumeralChar, isDigitByte_leadByte, leadByte_beq_byte]

theorem isGapByte_leadByte (c : Char) : isGapByte (leadByte c) = isGap c := by
  simp (disch := decide) only [isGapByte, isGap, leadByte_beq_byte]

theorem toNat_lt_of_isGap (h : isGap c = true) : c.toNat < 128 := by
  simp only [isGap, Bool.or_eq_true, beq_iff_eq] at h
  rcases h with ((rfl | rfl) | rfl) | rfl <;> decide

theorem toNat_lt_of_isNumeralChar (h : Numeral.isNumeralChar c = true) : c.toNat < 128 := by
  simp only [Numeral.isNumeralChar, Bool.or_eq_true, beq_iff_eq] at h
  rcases h with ((((hdigit | rfl) | rfl) | rfl) | rfl) | rfl
  · have hle : c.val.toNat ≤ '9'.val.toNat := by
      simp only [Char.isDigit, Bool.and_eq_true, decide_eq_true_eq, UInt32.le_iff_toNat_le] at hdigit
      exact hdigit.2
    exact Nat.lt_of_le_of_lt hle (by decide)
  all_goals decide

/-! ## Bytes of a text -/

theorem bytes_cons (c : Char) (s : List Char) : bytes (c :: s) = leadByte c :: (tailBytes c ++ bytes s) := by
  rw [bytes, List.flatMap_cons, ← leadByte_cons_tailBytes, List.cons_append, bytes]

theorem bytes_append (s t : List Char) : bytes (s ++ t) = bytes s ++ bytes t := List.flatMap_append

theorem length_bytes (s : List Char) : (bytes s).length = byteLength s := by
  induction s with
  | nil => rfl
  | cons c s ih =>
    rw [bytes_cons, List.length_cons, List.length_append, ih, byteLength_cons, ← length_tailBytes]
    omega

theorem getElem?_of_drop_eq_cons {text : List Char} {bs : List UInt8} {n : Nat}
    (h : (bytes text).drop n = b :: bs) : (bytes text)[n]? = some b ∧ (bytes text).drop (n + 1) = bs := by
  rw [← List.head?_drop, ← List.tail_drop, h]
  exact ⟨rfl, rfl⟩

theorem succ_le_of_getElem?_bytes {text : List Char} {n : Nat} (h : (bytes text)[n]? = some b) :
    n + 1 ≤ byteLength text := by
  rw [← length_bytes]
  exact (List.getElem?_eq_some_iff.mp h).1

/-- The byte from which on the rest of a text stands is the first one of its first character. -/
theorem getElem?_of_drop_bytes {text s : List Char} {n : Nat} (h : (bytes text).drop n = bytes s) :
    (bytes text)[n]? = s.head?.map leadByte := by
  rw [← List.head?_drop, h]
  cases s with
  | nil => rfl
  | cons c s => rw [bytes_cons]; rfl

theorem drop_of_drop_bytes_cons {text s : List Char} {n : Nat} (h : (bytes text).drop n = bytes (c :: s)) :
    (bytes text).drop (n + c.utf8Size) = bytes s := by
  have hlen : (leadByte c :: tailBytes c).length = c.utf8Size := by
    rw [List.length_cons, Nat.add_comm, length_tailBytes]
  rw [← List.drop_drop, h, bytes_cons, ← List.cons_append]
  exact List.drop_left' hlen

/-- Where bytes after the first are kept with the first, the bytes to keep are those of the characters to
keep. -/
theorem takeWhile_bytes {keep : UInt8 → Bool} {holds : Char → Bool} (hlead : ∀ c, keep (leadByte c) = holds c)
    (htail : ∀ c, holds c = true → ∀ b ∈ tailBytes c, keep b = true) (s : List Char) :
    (bytes s).takeWhile keep = bytes (s.takeWhile holds) := by
  induction s with
  | nil => rfl
  | cons c s ih =>
    have hfirst := hlead c
    cases hc : holds c with
    | true =>
      rw [hc] at hfirst
      rw [bytes_cons, List.takeWhile_cons_of_pos hfirst, List.takeWhile_append_of_pos (htail c hc), ih,
        List.takeWhile_cons_of_pos hc, bytes_cons]
    | false =>
      rw [hc] at hfirst
      rw [bytes_cons, List.takeWhile_cons_of_neg (by simp [hfirst]), List.takeWhile_cons_of_neg (by simp [hc])]
      rfl

end Text

/-! ## Cursors -/

namespace Cursor

open Text

variable {text w s : List Char} {c d : Cursor} {ch : Char}

theorem skip_of_append (h : c.rest = w ++ s) :
    c.skip w.length = ⟨c.pos + byteLength w, s⟩ := by
  simp [skip, h]

theorem skip_one_of_lt (h : c.rest = ch :: s) (hch : ch.toNat < 128) :
    c.skip 1 = ⟨c.pos + 1, s⟩ := by
  have hskip : c.skip 1 = ⟨c.pos + byteLength [ch], s⟩ := skip_of_append (w := [ch]) h
  rw [hskip, byteLength_cons, utf8Size_of_lt hch, byteLength_nil]

theorem spanOf_eq_between (c : Cursor) (n : Nat) : c.spanOf n = .between c.pos (c.skip n).pos := by
  rw [spanOf, Span.between, skip, Nat.add_sub_cancel_left]

theorem skip_length (c : Cursor) : c.skip c.rest.length = ⟨c.pos + byteLength c.rest, []⟩ :=
  skip_of_append (by rw [List.append_nil])

theorem Within.pos_add_byteLength (h : c.Within text) :
    c.pos + byteLength c.rest = byteLength text := by
  obtain ⟨before, htext, hpos⟩ := h.exists_before
  rw [htext, byteLength_append, hpos]

theorem Reaches.eq_of_pos_eq (h : c.Reaches d) (hpos : d.pos = c.pos) : d = c := by
  obtain ⟨n, rfl⟩ := h
  have htake : c.rest.take n = [] := by
    apply byteLength_eq_zero.mp
    simp only [skip] at hpos
    omega
  have hdrop : c.rest.drop n = c.rest := by rw [← List.nil_append (c.rest.drop n), ← htake, List.take_append_drop]
  rw [skip, htake, hdrop]
  rfl

theorem Within.pos_lt_iff (h : c.Within text) : c.pos < byteLength text ↔ c.rest ≠ [] := by
  rw [← h.pos_add_byteLength, Ne, ← byteLength_eq_zero]
  omega

/-- The bytes from a cursor on are those of the rest of the text. -/
theorem Within.drop_bytes (h : c.Within text) : (bytes text).drop c.pos = bytes c.rest := by
  obtain ⟨before, htext, hpos⟩ := h.exists_before
  rw [htext, bytes_append, ← hpos, ← length_bytes, List.drop_left]

/-- The byte at a cursor is the first one of the next character. -/
theorem Within.getElem?_bytes (h : c.Within text) : (bytes text)[c.pos]? = c.rest.head?.map leadByte :=
  getElem?_of_drop_bytes h.drop_bytes

theorem Within.getElem?_bytes_cons (h : c.Within text) (hrest : c.rest = ch :: s) :
    (bytes text)[c.pos]? = some (leadByte ch) := by
  rw [h.getElem?_bytes, hrest]
  rfl

theorem Within.getElem?_bytes_eq_iff (h : c.Within text) (ch : Char)
    (hch : ch.toNat < 128) : (bytes text)[c.pos]? = some (byte ch) ↔ c.peek? = some ch := by
  rw [h.getElem?_bytes, map_leadByte_eq_some_iff hch, peek?]

/-- The byte behind the one at a cursor is the first one of the character after it. -/
theorem Within.getElem?_bytes_succ (h : c.Within text) {ch : Char} {s : List Char}
    (hrest : c.rest = ch :: s) (hch : ch.toNat < 128) : (bytes text)[c.pos + 1]? = s.head?.map leadByte := by
  have hbyte := (h.of_reaches (c.reaches_skip 1)).getElem?_bytes
  rw [skip_one_of_lt hrest hch] at hbyte
  exact hbyte

end Cursor

end PolicyAudit
