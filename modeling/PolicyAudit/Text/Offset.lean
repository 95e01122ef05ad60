-- SUMMARY: Byte lengths and byte offsets of a text.

/-! ## Bytes

Offsets into a text count the bytes of its UTF-8 form. An offset is a boundary when the text splits
there between two characters, and only a boundary has a text before and after it. -/

namespace PolicyAudit.Text

/-- The number of bytes of the UTF-8 form. -/
def byteLength : List Char → Nat
  | [] => 0
  | c :: cs => c.utf8Size + byteLength cs

@[simp] theorem byteLength_nil : byteLength [] = 0 := rfl

@[simp] theorem byteLength_cons (c : Char) (cs : List Char) :
    byteLength (c :: cs) = c.utf8Size + byteLength cs := rfl

@[simp] theorem byteLength_append (a b : List Char) :
    byteLength (a ++ b) = byteLength a + byteLength b := by
  induction a with
  | nil => simp
  | cons c cs ih => simp [ih, Nat.add_assoc]

theorem length_le_byteLength (cs : List Char) : cs.length ≤ byteLength cs := by
  induction cs with
  | nil => simp
  | cons c cs ih => have := c.utf8Size_pos; simp; omega

/-- Only the empty text has no bytes. -/
theorem byteLength_eq_zero {cs : List Char} : byteLength cs = 0 ↔ cs = [] := by
  constructor
  · intro h
    have := length_le_byteLength cs
    exact List.length_eq_zero_iff.1 (by omega)
  · rintro rfl; rfl

/-- The text before and after byte `offset`, where that is a boundary. -/
def splitAtByte : List Char → Nat → Option (List Char × List Char)
  | cs, 0 => some ([], cs)
  | [], _ + 1 => none
  | c :: cs, n + 1 =>
    if c.utf8Size ≤ n + 1 then
      (splitAtByte cs (n + 1 - c.utf8Size)).map fun (before, after) => (c :: before, after)
    else none

/-- Splitting finds exactly the two parts whose first has `offset` bytes. -/
theorem splitAtByte_eq_some_iff {cs before after : List Char} {offset : Nat} :
    splitAtByte cs offset = some (before, after) ↔
      cs = before ++ after ∧ byteLength before = offset := by
  induction cs generalizing before offset with
  | nil =>
    cases offset with
    | zero => simp [splitAtByte, byteLength_eq_zero]; grind
    | succ n =>
      simp only [splitAtByte, reduceCtorEq, false_iff, not_and]
      intro h
      obtain ⟨rfl, -⟩ := List.append_eq_nil_iff.1 h.symm
      simp
  | cons c cs ih =>
    have hpos := c.utf8Size_pos
    cases offset with
    | zero => simp [splitAtByte, byteLength_eq_zero]; grind
    | succ n =>
      simp only [splitAtByte]
      split
      · rename_i hle
        simp only [Option.map_eq_some_iff, Prod.mk.injEq, Prod.exists]
        constructor
        · rintro ⟨b, a, h, rfl, rfl⟩
          obtain ⟨rfl, hb⟩ := ih.1 h
          exact ⟨rfl, by simp; omega⟩
        · rintro ⟨hcs, hb⟩
          cases before with
          | nil => simp at hb
          | cons d before =>
            simp only [List.cons_append, List.cons.injEq] at hcs
            obtain ⟨rfl, rfl⟩ := hcs
            refine ⟨before, after, ih.2 ⟨rfl, ?_⟩, rfl, rfl⟩
            simp at hb; omega
      · rename_i hgt
        simp only [reduceCtorEq, false_iff, not_and]
        intro hcs hb
        cases before with
        | nil => simp at hb
        | cons d before =>
          simp only [List.cons_append, List.cons.injEq] at hcs
          obtain ⟨rfl, -⟩ := hcs
          simp at hb; omega

/-- Whether `offset` is a boundary of the text. -/
def isBoundary (cs : List Char) (offset : Nat) : Bool := (splitAtByte cs offset).isSome

end PolicyAudit.Text
