-- SUMMARY: Lines and columns tell the boundaries of a text apart.
import PolicyAudit.Text.Position

/-! ## Positions in their order

Each character leads on to a later position, on the next line or on the same one. At a boundary, the
position is the one that the characters before it lead to, so that boundaries and their positions come in
the same order. -/

namespace PolicyAudit

namespace Position

variable {p q r : Position} {text : List Char} {a b : Nat}

/-- One position comes before another, on an earlier line or on the same line. -/
def Precedes (p q : Position) : Prop := p.line < q.line ∨ p.line = q.line ∧ p.column < q.column

theorem Precedes.trans (h : p.Precedes q) (h' : q.Precedes r) : p.Precedes r := by
  unfold Precedes at *
  omega

theorem Precedes.ne (h : p.Precedes q) : p ≠ q := by
  rintro rfl
  unfold Precedes at h
  omega

theorem precedes_next (p : Position) (c : Char) : p.Precedes (p.next c) := by
  unfold next
  split
  · exact .inl (Nat.lt_succ_self p.line)
  · exact .inr ⟨rfl, Nat.lt_succ_self p.column⟩

theorem precedes_foldl_next (p : Position) (c : Char) (cs : List Char) :
    p.Precedes ((c :: cs).foldl next p) := by
  induction cs generalizing p c with
  | nil => exact p.precedes_next c
  | cons d cs ih => exact (p.precedes_next c).trans (ih (p.next c) d)

theorem advance_byteLength (p : Position) (before after : List Char) :
    p.advance (before ++ after) (Text.byteLength before) = before.foldl next p := by
  induction before generalizing p with
  | nil =>
    cases after with
    | nil => rfl
    | cons c after =>
      have hpos := c.utf8Size_pos
      rw [List.nil_append, Text.byteLength_nil, advance, if_neg (by omega), List.foldl_nil]
  | cons c before ih =>
    rw [List.cons_append, Text.byteLength_cons, advance, if_pos (Nat.le_add_right ..),
      Nat.add_sub_cancel_left, ih, List.foldl_cons]

/-- Of two boundaries the first has the first position. -/
theorem ofOffset_precedes (ha : Text.isBoundary text a = true) (hb : Text.isBoundary text b = true)
    (hab : a < b) : (ofOffset text a).Precedes (ofOffset text b) := by
  obtain ⟨⟨before, rest⟩, hsplit⟩ := Option.isSome_iff_exists.mp ha
  obtain ⟨⟨before', rest'⟩, hsplit'⟩ := Option.isSome_iff_exists.mp hb
  obtain ⟨rfl, rfl⟩ := Text.splitAtByte_eq_some_iff.mp hsplit
  obtain ⟨htext, rfl⟩ := Text.splitAtByte_eq_some_iff.mp hsplit'
  -- The longer of the two beginnings goes on from the shorter one.
  obtain ⟨more, rfl, hmore⟩ : ∃ more, before' = before ++ more ∧ more ≠ [] := by
    rcases List.append_eq_append_iff.mp htext with ⟨more, rfl, -⟩ | ⟨more, rfl, -⟩
    · refine ⟨more, rfl, ?_⟩
      rintro rfl
      simp at hab
    · rw [Text.byteLength_append] at hab
      omega
  obtain ⟨c, cs, rfl⟩ := List.exists_cons_of_ne_nil hmore
  have hfirst := advance_byteLength ⟨0, 0⟩ before rest
  have hsecond := advance_byteLength ⟨0, 0⟩ (before ++ c :: cs) rest'
  rw [← htext, List.foldl_append] at hsecond
  unfold ofOffset
  rw [hfirst, hsecond]
  exact precedes_foldl_next ..

/-- A boundary is known by its position. -/
theorem ofOffset_inj (ha : Text.isBoundary text a = true) (hb : Text.isBoundary text b = true)
    (h : ofOffset text a = ofOffset text b) : a = b := by
  rcases Nat.lt_trichotomy a b with hlt | rfl | hlt
  · exact absurd h (ofOffset_precedes ha hb hlt).ne
  · rfl
  · exact absurd h.symm (ofOffset_precedes hb ha hlt).ne

end Position

/-! ## Ranges of spans -/

/-- Two stretches between boundaries are the same when their lines and columns are. -/
theorem Range.ofOffsets_inj {text : List Char} {start stop start' stop' : Nat} (hle : start ≤ stop)
    (hle' : start' ≤ stop') (hstart : Text.isBoundary text start = true)
    (hstop : Text.isBoundary text stop = true) (hstart' : Text.isBoundary text start' = true)
    (hstop' : Text.isBoundary text stop' = true)
    (h : ofOffsets text start stop = ofOffsets text start' stop') : start = start' ∧ stop = stop' := by
  unfold ofOffsets at h
  rw [Nat.max_eq_left hle, Nat.max_eq_left hle', Range.mk.injEq] at h
  exact ⟨Position.ofOffset_inj hstart hstart' h.1, Position.ofOffset_inj hstop hstop' h.2⟩

end PolicyAudit
