-- SUMMARY: A place in the text being read, and readings that move on from it.
import PolicyAudit.Syntax.Fault
import PolicyAudit.Text.Offset

/-! ## Cursors -/

namespace PolicyAudit

/-- How far reading has come: the offset in bytes and the text from there on. -/
structure Cursor where
  pos : Nat
  rest : List Char
deriving Repr

namespace Cursor

/-- The cursor `n` characters on, or at the end when there are fewer. -/
def skip (c : Cursor) (n : Nat) : Cursor :=
  ⟨c.pos + Text.byteLength (c.rest.take n), c.rest.drop n⟩

/-- The cursor at the end of the text. -/
def atEnd (c : Cursor) : Cursor := c.skip c.rest.length

/-- The span of the next `n` characters. -/
def spanOf (c : Cursor) (n : Nat) : Span := ⟨c.pos, Text.byteLength (c.rest.take n)⟩

/-- Whether `d` lies at or after `c` in one text. -/
def Reaches (c d : Cursor) : Prop := ∃ n, d = c.skip n

@[simp] theorem skip_rest (c : Cursor) (n : Nat) : (c.skip n).rest = c.rest.drop n := rfl

@[simp] theorem skip_zero (c : Cursor) : c.skip 0 = c := by simp [skip]

theorem skip_skip (c : Cursor) (m n : Nat) : (c.skip m).skip n = c.skip (m + n) := by
  simp only [skip, List.drop_drop, Cursor.mk.injEq, and_true]
  rw [List.take_add, Text.byteLength_append, Nat.add_assoc]

theorem Reaches.refl (c : Cursor) : c.Reaches c := ⟨0, (skip_zero c).symm⟩

theorem reaches_skip (c : Cursor) (n : Nat) : c.Reaches (c.skip n) := ⟨n, rfl⟩

theorem Reaches.trans {c d e : Cursor} (h : c.Reaches d) (h' : d.Reaches e) : c.Reaches e := by
  obtain ⟨m, rfl⟩ := h
  obtain ⟨n, rfl⟩ := h'
  exact ⟨m + n, skip_skip c m n⟩

theorem Reaches.length_le {c d : Cursor} (h : c.Reaches d) : d.rest.length ≤ c.rest.length := by
  obtain ⟨n, rfl⟩ := h
  simp [skip]

/-- Moving on by at least one character leaves less text. -/
theorem skip_length_lt {c : Cursor} (h : c.rest ≠ []) {n : Nat} (hn : 0 < n) :
    (c.skip n).rest.length < c.rest.length := by
  have := List.length_pos_iff.2 h
  simp only [skip, List.length_drop]; omega

/-- A cursor that has moved has less text before it. -/
theorem Reaches.length_lt {c d : Cursor} (h : c.Reaches d) (hne : d.pos ≠ c.pos) :
    d.rest.length < c.rest.length := by
  obtain ⟨n, rfl⟩ := h
  have hrest : c.rest ≠ [] := by
    intro h0; apply hne; simp [skip, h0]
  have hn : 0 < n := by
    rcases Nat.eq_zero_or_pos n with rfl | h
    · simp at hne
    · exact h
  exact skip_length_lt hrest hn

end Cursor

/-! ## Readings -/

/-- The outcome of reading on from a cursor: what was read, the faults met on the way, in order, and
the cursor after it. -/
structure Reading (c : Cursor) (α : Type) where
  result : α
  errors : List SyntaxError
  next : Cursor
  reaches : c.Reaches next

namespace Reading

variable {c : Cursor} {α β : Type}

/-- Reads nothing. -/
def done (c : Cursor) (result : α) : Reading c α := ⟨result, [], c, .refl c⟩

/-- Reads on from where the first reading ended. -/
def andThen (r : Reading c α) (f : α → (d : Cursor) → Reading d β) : Reading c β :=
  let s := f r.result r.next
  ⟨s.result, r.errors ++ s.errors, s.next, r.reaches.trans s.reaches⟩

/-- The same with another result. -/
def map (f : α → β) (r : Reading c α) : Reading c β := { r with result := f r.result }

@[simp] theorem done_errors (result : α) : (done c result).errors = [] := rfl

@[simp] theorem done_next (result : α) : (done c result).next = c := rfl

@[simp] theorem done_result (result : α) : (done c result).result = result := rfl

@[simp] theorem map_errors (f : α → β) (r : Reading c α) : (r.map f).errors = r.errors := rfl

@[simp] theorem map_next (f : α → β) (r : Reading c α) : (r.map f).next = r.next := rfl

@[simp] theorem map_result (f : α → β) (r : Reading c α) : (r.map f).result = f r.result := rfl

@[simp] theorem andThen_errors (r : Reading c α) (f : α → (d : Cursor) → Reading d β) :
    (r.andThen f).errors = r.errors ++ (f r.result r.next).errors := rfl

@[simp] theorem andThen_next (r : Reading c α) (f : α → (d : Cursor) → Reading d β) :
    (r.andThen f).next = (f r.result r.next).next := rfl

@[simp] theorem andThen_result (r : Reading c α) (f : α → (d : Cursor) → Reading d β) :
    (r.andThen f).result = (f r.result r.next).result := rfl

end Reading

end PolicyAudit
