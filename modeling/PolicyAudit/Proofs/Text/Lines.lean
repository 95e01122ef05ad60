-- SUMMARY: Lines and columns as a count, as a table of line starts has them, and as they lead back into the text.
import Mathlib.Data.List.Induction
import PolicyAudit.Proofs.Syntax.Bytes
import PolicyAudit.Proofs.Syntax.Slice
import PolicyAudit.Proofs.Text.Position

/-! ## Counting

Behind some text stands the position that is told by counting: as many lines as the text has line feeds, and on
the last of them as many columns as there are characters after the last line feed. -/

namespace PolicyAudit

open Text

/-- The last line of a text, without its line feed: what stands after the last one. -/
def Text.lastLine (text : List Char) : List Char := (text.reverse.takeWhile (· ≠ '\n')).reverse

/-- The position behind a text. -/
def Position.behind (text : List Char) : Position := ⟨text.count '\n', (lastLine text).length⟩

variable {text before after : List Char} {c : Char} {offset : Nat}

namespace Text

theorem lastLine_concat (text : List Char) (c : Char) :
    lastLine (text ++ [c]) = if c = '\n' then [] else lastLine text ++ [c] := by
  unfold lastLine
  by_cases hc : c = '\n' <;> simp [hc]

end Text

namespace Position

theorem behind_concat (text : List Char) (c : Char) : behind (text ++ [c]) = (behind text).next c := by
  unfold behind next
  rw [lastLine_concat, List.count_append]
  by_cases hc : c = '\n' <;> simp [hc]

theorem foldl_next_eq_behind (text : List Char) : text.foldl next ⟨0, 0⟩ = behind text := by
  induction text using List.reverseRecOn with
  | nil => rfl
  | append_singleton text c ih => rw [List.foldl_append, ih, behind_concat]; rfl

theorem ofOffset_byteLength (before after : List Char) :
    ofOffset (before ++ after) (byteLength before) = behind before := by
  rw [ofOffset, advance_byteLength, foldl_next_eq_behind]

end Position

/-! ## Offsets moved down

An offset past the end counts as the end, and one inside a character as the start of that character. -/

/-- The last boundary up to a byte of a text, found by going down byte by byte. -/
def Text.floorBoundary (text : List Char) : Nat → Nat
  | 0 => 0
  | offset + 1 => if isBoundary text (offset + 1) then offset + 1 else floorBoundary text offset

namespace Text

theorem isBoundary_iff : isBoundary text offset = true ↔
    ∃ before after, text = before ++ after ∧ byteLength before = offset := by
  simp only [isBoundary, Option.isSome_iff_exists, Prod.exists, splitAtByte_eq_some_iff]

theorem isBoundary_byteLength (before after : List Char) :
    isBoundary (before ++ after) (byteLength before) = true :=
  isBoundary_iff.mpr ⟨before, after, rfl, rfl⟩

theorem isBoundary_floorBoundary (text : List Char) (offset : Nat) :
    isBoundary text (floorBoundary text offset) = true := by
  induction offset with
  | zero => exact isBoundary_byteLength [] text
  | succ offset ih =>
    rw [floorBoundary]
    split
    · assumption
    · exact ih

theorem floorBoundary_le (text : List Char) (offset : Nat) : floorBoundary text offset ≤ offset := by
  induction offset with
  | zero => exact Nat.le_refl 0
  | succ offset ih =>
    rw [floorBoundary]
    split <;> omega

theorem le_floorBoundary {boundary : Nat} (h : isBoundary text boundary = true) (hle : boundary ≤ offset) :
    boundary ≤ floorBoundary text offset := by
  induction offset with
  | zero => exact hle
  | succ offset ih =>
    rw [floorBoundary]
    split
    · exact hle
    · next hinside =>
      refine ih (Nat.le_of_lt_succ (Nat.lt_of_le_of_ne hle ?_))
      rintro rfl
      exact hinside h

/-- Where a text is split at most `offset` bytes in, and the next character goes past that, the split is at the last
boundary up to there. -/
theorem floorBoundary_append (hle : byteLength before ≤ offset)
    (hnext : ∀ c rest, after = c :: rest → offset < byteLength before + c.utf8Size) :
    floorBoundary (before ++ after) (min offset (byteLength (before ++ after))) = byteLength before := by
  have hend : byteLength before ≤ byteLength (before ++ after) := by
    rw [byteLength_append]
    exact Nat.le_add_right ..
  refine Nat.le_antisymm ?_ (le_floorBoundary (isBoundary_byteLength before after) (Nat.le_min.mpr ⟨hle, hend⟩))
  have hfloor := floorBoundary_le (before ++ after) (min offset (byteLength (before ++ after)))
  obtain ⟨front, back, hsplit, hfront⟩ := isBoundary_iff.mp
    (isBoundary_floorBoundary (before ++ after) (min offset (byteLength (before ++ after))))
  -- A longer beginning would hold the next character.
  rcases List.append_eq_append_iff.mp hsplit with ⟨more, rfl, hafter⟩ | ⟨more, rfl, -⟩
  · cases more with
    | nil => exact Nat.le_of_eq (by rw [← hfront, List.append_nil])
    | cons c more =>
      have hlt := hnext c _ hafter
      rw [byteLength_append, byteLength_cons] at hfront
      omega
  · rw [← hfront, byteLength_append]
    exact Nat.le_add_right ..

end Text

namespace Position

/-- Reading on up to an offset stops behind the characters that fit. -/
theorem exists_advance (p : Position) (text : List Char) (offset : Nat) :
    ∃ before after, text = before ++ after ∧ byteLength before ≤ offset ∧
      (∀ c rest, after = c :: rest → offset < byteLength before + c.utf8Size) ∧
      p.advance text offset = before.foldl next p := by
  induction text generalizing p offset with
  | nil => exact ⟨[], [], rfl, Nat.zero_le _, nofun, rfl⟩
  | cons c text ih =>
    rw [advance]
    split
    · next hfits =>
      obtain ⟨before, after, rfl, hle, hnext, hadvance⟩ := ih (p.next c) (offset - c.utf8Size)
      refine ⟨c :: before, after, rfl, ?_, fun d rest hafter => ?_, hadvance⟩
      · rw [byteLength_cons]
        omega
      · have hlt := hnext d rest hafter
        rw [byteLength_cons]
        omega
    · next hpast =>
      refine ⟨[], c :: text, rfl, Nat.zero_le _, ?_, rfl⟩
      rintro d rest ⟨⟩
      simpa using hpast

/-- The position of an offset is told by counting in the text before the last boundary up to it. -/
theorem exists_ofOffset (text : List Char) (offset : Nat) :
    ∃ before after, text = before ++ after ∧
      byteLength before = floorBoundary text (min offset (byteLength text)) ∧
      ofOffset text offset = behind before := by
  obtain ⟨before, after, rfl, hle, hnext, hadvance⟩ := exists_advance ⟨0, 0⟩ text offset
  exact ⟨before, after, rfl, (floorBoundary_append hle hnext).symm, hadvance.trans (foldl_next_eq_behind before)⟩

/-- Boundaries come in the order of their positions. -/
theorem lt_iff_ofOffset_precedes {a b : Nat} (ha : isBoundary text a = true) (hb : isBoundary text b = true) :
    a < b ↔ (ofOffset text a).Precedes (ofOffset text b) := by
  refine ⟨ofOffset_precedes ha hb, fun h => ?_⟩
  rcases Nat.lt_trichotomy a b with hlt | rfl | hlt
  · exact hlt
  · exact absurd rfl h.ne
  · exact absurd rfl (h.trans (ofOffset_precedes hb ha hlt)).ne

theorem before_iff {p q : Position} : p.before q = true ↔ p = q ∨ p.Precedes q := by
  cases p
  cases q
  simp only [before, Precedes, Bool.or_eq_true, Bool.and_eq_true, beq_iff_eq, decide_eq_true_eq, mk.injEq]
  omega

theorem le_iff_ofOffset_before {a b : Nat} (ha : isBoundary text a = true) (hb : isBoundary text b = true) :
    a ≤ b ↔ (ofOffset text a).before (ofOffset text b) = true := by
  rw [before_iff, Nat.le_iff_lt_or_eq, lt_iff_ofOffset_precedes ha hb, or_comm]
  exact or_congr_left ⟨congrArg _, ofOffset_inj ha hb⟩

end Position

/-! ## Tables of lines

The same position is found without counting all the line feeds before it: by a table of the bytes at which lines
begin, which is searched for the last line that begins at or before the offset. -/

/-- The bytes at which the lines of a text begin. -/
structure LineTable where
  starts : List Nat

namespace LineTable

/-- The bytes behind line feeds, in a text that begins at byte `index`. -/
def startsFrom (index : Nat) (bytes : List UInt8) : List Nat :=
  ((bytes.zipIdx index).filter (·.1 = byte '\n')).map (·.2 + 1)

/-- The table of a text. -/
def ofText (text : List Char) : LineTable := ⟨0 :: startsFrom 0 (bytes text)⟩

/-- How many lines begin at or before an offset, found by halving the stretch from `low` to `high`. -/
def search (table : LineTable) (offset low high : Nat) : Nat :=
  if low < high then
    let middle := low + (high - low) / 2
    if table.starts[middle]?.any (· ≤ offset) then table.search offset (middle + 1) high
    else table.search offset low middle
  else low
termination_by high - low

/-- The position of an offset: the last line that begins there or before, and how many characters stand between its
start and the offset. There is none if no line begins so early, or if the text has no such part. -/
def position? (table : LineTable) (text : List Char) (offset : Nat) : Option Position :=
  let offset := floorBoundary text (min offset (byteLength text))
  match table.search offset 0 table.starts.length with
  | 0 => none
  | line + 1 => do
    let start ← table.starts[line]?
    let part ← if start ≤ offset then (Span.between start offset).slice? text else none
    return ⟨line, part.length⟩

theorem startsFrom_append (index : Nat) (bs bs' : List UInt8) :
    startsFrom index (bs ++ bs') = startsFrom index bs ++ startsFrom (index + bs.length) bs' := by
  simp [startsFrom, List.zipIdx_append]

/-- Only a line feed has a byte that ends a line. -/
theorem startsFrom_utf8EncodeChar (index : Nat) (c : Char) :
    startsFrom index (String.utf8EncodeChar c) = if c = '\n' then [index + 1] else [] := by
  by_cases hc : c = '\n'
  · subst hc
    rfl
  · rw [if_neg hc, startsFrom, List.map_eq_nil_iff, List.filter_eq_nil_iff]
    rintro ⟨b, i⟩ hmem
    have hb : b ∈ String.utf8EncodeChar c := (List.mem_zipIdx hmem).2.2 ▸ List.getElem_mem _
    rw [decide_eq_true_iff]
    rintro rfl
    rw [← leadByte_cons_tailBytes] at hb
    rcases List.mem_cons.mp hb with hlead | htail
    · exact hc ((leadByte_eq_byte_iff (by decide)).mp hlead.symm)
    · exact absurd (le_of_mem_tailBytes htail) (by decide)

theorem startsFrom_bytes_concat (index : Nat) (text : List Char) (c : Char) :
    startsFrom index (bytes (text ++ [c])) =
      startsFrom index (bytes text) ++ if c = '\n' then [index + byteLength text + 1] else [] := by
  have hchar : bytes [c] = String.utf8EncodeChar c := List.append_nil _
  rw [bytes_append, startsFrom_append, hchar, startsFrom_utf8EncodeChar, length_bytes]

/-- As many lines begin behind the start of a text as it has line feeds. -/
theorem length_startsFrom (index : Nat) (text : List Char) :
    (startsFrom index (bytes text)).length = text.count '\n' := by
  induction text using List.reverseRecOn with
  | nil => rfl
  | append_singleton text c ih =>
    rw [startsFrom_bytes_concat, List.length_append, List.count_append, ih]
    by_cases hc : c = '\n' <;> simp [hc]

theorem bounds_of_mem_startsFrom {index start : Nat} {bs : List UInt8} (h : start ∈ startsFrom index bs) :
    index < start ∧ start ≤ index + bs.length := by
  obtain ⟨⟨b, i⟩, hmem, rfl⟩ := List.mem_map.mp h
  obtain ⟨hlow, hhigh, -⟩ := List.mem_zipIdx (List.mem_filter.mp hmem).1
  exact ⟨Nat.lt_succ_of_le hlow, hhigh⟩

/-- The last line that begins in a text is its last line. -/
theorem exists_start (text : List Char) : ∃ earlier, text = earlier ++ lastLine text ∧
    (0 :: startsFrom 0 (bytes text))[text.count '\n']? = some (byteLength earlier) := by
  induction text using List.reverseRecOn with
  | nil => exact ⟨[], rfl, rfl⟩
  | append_singleton text c ih =>
    rw [startsFrom_bytes_concat, lastLine_concat, List.count_append]
    by_cases hc : c = '\n'
    · subst hc
      have hlength : text.count '\n' + ['\n'].count '\n' = (0 :: startsFrom 0 (bytes text)).length := by
        rw [List.length_cons, length_startsFrom]
        rfl
      have hfeed : '\n'.utf8Size = 1 := by decide
      refine ⟨text ++ ['\n'], (List.append_nil _).symm, ?_⟩
      rw [hlength, if_pos rfl, ← List.cons_append, List.getElem?_concat_length, byteLength_append, byteLength_cons,
        byteLength_nil, hfeed, Nat.zero_add, Nat.add_zero]
    · obtain ⟨earlier, hearlier, hstart⟩ := ih
      refine ⟨earlier, ?_, ?_⟩
      · rw [if_neg hc, ← List.append_assoc, ← hearlier]
      · simpa [hc] using hstart

variable {low high : Nat}

/-- The search counts the lines that begin at or before the offset, where those come first. -/
theorem search_eq_length {early late : List Nat} (hearly : ∀ start ∈ early, start ≤ offset)
    (hlate : ∀ start ∈ late, offset < start) (hlow : low ≤ early.length) (hhigh : early.length ≤ high)
    (hend : high ≤ (early ++ late).length) : search ⟨early ++ late⟩ offset low high = early.length := by
  fun_induction search ⟨early ++ late⟩ offset low high with
  | case1 low high hlt middle hbefore ih =>
    refine ih ?_ hhigh hend
    -- A line behind the early ones would begin too late.
    by_contra hle
    rw [List.getElem?_append_right (by omega), Option.any_eq_true] at hbefore
    obtain ⟨start, hstart, hle⟩ := hbefore
    exact absurd (hlate start (List.mem_of_getElem? hstart)) (Nat.not_lt.mpr (of_decide_eq_true hle))
  | case2 low high hlt middle hbehind ih =>
    refine ih hlow ?_ (by omega)
    by_contra hlt'
    have hmiddle : middle < early.length := by omega
    refine hbehind (Option.any_eq_true _ _ |>.mpr ⟨early[middle], ?_, ?_⟩)
    · rw [List.getElem?_append_left hmiddle, List.getElem?_eq_getElem hmiddle]
    · exact decide_eq_true (hearly _ (List.getElem_mem hmiddle))
  | case3 low high hge => omega

/-- The lines that begin in the first part of a text come first in its table. -/
theorem ofText_append (before after : List Char) : ofText (before ++ after) =
    ⟨(0 :: startsFrom 0 (bytes before)) ++ startsFrom (byteLength before) (bytes after)⟩ := by
  rw [ofText, bytes_append, startsFrom_append, length_bytes, Nat.zero_add]
  rfl

theorem search_ofText (before after : List Char) :
    (ofText (before ++ after)).search (byteLength before) 0 (ofText (before ++ after)).starts.length =
      before.count '\n' + 1 := by
  have hlength : (0 :: startsFrom 0 (bytes before)).length = before.count '\n' + 1 := by
    rw [List.length_cons, length_startsFrom]
  rw [ofText_append, ← hlength]
  refine search_eq_length (fun start hstart => ?_) (fun start hstart => (bounds_of_mem_startsFrom hstart).1)
    (Nat.zero_le _) ?_ (Nat.le_refl _)
  · rcases List.mem_cons.mp hstart with rfl | hbefore
    · exact Nat.zero_le _
    · have hle := (bounds_of_mem_startsFrom hbefore).2
      rwa [length_bytes, Nat.zero_add] at hle
  · rw [List.length_append]
    exact Nat.le_add_right ..

/-- The table finds the position of every offset. -/
theorem position?_ofText (text : List Char) (offset : Nat) :
    (ofText text).position? text offset = some (Position.ofOffset text offset) := by
  obtain ⟨before, after, rfl, hfloor, hposition⟩ := Position.exists_ofOffset text offset
  obtain ⟨earlier, hearlier, hstart⟩ := exists_start before
  have hfound : (ofText (before ++ after)).starts[before.count '\n']? = some (byteLength earlier) := by
    rw [ofText_append, List.getElem?_append_left ?_, hstart]
    rw [List.length_cons, length_startsFrom]
    exact Nat.lt_succ_self _
  have hlengths : byteLength before = byteLength earlier + byteLength (lastLine before) := by
    rw [← byteLength_append, ← hearlier]
  have htext : before ++ after = earlier ++ (lastLine before ++ after) := by
    rw [← List.append_assoc, ← hearlier]
  have hpart : (Span.between (byteLength earlier) (byteLength before)).slice? (before ++ after) =
      some (lastLine before) := by
    refine Span.slice?_eq_some htext rfl ?_
    rw [Span.between, hlengths, Nat.add_sub_cancel_left]
  rw [position?, ← hfloor]
  dsimp only
  rw [search_ofText]
  dsimp only
  rw [hfound, Option.bind_eq_bind, Option.bind_some, if_pos (by omega), hpart, hposition]
  rfl

end LineTable

/-! ## Positions in a text

Who has only a line and a column finds the place in the text by them: past that many line feeds, and from there
that many characters on, which must be on the same line. -/

/-- The text before and after a position, where the text has it. -/
def Position.split? : Position → List Char → Option (List Char × List Char)
  | ⟨0, column⟩, text =>
    if column ≤ (text.takeWhile (· ≠ '\n')).length then some (text.take column, text.drop column) else none
  | ⟨_ + 1, _⟩, [] => none
  | ⟨line + 1, column⟩, c :: text =>
    (split? ⟨if c = '\n' then line else line + 1, column⟩ text).map fun (before, after) => (c :: before, after)

namespace Text

theorem lastLine_cons (c : Char) (text : List Char) :
    lastLine (c :: text) = if c = '\n' ∨ '\n' ∈ text then lastLine text else c :: lastLine text := by
  induction text using List.reverseRecOn with
  | nil =>
    have hchar := lastLine_concat [] c
    rw [List.nil_append] at hchar
    simp only [hchar, List.not_mem_nil, or_false]
    rfl
  | append_singleton text d ih =>
    rw [← List.cons_append, lastLine_concat, lastLine_concat, ih]
    by_cases hd : d = '\n'
    · subst hd
      simp
    · have hmem : '\n' ∈ text ++ [d] ↔ '\n' ∈ text := by simp [Ne.symm hd]
      simp only [if_neg hd, hmem]
      split <;> rfl

theorem lastLine_of_not_mem (h : '\n' ∉ text) : lastLine text = text := by
  induction text with
  | nil => rfl
  | cons c text ih =>
    obtain ⟨hc, htext⟩ := not_or.mp (mt List.mem_cons.mpr h)
    rw [lastLine_cons, if_neg (not_or.mpr ⟨Ne.symm hc, htext⟩), ih htext]

end Text

namespace Position

theorem behind_of_not_mem (h : '\n' ∉ text) : behind text = ⟨0, text.length⟩ := by
  rw [behind, lastLine_of_not_mem h, List.count_eq_zero.mpr h]

theorem split?_of_not_mem (h : '\n' ∉ before) (after : List Char) :
    (behind before).split? (before ++ after) = some (before, after) := by
  have hall : ∀ c ∈ before, decide (c ≠ '\n') = true := by
    intro c hc
    refine decide_eq_true ?_
    rintro rfl
    exact h hc
  have hcolumn : before.length ≤ ((before ++ after).takeWhile (· ≠ '\n')).length := by
    rw [List.takeWhile_append_of_pos hall, List.length_append]
    exact Nat.le_add_right ..
  rw [behind_of_not_mem h, split?, if_pos hcolumn, List.take_left, List.drop_left]

/-- The position behind the beginning of a text leads to where it ends. -/
theorem split?_behind (before after : List Char) :
    (behind before).split? (before ++ after) = some (before, after) := by
  induction before with
  | nil => exact split?_of_not_mem List.not_mem_nil after
  | cons c before ih =>
    by_cases hfeed : c = '\n' ∨ '\n' ∈ before
    · have hlast : (lastLine (c :: before)).length = (lastLine before).length := by
        rw [lastLine_cons, if_pos hfeed]
      obtain ⟨line, hline, hrest⟩ : ∃ line, (c :: before).count '\n' = line + 1 ∧
          (if c = '\n' then line else line + 1) = before.count '\n' := by
        by_cases hc : c = '\n'
        · exact ⟨before.count '\n', by simp [hc], if_pos hc⟩
        · have hpos := List.count_pos_iff.mpr (hfeed.resolve_left hc)
          refine ⟨before.count '\n' - 1, ?_, ?_⟩
          · rw [List.count_cons_of_ne hc]
            omega
          · rw [if_neg hc]
            omega
      rw [behind, hline, hlast, List.cons_append, split?, hrest, ← behind, ih, Option.map_some]
    · rw [eq_comm, ← List.mem_cons] at hfeed
      exact split?_of_not_mem hfeed after

/-- The position of a boundary leads to it. -/
theorem split?_ofOffset (h : isBoundary text offset = true) :
    (ofOffset text offset).split? text = splitAtByte text offset := by
  obtain ⟨before, after, rfl, rfl⟩ := isBoundary_iff.mp h
  rw [ofOffset_byteLength, split?_behind]
  exact (splitAtByte_eq_some_iff.mpr ⟨rfl, rfl⟩).symm

end Position

end PolicyAudit
