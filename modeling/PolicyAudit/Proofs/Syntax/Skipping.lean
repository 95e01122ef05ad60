-- SUMMARY: Skipping what cannot be read stops where the reader goes on.
import PolicyAudit.Proofs.Syntax.Commenting
import PolicyAudit.Proofs.Syntax.Lexing

/-! ## Strings in skipped text

Skipped text is told apart into strings and the rest of it by the same rule as text that is read. -/

namespace PolicyAudit

open Text

namespace Junk

/-- A string in skipped text ends where it ends in text that is read. -/
theorem scan_inside (depth : Nat) (s : List Char) :
    scan (.inside depth) s = (Quotation.scan s).body.length + (Quotation.scan s).closed.toNat +
      scan (.outside depth) (s.drop ((Quotation.scan s).body.length + (Quotation.scan s).closed.toNat)) := by
  fun_induction Quotation.scan s with
  | case1 => simp [scan]
  | case2 rest =>
    simp [scan]
    omega
  | case3 rest => simp [scan]
  | case4 ch rest ih =>
    simp only [scan, ih, Quotation.cons, List.length_cons, Nat.add_right_comm _ 1, List.drop_succ_cons]
  | case5 ch rest hquote hfeed hslash ih =>
    rw [scan]
    · simp only [ih, Quotation.cons, List.length_cons, Nat.add_right_comm _ 1, List.drop_succ_cons]
    · exact hquote
    · exact hfeed
    · exact hslash

/-- Skipping goes on behind a string. -/
theorem scan_quote (depth : Nat) (s : List Char) :
    scan (.outside depth) ('"' :: s) = (Quotation.scan s).length +
      scan (.outside depth) (('"' :: s).drop (Quotation.scan s).length) := by
  have hlength : (Quotation.scan s).length =
      (Quotation.scan s).body.length + (Quotation.scan s).closed.toNat + 1 := by
    unfold Quotation.length
    omega
  rw [hlength, List.drop_succ_cons, scan, if_pos rfl, scan_inside]
  omega

end Junk

namespace Scan

variable {text : List Char} {close : Char} {c : Cursor} {depth p q : Nat}

/-- Bytes that are no characters by themselves do not matter to skipping. -/
theorem runs_skipJunk_high {high bs : List UInt8} (h : (bytes text).drop p = high ++ bs)
    (hhigh : ∀ b ∈ high, 128 ≤ b) (hclose : close.toNat < 128)
    (hend : Runs text (rounds (junkRound text close) depth) (p + high.length) () [] q) :
    Runs text (rounds (junkRound text close) depth) p () [] q := by
  induction high generalizing p with
  | nil => exact hend
  | cons b high ih =>
    obtain ⟨hb, hrest⟩ := getElem?_of_drop_eq_cons h
    have hne := fun d => ne_byte_of_le (d := d) (hhigh b List.mem_cons_self)
    have hround : Runs text (junkRound text close depth) p (.inr depth) [] (p + 1) := by
      refine Runs.of_peek hb ?_
      simp (disch := decide) only [hne, hne close hclose, or_self, and_false, false_and, if_false]
      exact (runs_advance (succ_le_of_getElem?_bytes hb)).followed (runs_pure _ _)
    refine hround.rounds_next (Nat.lt_succ_self p) (ih hrest ?_ ?_)
    · exact fun b hb => hhigh b (List.mem_cons_of_mem _ hb)
    · rw [List.length_cons, Nat.add_comm high.length, ← Nat.add_assoc] at hend
      exact hend

/-- Whether skipping, inside `depth` brackets, goes on `n` characters behind a cursor, inside `depth'` brackets. -/
structure JunkGo (text : List Char) (close : Char) (c : Cursor) (depth n depth' : Nat) : Prop where
  pos : 0 < n
  scan_eq : Junk.scan (.outside depth) c.rest = n + Junk.scan (.outside depth') (c.skip n).rest
  runs : ∀ q, Runs text (rounds (junkRound text close) depth') (c.skip n).pos () [] q →
    Runs text (rounds (junkRound text close) depth) c.pos () [] q

variable {ch : Char} {s : List Char}

theorem JunkGo.of_round {n depth' : Nat} (hrest : c.rest = ch :: s) (hn : 0 < n)
    (hscan : Junk.scan (.outside depth) c.rest = n + Junk.scan (.outside depth') (c.skip n).rest)
    (hround : Runs text (junkRound text close depth) c.pos (.inr depth') [] (c.skip n).pos) :
    JunkGo text close c depth n depth' := by
  have hne : c.rest ≠ [] := by
    rw [hrest]
    exact List.cons_ne_nil ch s
  exact ⟨hn, hscan, fun _ => hround.rounds_next ((c.reaches_skip n).pos_lt (Cursor.skip_length_lt hne hn))⟩

theorem junkGo_quote (hc : c.Within text) (hrest : c.rest = '"' :: s) :
    JunkGo text close c depth c.quotation.length depth := by
  refine .of_round hrest c.quotation.length_pos ?_ (Runs.of_peek (hc.getElem?_bytes_cons hrest) ?_)
  · rw [Cursor.skip_rest, Cursor.quotation, hrest, List.tail_cons]
    exact Junk.scan_quote depth s
  · simp (disch := decide) only [leadByte_eq_byte_iff, if_true]
    exact (runs_skipString hc hrest).bind_pure _

theorem junkGo_open (hc : c.Within text) (hrest : c.rest = ch :: s) (hopen : ch = '{' ∨ ch = '[') :
    JunkGo text close c depth 1 (depth + 1) := by
  have hquote : ch ≠ '"' := by rcases hopen with rfl | rfl <;> decide
  refine .of_round hrest Nat.one_pos ?_ (Runs.of_peek (hc.getElem?_bytes_cons hrest) ?_)
  · rw [Cursor.skip_rest, hrest, Junk.scan, if_neg hquote, if_pos hopen, Nat.add_comm]
    rfl
  · simp (disch := decide) only [leadByte_eq_byte_iff, hquote, hopen, if_true, if_false]
    exact (runs_advance_one hc hrest (by rcases hopen with rfl | rfl <;> decide)).bind_pure _

theorem junkGo_close (hc : c.Within text) (hrest : c.rest = ch :: s) (hend : ch = '}' ∨ ch = ']')
    (hdepth : 0 < depth) : JunkGo text close c depth 1 (depth - 1) := by
  have hquote : ch ≠ '"' := by rcases hend with rfl | rfl <;> decide
  have hopen : ¬(ch = '{' ∨ ch = '[') := by rcases hend with rfl | rfl <;> decide
  refine .of_round hrest Nat.one_pos ?_ (Runs.of_peek (hc.getElem?_bytes_cons hrest) ?_)
  · rw [Cursor.skip_rest, hrest, Junk.scan, if_neg hquote, if_neg hopen, if_pos hend, if_pos hdepth, Nat.add_comm]
    rfl
  · simp (disch := decide) only [leadByte_eq_byte_iff, hquote, hopen, hend, hdepth, and_self, if_true, if_false]
    exact (runs_advance_one hc hrest (by rcases hend with rfl | rfl <;> decide)).bind_pure _

/-- A character that does not matter is skipped, byte by byte. -/
theorem junkGo_other (hc : c.Within text) (hrest : c.rest = ch :: s) (hclose : close = '}' ∨ close = ']')
    (hquote : ch ≠ '"') (hopen : ¬(ch = '{' ∨ ch = '[')) (hend : ¬(ch = '}' ∨ ch = ']'))
    (hcomma : ¬(depth = 0 ∧ ch = ',')) : JunkGo text close c depth 1 depth := by
  have hbyte := hc.getElem?_bytes_cons hrest
  have hlt : close.toNat < 128 := by rcases hclose with rfl | rfl <;> decide
  have hstop : leadByte ch ≠ byte close := by
    rw [Ne, leadByte_eq_byte_iff hlt]
    rintro rfl
    exact hend hclose
  have hround : Runs text (junkRound text close depth) c.pos (.inr depth) [] (c.pos + 1) := by
    refine Runs.of_peek hbyte ?_
    simp (disch := decide) only [leadByte_eq_byte_iff, hstop, hquote, hopen, hend, hcomma, or_false, false_and,
      if_false]
    exact (runs_advance (succ_le_of_getElem?_bytes hbyte)).bind_pure _
  have hbytes := hc.drop_bytes
  rw [hrest, bytes_cons] at hbytes
  have htail := (getElem?_of_drop_eq_cons hbytes).2
  have hskip : (c.skip 1).pos = c.pos + 1 + (tailBytes ch).length := by
    rw [Nat.add_assoc, length_tailBytes, Cursor.skip, hrest]
    rfl
  refine ⟨Nat.one_pos, ?_, fun q hgo => ?_⟩
  · rw [Cursor.skip_rest, hrest, Junk.scan, if_neg hquote, if_neg hopen, if_neg hend, if_neg hcomma, Nat.add_comm]
    rfl
  · rw [hskip] at hgo
    exact hround.rounds_next (Nat.lt_succ_self _) (runs_skipJunk_high htail (fun b => le_of_mem_tailBytes) hlt hgo)

/-- Outside all brackets that it has met, skipping stops at a comma and at every closing bracket. -/
theorem runs_junkRound_stop (hc : c.Within text) (hrest : c.rest = ch :: s) (hclose : close = '}' ∨ close = ']')
    (hstop : ch = ',' ∨ ch = '}' ∨ ch = ']') :
    Runs text (junkRound text close 0) c.pos (.inl ()) [] c.pos ∧ Junk.scan (.outside 0) c.rest = 0 := by
  refine ⟨Runs.of_peek (hc.getElem?_bytes_cons hrest) ?_, ?_⟩
  · rcases hstop with rfl | rfl | rfl <;> rcases hclose with rfl | rfl <;> exact runs_pure _ _
  · rw [hrest]
    rcases hstop with rfl | rfl | rfl <;> rfl

/-- What skipping comes to at a cursor: it stops, or it goes on behind something. -/
theorem junk_cases (hc : c.Within text) (hclose : close = '}' ∨ close = ']') (depth : Nat) :
    (Runs text (junkRound text close depth) c.pos (.inl ()) [] c.pos ∧ Junk.scan (.outside depth) c.rest = 0) ∨
      c.rest ≠ [] ∧ ∃ n depth', JunkGo text close c depth n depth' := by
  cases hrest : c.rest with
  | nil =>
    have hbyte := hc.getElem?_bytes
    rw [hrest] at hbyte
    exact .inl ⟨Runs.of_peek hbyte (runs_pure _ _), rfl⟩
  | cons ch s =>
    rw [← hrest]
    have hgo : ∀ {n depth'}, JunkGo text close c depth n depth' →
        c.rest ≠ [] ∧ ∃ n depth', JunkGo text close c depth n depth' := by
      intro n depth' h
      rw [hrest]
      exact ⟨List.cons_ne_nil ch s, n, depth', h⟩
    by_cases hquote : ch = '"'
    · subst hquote
      exact .inr (hgo (junkGo_quote hc hrest))
    by_cases hopen : ch = '{' ∨ ch = '['
    · exact .inr (hgo (junkGo_open hc hrest hopen))
    by_cases hend : ch = '}' ∨ ch = ']'
    · rcases Nat.eq_zero_or_pos depth with rfl | hdepth
      · exact .inl (runs_junkRound_stop hc hrest hclose (.inr hend))
      · exact .inr (hgo (junkGo_close hc hrest hend hdepth))
    by_cases hcomma : depth = 0 ∧ ch = ','
    · obtain ⟨rfl, hcomma⟩ := hcomma
      exact .inl (runs_junkRound_stop hc hrest hclose (.inl hcomma))
    · exact .inr (hgo (junkGo_other hc hrest hclose hquote hopen hend hcomma))

/-- Skipping inside `depth` brackets stops where reading goes on. -/
theorem runs_rounds_junkRound (hc : c.Within text) (hclose : close = '}' ∨ close = ']') (depth : Nat) :
    Runs text (rounds (junkRound text close) depth) c.pos () []
      (c.skip (Junk.scan (.outside depth) c.rest)).pos := by
  induction hn : c.rest.length using Nat.strongRecOn generalizing c depth with
  | _ n ih =>
    rcases junk_cases hc hclose depth with ⟨hround, hscan⟩ | ⟨hne, k, depth', hgo⟩
    · rw [hscan, Cursor.skip_zero]
      exact hround.rounds_stop
    · rw [hgo.scan_eq, ← Cursor.skip_skip]
      apply hgo.runs
      exact ih _ (hn ▸ Cursor.skip_length_lt hne hgo.pos) (hc.of_reaches (c.reaches_skip k)) depth' rfl

/-- Skipping junk. -/
theorem runs_skipJunk (hc : c.Within text) (hclose : close = '}' ∨ close = ']') :
    Runs text (skipJunk text close) c.pos () [] c.readJunk.next.pos :=
  runs_rounds_junkRound hc hclose 0

end Scan

/-! ## After junk -/

namespace Cursor

theorem skipIf_errors (c : Cursor) (moves : Bool) : (c.skipIf moves).errors = [] := by
  cases moves <;> rfl

end Cursor

/-- Skipping stops at once only where something ends. -/
theorem Junk.ends_of_length_zero {ch : Char} {s : List Char} (h : length (ch :: s) = 0) :
    ch = ',' ∨ ch = '}' ∨ ch = ']' := by
  by_contra hne
  simp only [not_or] at hne
  obtain ⟨hcomma, hclose⟩ := hne
  simp only [length, scan, hclose, hcomma, or_self, and_false, if_false] at h
  split at h
  · cases h
  split at h <;> cases h

namespace Scan

variable {text : List Char} {c d : Cursor} {ch : Char} {s : List Char}

theorem runs_skipIf {moves : Bool} (h : moves = true → Runs text (advance 1) c.pos () [] (c.skip 1).pos) :
    Runs text (onlyIf moves (advance 1)) c.pos () (c.skipIf moves).errors (c.skipIf moves).next.pos := by
  cases moves with
  | true => exact h rfl
  | false => exact runs_pure () c.pos

/-- Where skipping has not moved the cursor, it stands before a character of one byte. -/
theorem runs_advance_stuck (hc : c.Within text) (hrest : c.rest = ch :: s) (hr : c.Reaches d)
    (hstuck : d.readJunk.next.pos = c.pos) :
    d.readJunk.next = c ∧ Runs text (advance 1) c.pos () [] (c.skip 1).pos := by
  have hjunk := d.readJunk.reaches
  obtain rfl : d = c := hr.eq_of_pos_eq (Nat.le_antisymm (hstuck ▸ hjunk.pos_le) hr.pos_le)
  have hstay := hjunk.eq_of_pos_eq hstuck
  refine ⟨hstay, runs_advance_one hc hrest ?_⟩
  have hzero : Junk.length (ch :: s) = 0 := by
    by_contra hne
    have hmore : d.rest ≠ [] := by
      rw [hrest]
      exact List.cons_ne_nil ch s
    have hlt := Cursor.skip_length_lt hmore (Nat.pos_of_ne_zero hne)
    rw [← hrest] at hlt
    exact absurd (congrArg (·.rest.length) hstay) (Nat.ne_of_lt hlt)
  rcases Junk.ends_of_length_zero hzero with rfl | rfl | rfl <;> decide

/-- Skipping what is no member's name. -/
theorem runs_skipNoName (hc : c.Within text) (hrest : c.rest = ch :: s) :
    Runs text (skipNoName text) c.pos () c.readNoMember.errors c.readNoMember.next.pos := by
  have hjunk := runs_skipJunk hc (.inl rfl)
  have hd : c.readJunk.next.Within text := hc.of_reaches c.readJunk.reaches
  refine Runs.of_cursor ((runs_report _ _ _ _).bind (hjunk.followed (Runs.of_cursor ?_)))
  simp only [hd.getElem?_bytes_eq_iff ',' (by decide)]
  refine runs_skipIf fun hmoves => ?_
  rcases of_decide_eq_true hmoves with hcomma | hstuck
  · exact runs_advance_peek hd hcomma (by decide)
  · obtain ⟨hstay, hadvance⟩ := runs_advance_stuck hc hrest (.refl c) hstuck
    rw [hstay]
    exact hadvance

/-- Skipping what is no element. -/
theorem runs_skipNoItem (hc : c.Within text) (hrest : c.rest = ch :: s) (hch : ch ≠ ']') (hr : c.Reaches d) :
    Runs text (skipNoItem text c.pos) d.pos () []
      (d.readJunk.next.skipIf (d.readJunk.next.pos = c.pos)).next.pos := by
  have hjunk := runs_skipJunk (hc.of_reaches hr) (.inr rfl)
  refine hjunk.followed (Runs.of_cursor ?_)
  by_cases hstuck : d.readJunk.next.pos = c.pos
  · obtain ⟨hstay, hadvance⟩ := runs_advance_stuck hc hrest hr hstuck
    have hpeek : (bytes text)[c.pos]? ≠ some (byte ']') := by
      rw [Ne, hc.getElem?_bytes_eq_iff ']' (by decide), Cursor.peek?, hrest]
      simpa using hch
    have hnext := congrArg (fun e : Cursor => (e.skipIf true).next.pos) hstay
    simp only [hstuck, hpeek, ne_eq, not_false_eq_true, and_self, decide_true, hnext]
    exact runs_skipIf fun _ => hadvance
  · simp only [hstuck, false_and, decide_false]
    exact runs_pure _ _

/-! ## Ends of members and elements -/

/-- Skipping what separates a member from the next one. -/
theorem runs_endMember (hc : c.Within text) :
    Runs text (endMember text) c.pos () c.readMemberEnd.errors c.readMemberEnd.next.pos := by
  have hd : c.readTrivia.next.Within text := hc.of_reaches c.readTrivia.reaches
  simp only [Cursor.readMemberEnd, Reading.andThen_errors, Reading.andThen_next]
  refine (runs_skipTrivia hc).bind (Runs.of_cursor ?_)
  generalize c.readTrivia.next = d at hd ⊢
  have hbyte := hd.getElem?_bytes
  cases hrest : d.rest with
  | nil =>
    rw [hrest] at hbyte
    simp only [Cursor.peek?, hrest, hbyte, List.head?_nil, Option.map_none]
    exact runs_pure _ _
  | cons ch s =>
    rw [hrest, List.head?_cons, Option.map_some] at hbyte
    simp (disch := decide) only [Cursor.peek?, hrest, hbyte, List.head?_cons, leadByte_eq_byte_iff]
    split
    · next hcomma => exact runs_advance_one hd hrest (by rw [hcomma]; decide)
    split
    · exact runs_pure _ _
    split
    · exact runs_report _ _ _ _
    · have hjunk := runs_skipJunk hd (.inl rfl)
      have he : d.readJunk.next.Within text := hd.of_reaches d.readJunk.reaches
      refine (runs_report _ _ _ _).bind (hjunk.followed (Runs.of_peek rfl ?_))
      simp only [he.getElem?_bytes_eq_iff ',' (by decide)]
      exact runs_skipIf fun hcomma => runs_advance_peek he (of_decide_eq_true hcomma) (by decide)

/-- Skipping what separates an element from the next one. -/
theorem runs_endItem (hc : c.Within text) :
    Runs text (endItem text) c.pos () c.readItemEnd.errors c.readItemEnd.next.pos := by
  have hd : c.readTrivia.next.Within text := hc.of_reaches c.readTrivia.reaches
  simp only [Cursor.readItemEnd, Reading.andThen_errors, Reading.andThen_next]
  refine (runs_skipTrivia hc).bind (Runs.of_cursor ?_)
  generalize c.readTrivia.next = d at hd ⊢
  have hbyte := hd.getElem?_bytes
  cases hrest : d.rest with
  | nil =>
    rw [hrest] at hbyte
    simp only [Cursor.peek?, hrest, hbyte, List.head?_nil, Option.map_none]
    exact runs_pure _ _
  | cons ch s =>
    rw [hrest, List.head?_cons, Option.map_some] at hbyte
    simp (disch := decide) only [Cursor.peek?, hrest, hbyte, List.head?_cons, leadByte_eq_byte_iff]
    split
    · next hcomma => exact runs_advance_one hd hrest (by rw [hcomma]; decide)
    split
    · exact runs_pure _ _
    · exact runs_report _ _ _ _

end Scan

end PolicyAudit
