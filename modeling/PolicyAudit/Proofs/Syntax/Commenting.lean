-- SUMMARY: Scanning blanks and comments ends where the reader goes on.
import PolicyAudit.Proofs.Syntax.Scanning
import PolicyAudit.Proofs.Syntax.Trivia

namespace PolicyAudit

open Text

/-! ## Comments -/

namespace Trivia

/-- A line comment ends before its line feed, which is a blank like any other. -/
theorem scan_lineComment_takeWhile (s : List Char) :
    scan .lineComment s = (scan .plain (s.dropWhile (· ≠ '\n'))).add (s.takeWhile (· ≠ '\n')).length := by
  induction s with
  | nil => simp [scan, add]
  | cons ch s ih =>
    by_cases hfeed : ch = '\n'
    · subst hfeed
      simp [scan, add, isGap]
    · rw [scan, ih]
      · simp [hfeed]
      · exact hfeed

/-- The search for the end of a block comment goes on behind a character where it is not. -/
theorem findByte?_cons_of_not {ch : Char} {s : List Char} (h : ¬['*', '/'].isPrefixOf (ch :: s)) (n : Nat) :
    Scan.findByte? ['*', '/'].isPrefixOf (ch :: s) =
        (Scan.findByte? ['*', '/'].isPrefixOf s).map (· + ch.utf8Size) ∧
      scan (.blockComment n) (ch :: s) = (scan (.blockComment (n + ch.utf8Size)) s).add 1 := by
  refine ⟨by rw [Scan.findByte?, if_neg h], ?_⟩
  rw [scan]
  rintro rest rfl rfl
  exact h rfl

/-- A block comment is closed where its end is found. -/
theorem scan_blockComment_of_find {s : List Char} {offset : Nat}
    (h : Scan.findByte? ['*', '/'].isPrefixOf s = some offset) (n : Nat) :
    ∃ body rest, s = body ++ '*' :: '/' :: rest ∧ byteLength body = offset ∧
      scan (.blockComment n) s = (scan .plain rest).add (body.length + 2) := by
  induction s generalizing offset n with
  | nil => cases h
  | cons ch s ih =>
    by_cases hend : ['*', '/'].isPrefixOf (ch :: s)
    · obtain ⟨rest, hrest⟩ := List.isPrefixOf_iff_prefix.mp hend
      rw [Scan.findByte?, if_pos hend] at h
      obtain rfl := Option.some.inj h
      refine ⟨[], rest, hrest.symm, rfl, ?_⟩
      rw [← hrest]
      simp [scan]
    · obtain ⟨hfind, hscan⟩ := findByte?_cons_of_not hend n
      rw [hfind] at h
      obtain ⟨found, hfound, rfl⟩ := Option.map_eq_some_iff.mp h
      obtain ⟨body, rest, rfl, hbody, hrest⟩ := ih hfound (n + ch.utf8Size)
      refine ⟨ch :: body, rest, rfl, ?_, ?_⟩
      · rw [byteLength_cons, hbody, Nat.add_comm]
      · rw [hscan, hrest, add_add, List.length_cons]

/-- A block comment whose end is not found is all that is left of the text. -/
theorem scan_blockComment_of_not_find {s : List Char}
    (h : Scan.findByte? ['*', '/'].isPrefixOf s = none) (n : Nat) :
    scan (.blockComment n) s = ⟨s.length, some (n + byteLength s)⟩ := by
  induction s generalizing n with
  | nil => simp [scan]
  | cons ch s ih =>
    have hend : ¬['*', '/'].isPrefixOf (ch :: s) := by
      intro hend
      rw [Scan.findByte?, if_pos hend] at h
      cases h
    obtain ⟨hfind, hscan⟩ := findByte?_cons_of_not hend n
    rw [hfind] at h
    rw [hscan, ih (Option.map_eq_none_iff.mp h), add, byteLength_cons, Nat.add_assoc]
    rfl

end Trivia

namespace Cursor

variable {c : Cursor}

theorem readTrivia_of_scan_zero (h : Trivia.ofText c.rest = ⟨0, none⟩) :
    c.readTrivia.errors = [] ∧ c.readTrivia.next = c := by
  simp [readTrivia, h]

theorem readTrivia_of_rest_nil (h : c.rest = []) : c.readTrivia.errors = [] ∧ c.readTrivia.next = c :=
  readTrivia_of_scan_zero (by rw [h, Trivia.ofText, Trivia.scan_nil])

/-- A comment that goes on to the end of the text is a fault from where it is opened. -/
theorem readTrivia_of_scan_all (h : Trivia.ofText c.rest = ⟨c.rest.length, some (byteLength c.rest)⟩) :
    c.readTrivia.errors = [⟨.openComment, ⟨c.pos, byteLength c.rest⟩⟩] ∧
      c.readTrivia.next = c.skip c.rest.length := by
  simp [readTrivia, h, skip_length]

/-- Whether the trivia at a cursor go on at another one, behind a piece of them with some faults. -/
structure TriviaGo (c d : Cursor) (errors : List SyntaxError) : Prop where
  reaches : c.Reaches d
  shorter : d.rest.length < c.rest.length
  errors_eq : c.readTrivia.errors = errors ++ d.readTrivia.errors
  next_eq : c.readTrivia.next = d.readTrivia.next

theorem TriviaGo.of_scan_add {w s : List Char} (h : c.rest = w ++ s) (hw : 0 < w.length)
    (hscan : Trivia.scan .plain c.rest = (Trivia.scan .plain s).add w.length) :
    c.TriviaGo ⟨c.pos + byteLength w, s⟩ [] := by
  have hskip := skip_of_append h
  have hnext : c.readTrivia.next = (c.skip w.length).readTrivia.next := by
    simp only [readTrivia, Trivia.ofText, hscan, hskip, Trivia.add_length]
    rw [← hskip, skip_skip, Nat.add_comm]
  refine ⟨hskip ▸ c.reaches_skip w.length, ?_, ?_, hskip ▸ hnext⟩
  · rw [h, List.length_append]
    exact Nat.lt_add_of_pos_left hw
  · rw [hskip] at hnext
    simp only [readTrivia, Trivia.ofText] at hnext ⊢
    rw [hscan, Trivia.add_open?, ← hscan, hnext, List.nil_append]

end Cursor

namespace Scan

variable {text : List Char} {c : Cursor}

/-- A block comment is left behind, and the trivia go on there. -/
theorem runs_skipBlock {s : List Char} (hc : c.Within text) (hrest : c.rest = '/' :: '*' :: s) :
    ∃ d errors, c.TriviaGo d errors ∧ Runs text (skipBlock text) c.pos () errors d.pos := by
  have hopen : c.rest = ['/', '*'] ++ s := hrest
  have hslice : Runs text (slice text (c.pos + 2) (byteLength text)) c.pos s [] c.pos :=
    runs_slice_rest hc hopen c.pos
  have hall := hc.pos_add_byteLength
  cases hfind : findByte? ['*', '/'].isPrefixOf s with
  | some offset =>
    obtain ⟨body, rest, rfl, hbody, hscan⟩ := Trivia.scan_blockComment_of_find hfind 2
    have hpiece : c.rest = (['/', '*'] ++ (body ++ ['*', '/'])) ++ rest := by simp [hrest]
    have hbytes : byteLength (['/', '*'] ++ (body ++ ['*', '/'])) = 2 + (offset + 2) := by
      rw [byteLength_append, byteLength_append, hbody]
      rfl
    have hend : c.pos + 2 + offset + 2 ≤ byteLength text := by
      rw [← hall, hpiece, byteLength_append, hbytes]
      omega
    refine ⟨_, [], .of_scan_add hpiece (Nat.succ_pos _) ?_, ?_⟩
    · rw [hrest, Trivia.scan, hscan]
      simp
    · refine Runs.of_cursor (hslice.followed ?_)
      rw [hfind]
      refine (runs_seek hend c.pos).of_eq rfl rfl ?_
      simp only [hbytes]
      omega
  | none =>
    have hscan : Trivia.ofText c.rest = ⟨c.rest.length, some (byteLength c.rest)⟩ := by
      have hbytes : byteLength c.rest = 2 + byteLength s := by rw [hopen, byteLength_append]; rfl
      rw [hbytes, hrest, Trivia.ofText, Trivia.scan, Trivia.scan_blockComment_of_not_find hfind]
      rfl
    obtain ⟨herrors, hnext⟩ := Cursor.readTrivia_of_scan_all hscan
    have hend : (c.skip c.rest.length).rest = [] := List.drop_length
    obtain ⟨hnone, hstay⟩ := Cursor.readTrivia_of_rest_nil hend
    refine ⟨c.skip c.rest.length, c.readTrivia.errors, ⟨c.reaches_skip _, ?_, ?_, ?_⟩, ?_⟩
    · exact Cursor.skip_length_lt (by simp [hrest]) (by simp [hrest])
    · rw [hnone, List.append_nil]
    · rw [hnext, hstay]
    · refine Runs.of_cursor (hslice.followed ?_)
      rw [hfind]
      refine ((runs_seek (Nat.le_refl _) c.pos).followed (runs_report _ _ _ _)).of_eq rfl ?_ ?_
      · rw [herrors, ← hall, Nat.add_sub_cancel_left]
      · rw [Cursor.skip_length, hall]

/-- A line comment is left behind up to its line feed, and the trivia go on there. -/
theorem runs_skipLine {s : List Char} (hc : c.Within text) (hrest : c.rest = '/' :: '/' :: s) :
    ∃ d, c.TriviaGo d [] ∧ Runs text (skipWhile text (· ≠ byte '\n')) c.pos () [] d.pos := by
  have hpiece : c.rest = ('/' :: '/' :: s.takeWhile (· ≠ '\n')) ++ s.dropWhile (· ≠ '\n') := by
    rw [hrest, List.cons_append, List.cons_append, List.takeWhile_append_dropWhile]
  have htake : c.rest.takeWhile (· ≠ '\n') = '/' :: '/' :: s.takeWhile (· ≠ '\n') := by
    rw [hrest]
    rfl
  refine ⟨_, .of_scan_add hpiece (Nat.succ_pos _) ?_, ?_⟩
  · rw [hrest, Trivia.scan, Trivia.scan_lineComment_takeWhile, Trivia.add_add]
    rfl
  · refine (runs_skipWhile_chars hc (· ≠ '\n') ?_ ?_).of_eq rfl rfl ?_
    · intro ch
      simp [leadByte_eq_byte_iff (d := '\n') (by decide)]
    · intro ch _ b hb
      exact decide_eq_true (ne_byte_of_le (le_of_mem_tailBytes hb) (by decide))
    · rw [htake, Cursor.skip_of_append hpiece]

/-- A round over trivia at a slash takes a comment, or stops. -/
theorem runs_triviaRound_slash {s : List Char} (hc : c.Within text) (hrest : c.rest = '/' :: s) :
    (Runs text (triviaRound text) c.pos (.inl ()) [] c.pos ∧ Trivia.ofText c.rest = ⟨0, none⟩) ∨
      ∃ d errors, c.TriviaGo d errors ∧ Runs text (triviaRound text) c.pos (.inr ()) errors d.pos := by
  have hbyte := hc.getElem?_bytes_cons hrest
  have hnext := hc.getElem?_bytes_succ hrest (by decide)
  have hslash : leadByte '/' = byte '/' := leadByte_of_lt (by decide)
  have hgap : isGapByte (byte '/') = false := by decide
  by_cases hline : ∃ t, s = '/' :: t
  · obtain ⟨t, rfl⟩ := hline
    obtain ⟨d, hgo, hrun⟩ := runs_skipLine hc hrest
    refine .inr ⟨d, [], hgo, Runs.of_cursor ?_⟩
    simp only [hbyte, hslash, hgap, hnext, List.head?_cons, Option.map_some, if_true]
    exact hrun.followed (runs_pure _ _)
  by_cases hblock : ∃ t, s = '*' :: t
  · obtain ⟨t, rfl⟩ := hblock
    obtain ⟨d, errors, hgo, hrun⟩ := runs_skipBlock hc hrest
    refine .inr ⟨d, errors, hgo, Runs.of_cursor ?_⟩
    have hstar : leadByte '*' = byte '*' := leadByte_of_lt (by decide)
    have hne : byte '*' ≠ byte '/' := by decide
    simp only [hbyte, hslash, hgap, hnext, List.head?_cons, Option.map_some, hstar, Option.some.injEq, hne, if_true,
      if_false]
    exact hrun.bind_pure _
  · refine .inl ⟨Runs.of_cursor ?_, ?_⟩
    · have hnoline : (bytes text)[c.pos + 1]? ≠ some (byte '/') := by
        rw [hnext, Ne, map_leadByte_eq_some_iff (by decide), List.head?_eq_some_iff]
        exact hline
      have hnoblock : (bytes text)[c.pos + 1]? ≠ some (byte '*') := by
        rw [hnext, Ne, map_leadByte_eq_some_iff (by decide), List.head?_eq_some_iff]
        exact hblock
      simp only [hbyte, hslash, hgap, hnoline, hnoblock, if_true, if_false, Bool.false_eq_true]
      exact runs_pure _ _
    · rw [hrest, Trivia.ofText, Trivia.scan]
      · rfl
      · rintro rest - rfl
        exact hline ⟨rest, rfl⟩
      · rintro rest - rfl
        exact hblock ⟨rest, rfl⟩

/-- What a round over trivia comes to: it stops where there are none, or leaves a piece of them behind. -/
theorem runs_triviaRound (hc : c.Within text) :
    (Runs text (triviaRound text) c.pos (.inl ()) [] c.pos ∧ Trivia.ofText c.rest = ⟨0, none⟩) ∨
      ∃ d errors, c.TriviaGo d errors ∧ Runs text (triviaRound text) c.pos (.inr ()) errors d.pos := by
  cases hrest : c.rest with
  | nil =>
    refine .inl ⟨Runs.of_cursor ?_, Trivia.scan_nil⟩
    rw [hc.getElem?_bytes, hrest]
    exact runs_pure _ _
  | cons ch s =>
    have hbyte := hc.getElem?_bytes_cons hrest
    by_cases hslash : ch = '/'
    · subst hslash
      exact hrest ▸ runs_triviaRound_slash hc hrest
    have hsolid : leadByte ch ≠ byte '/' := mt (leadByte_eq_byte_iff (by decide)).mp hslash
    by_cases hgap : isGap ch
    · refine .inr ⟨_, [], .of_scan_add (w := [ch]) hrest Nat.one_pos ?_, Runs.of_cursor ?_⟩
      · rw [hrest]
        exact Trivia.scan_gap (.blank hgap .nil) s
      · simp only [hbyte, isGapByte_leadByte, hgap, if_true]
        refine ((runs_advance_one hc hrest (toNat_lt_of_isGap hgap)).bind_pure _).of_eq rfl rfl ?_
        exact congrArg Cursor.pos (Cursor.skip_of_append (w := [ch]) hrest)
    · refine .inl ⟨Runs.of_cursor ?_, ?_⟩
      · simp only [hbyte, isGapByte_leadByte, hgap, hsolid, if_false, Bool.false_eq_true]
        exact runs_pure _ _
      · exact Trivia.scan_of_solid (Trivia.solid_cons (Bool.eq_false_of_not_eq_true hgap) hslash)

/-- Scanning trivia. -/
theorem runs_skipTrivia (hc : c.Within text) :
    Runs text (skipTrivia text) c.pos () c.readTrivia.errors c.readTrivia.next.pos := by
  induction hn : c.rest.length using Nat.strongRecOn generalizing c with
  | _ n ih =>
    rcases runs_triviaRound hc with ⟨hround, hscan⟩ | ⟨d, errors, hgo, hround⟩
    · obtain ⟨herrors, hnext⟩ := Cursor.readTrivia_of_scan_zero hscan
      rw [herrors, hnext]
      exact hround.loop_stop
    · have hrest := ih d.rest.length (hn ▸ hgo.shorter) (hc.of_reaches hgo.reaches) rfl
      rw [hgo.errors_eq, hgo.next_eq]
      exact hround.loop_next hrest

/-- Behind trivia, the byte at the cursor tells what to do. -/
theorem Runs.of_trivia {β : Type} {f : Option UInt8 → Scan β} {b : β} {errors : List SyntaxError} {s : List Char}
    {q : Nat} (hc : c.Within text) (hrest : c.readTrivia.next.rest = s)
    (h : Runs text (f (s.head?.map leadByte)) c.readTrivia.next.pos b errors q) :
    Runs text (skipTrivia text >>= fun _ => peek text >>= f) c.pos b (c.readTrivia.errors ++ errors) q := by
  have hbyte := (hc.of_reaches c.readTrivia.reaches).getElem?_bytes
  rw [hrest] at hbyte
  exact (runs_skipTrivia hc).bind (Runs.of_peek hbyte h)

end Scan

end PolicyAudit
