-- SUMMARY: Scanning strings, numbers and words takes parts that the text has and finds what the reader finds.
import PolicyAudit.Proofs.Syntax.Literals
import PolicyAudit.Proofs.Syntax.Scanning
import PolicyAudit.Proofs.Syntax.Value

namespace PolicyAudit

open Text

/-! ## Strings -/

namespace Quotation

/-- What a string is written as, quotation marks included. -/
def quoted (q : Quotation) : List Char := '"' :: (q.body ++ if q.closed then ['"'] else [])

theorem length_quoted (q : Quotation) : q.quoted.length = q.length := by
  cases hclosed : q.closed <;> (simp [quoted, length, hclosed]; omega)

theorem byteLength_quoted (q : Quotation) : byteLength q.quoted = 1 + byteLength q.body + q.closed.toNat := by
  have hmark : '"'.utf8Size = 1 := rfl
  cases hclosed : q.closed <;> simp [quoted, hclosed, hmark]
  omega

theorem scan_isPrefix (s : List Char) : (scan s).body <+: s := by
  fun_induction scan s with
  | case1 => exact List.nil_prefix
  | case2 => exact List.nil_prefix
  | case3 => exact List.nil_prefix
  | case4 c rest ih => exact (List.prefix_cons_inj _).mpr ((List.prefix_cons_inj _).mpr ih)
  | case5 c rest _ _ _ ih => exact (List.prefix_cons_inj _).mpr ih

/-- A string stands where it is read. -/
theorem exists_quoted (s : List Char) : ∃ after, '"' :: s = (scan s).quoted ++ after := by
  cases hclosed : (scan s).closed with
  | false =>
    obtain ⟨after, hafter⟩ := scan_isPrefix s
    exact ⟨after, by simp [quoted, hclosed, hafter]⟩
  | true =>
    obtain ⟨after, hafter⟩ := exists_of_closed hclosed
    exact ⟨after, by simp [quoted, hclosed, ← hafter]⟩

end Quotation

namespace Scan

variable {text : List Char} {c : Cursor} {p index : Nat}

theorem runs_stringRound_other {b : UInt8} (hb : (bytes text)[index]? = some b) (hslash : b ≠ byte '\\')
    (hquote : b ≠ byte '"') (hfeed : b ≠ byte '\n') (p : Nat) :
    Runs text (stringRound text index) p (.inr (index + 1)) [] p := by
  simp only [stringRound, hb, hslash, hquote, hfeed, if_false]
  exact runs_pure _ p

/-- Bytes that are no characters by themselves do not end a string. -/
theorem runs_stringEnd_high {found : Nat × Bool} {high bs : List UInt8}
    (h : (bytes text).drop index = high ++ bs) (hhigh : ∀ b ∈ high, 128 ≤ b)
    (hend : Runs text (stringEnd text (index + high.length)) p found [] p) :
    Runs text (stringEnd text index) p found [] p := by
  induction high generalizing index with
  | nil => exact hend
  | cons b high ih =>
    obtain ⟨hb, hrest⟩ := getElem?_of_drop_eq_cons h
    have hle := hhigh b List.mem_cons_self
    have hround := runs_stringRound_other hb (ne_byte_of_le hle (by decide)) (ne_byte_of_le hle (by decide))
      (ne_byte_of_le hle (by decide)) p
    refine hround.loop_next (ih hrest (fun b hb => hhigh b (List.mem_cons_of_mem _ hb)) ?_)
    rw [List.length_cons, Nat.add_comm high.length, ← Nat.add_assoc] at hend
    exact hend

/-- A string goes on behind a character that neither ends it nor takes another one along. -/
theorem runs_stringEnd_char {found : Nat × Bool} {ch : Char} {s : List Char}
    (h : (bytes text).drop index = bytes (ch :: s)) (hslash : ch ≠ '\\') (hquote : ch ≠ '"') (hfeed : ch ≠ '\n')
    (hend : Runs text (stringEnd text (index + ch.utf8Size)) p found [] p) :
    Runs text (stringEnd text index) p found [] p := by
  rw [bytes_cons] at h
  obtain ⟨hbyte, hrest⟩ := getElem?_of_drop_eq_cons h
  have hround := runs_stringRound_other hbyte (mt (leadByte_eq_byte_iff (by decide)).mp hslash)
    (mt (leadByte_eq_byte_iff (by decide)).mp hquote) (mt (leadByte_eq_byte_iff (by decide)).mp hfeed) p
  refine hround.loop_next (runs_stringEnd_high hrest (fun b => le_of_mem_tailBytes) ?_)
  rw [Nat.add_assoc, length_tailBytes]
  exact hend

/-- A string goes on behind a backslash and the character it takes along. -/
theorem runs_stringEnd_escape {found : Nat × Bool} {ch : Char} {s : List Char}
    (h : (bytes text).drop index = bytes ('\\' :: ch :: s))
    (hend : Runs text (stringEnd text (index + 1 + ch.utf8Size)) p found [] p) :
    Runs text (stringEnd text index) p found [] p := by
  have hslash : bytes ('\\' :: ch :: s) = byte '\\' :: leadByte ch :: (tailBytes ch ++ bytes s) := by
    rw [bytes_cons, bytes_cons, leadByte_of_lt (by decide), tailBytes_of_lt (by decide), List.nil_append]
  rw [hslash] at h
  obtain ⟨hbyte, hnext⟩ := getElem?_of_drop_eq_cons h
  have hrest : (bytes text).drop (index + 2) = tailBytes ch ++ bytes s := (getElem?_of_drop_eq_cons hnext).2
  have hround : Runs text (stringRound text index) p (.inr (index + 2)) [] p := by
    simp only [stringRound, hbyte, if_true]
    exact runs_pure _ p
  refine hround.loop_next (runs_stringEnd_high hrest (fun b => le_of_mem_tailBytes) ?_)
  rw [← length_tailBytes] at hend
  have hsame : index + 2 + (tailBytes ch).length = index + 1 + (1 + (tailBytes ch).length) := by omega
  rw [hsame]
  exact hend

/-- A backslash at the end of the text takes along what is not there. -/
theorem runs_stringEnd_slash (h : (bytes text).drop index = bytes ['\\'])
    (hall : index + 1 = byteLength text) (p : Nat) :
    Runs text (stringEnd text index) p (index + 2, false) [] p := by
  have hbyte : (bytes text)[index]? = some (byte '\\') :=
    (getElem?_of_drop_bytes h).trans (congrArg some (leadByte_of_lt (by decide)))
  have hnone : (bytes text)[index + 2]? = none := by
    rw [List.getElem?_eq_none_iff, length_bytes]
    omega
  have hround : Runs text (stringRound text index) p (.inr (index + 2)) [] p := by
    simp only [stringRound, hbyte, if_true]
    exact runs_pure _ p
  refine hround.loop_next (Runs.loop_stop ?_)
  simp only [stringRound, hnone]
  exact runs_pure _ p

/-- The end of a string is found where the string ends. -/
theorem runs_stringEnd {s : List Char} (h : (bytes text).drop index = bytes s)
    (hall : index + byteLength s = byteLength text) (p : Nat) :
    ∃ stop, Runs text (stringEnd text index) p (stop, (Quotation.scan s).closed) [] p ∧
      min stop (byteLength text) =
        index + byteLength (Quotation.scan s).body + (Quotation.scan s).closed.toNat := by
  have hbyte := getElem?_of_drop_bytes h
  fun_induction Quotation.scan s generalizing index with
  | case1 =>
    refine ⟨index, Runs.loop_stop ?_, ?_⟩
    · simp only [stringRound, hbyte]
      exact runs_pure _ p
    · simp at hall ⊢
      omega
  | case2 rest =>
    have hquote : (bytes text)[index]? = some (byte '"') :=
      hbyte.trans (congrArg some (leadByte_of_lt (by decide)))
    have hne : byte '"' ≠ byte '\\' := by decide
    refine ⟨index + 1, Runs.loop_stop ?_, ?_⟩
    · simp only [stringRound, hquote, hne, if_false, if_true]
      exact runs_pure _ p
    · have hsize : '"'.utf8Size = 1 := rfl
      simp [hsize] at hall ⊢
      omega
  | case3 =>
    have hfeed : (bytes text)[index]? = some (byte '\n') :=
      hbyte.trans (congrArg some (leadByte_of_lt (by decide)))
    have hslash : byte '\n' ≠ byte '\\' := by decide
    have hquote : byte '\n' ≠ byte '"' := by decide
    refine ⟨index, Runs.loop_stop ?_, ?_⟩
    · simp only [stringRound, hfeed, hslash, hquote, if_false, if_true]
      exact runs_pure _ p
    · simp at hall ⊢
      omega
  | case4 ch rest ih =>
    have hsize : '\\'.utf8Size = 1 := rfl
    have hrest := drop_of_drop_bytes_cons (drop_of_drop_bytes_cons h)
    rw [hsize] at hrest
    simp only [byteLength_cons, hsize] at hall
    obtain ⟨stop, hrun, hstop⟩ := ih hrest (by omega) (getElem?_of_drop_bytes hrest)
    refine ⟨stop, runs_stringEnd_escape h hrun, ?_⟩
    simp only [Quotation.cons, byteLength_cons, hsize]
    omega
  | case5 ch rest hquote hfeed hslash ih =>
    by_cases hlast : ch = '\\'
    · obtain rfl : rest = [] := by
        cases rest with
        | nil => rfl
        | cons next rest => exact (hslash next rest hlast rfl).elim
      subst hlast
      refine ⟨index + 2, runs_stringEnd_slash h hall p, ?_⟩
      rw [← hall]
      exact Nat.min_eq_right (Nat.le_succ _)
    · have hrest := drop_of_drop_bytes_cons h
      rw [byteLength_cons, ← Nat.add_assoc] at hall
      obtain ⟨stop, hrun, hstop⟩ := ih hrest hall (getElem?_of_drop_bytes hrest)
      refine ⟨stop, runs_stringEnd_char h hlast hquote hfeed hrun, ?_⟩
      simp only [Quotation.cons, byteLength_cons]
      omega

/-- What a string is written as, and what stands in it, can be taken. -/
theorem runs_slice_quoted {after : List Char} (hc : c.Within text) (hrest : c.rest = c.quotation.quoted ++ after)
    (p : Nat) :
    Runs text (slice text c.pos (c.pos + byteLength c.quotation.quoted)) p c.quotation.quoted [] p ∧
      Runs text (slice text (c.pos + 1) (c.pos + 1 + byteLength c.quotation.body)) p c.quotation.body [] p := by
  obtain ⟨before, htext, hpos⟩ := hc.exists_before
  rw [hrest] at htext
  have hinside : text = (before ++ ['"']) ++
      (c.quotation.body ++ ((if c.quotation.closed then ['"'] else []) ++ after)) := by
    rw [htext, Quotation.quoted]
    simp
  refine ⟨runs_slice htext hpos rfl p, runs_slice hinside ?_ rfl p⟩
  rw [byteLength_append, hpos]
  rfl

/-- The end of a string is found from its opening quotation mark. -/
theorem runs_stringEnd_quotation {s : List Char} (hc : c.Within text) (hrest : c.rest = '"' :: s) :
    ∃ stop, Runs text (stringEnd text (c.pos + 1)) c.pos (stop, c.quotation.closed) [] c.pos ∧
      min stop (byteLength text) = c.pos + byteLength c.quotation.quoted := by
  have hquotation : c.quotation = Quotation.scan s := by rw [Cursor.quotation, hrest, List.tail_cons]
  have hdrop := hc.drop_bytes
  have hall := hc.pos_add_byteLength
  rw [hrest] at hdrop hall
  rw [byteLength_cons, ← Nat.add_assoc] at hall
  obtain ⟨stop, hrun, hstop⟩ := runs_stringEnd (drop_of_drop_bytes_cons hdrop) hall c.pos
  have hmark : '"'.utf8Size = 1 := rfl
  rw [← hquotation] at hrun hstop
  refine ⟨stop, hrun, ?_⟩
  rw [hstop, hmark, Quotation.byteLength_quoted]
  omega

/-- Reading a string. -/
theorem runs_scanString {s : List Char} (hc : c.Within text) (hrest : c.rest = '"' :: s) :
    Runs text (scanString text) c.pos (c.spanOf c.quotation.length, c.quotation.text) c.quotationErrors
      (c.skip c.quotation.length).pos := by
  obtain ⟨after, hafter⟩ : ∃ after, c.rest = c.quotation.quoted ++ after := by
    have hquotation : c.quotation = Quotation.scan s := by rw [Cursor.quotation, hrest, List.tail_cons]
    rw [hrest, hquotation]
    exact Quotation.exists_quoted s
  obtain ⟨stop, hend, hstop⟩ := runs_stringEnd_quotation hc hrest
  have hskip : c.skip c.quotation.length = ⟨c.pos + byteLength c.quotation.quoted, after⟩ := by
    rw [← Quotation.length_quoted]
    exact Cursor.skip_of_append hafter
  have hspan : c.spanOf c.quotation.length = .between c.pos (c.pos + byteLength c.quotation.quoted) := by
    rw [Cursor.spanOf_eq_between, hskip]
  have hle : c.pos + byteLength c.quotation.quoted ≤ byteLength text := by
    rw [← hstop]
    exact Nat.min_le_right _ _
  have hbytes := c.quotation.byteLength_quoted
  obtain ⟨hquoted, hbody⟩ := runs_slice_quoted hc hafter (c.pos + byteLength c.quotation.quoted)
  rw [hspan, hskip]
  refine Runs.of_cursor (hend.followed ?_)
  simp only [hstop]
  refine (runs_seek hle c.pos).followed ?_
  cases hclosed : c.quotation.closed with
  | false =>
    have hlast : c.pos + 1 + byteLength c.quotation.body = c.pos + byteLength c.quotation.quoted := by
      rw [hbytes, hclosed, Bool.toNat_false]
      omega
    rw [hlast] at hbody
    refine ((runs_report _ _ _ _).bind (hbody.bind_pure _)).of_eq ?_ ?_ rfl
    · simp [Quotation.text, hclosed]
    · simp [Cursor.quotationErrors, hclosed, hspan, Span.between]
  | true =>
    have hinside : c.quotation.quoted.tail.dropLast = c.quotation.body := by
      simp [Quotation.quoted, hclosed]
    refine hquoted.followed ?_
    rw [hinside]
    cases hdecode : Quoted.decode c.quotation.body with
    | some said =>
      refine (runs_pure _ _).of_eq ?_ ?_ rfl
      · simp [Quotation.text, hclosed, hdecode]
      · simp [Cursor.quotationErrors, hclosed, hdecode]
    | none =>
      have hlast : c.pos + 1 + byteLength c.quotation.body = c.pos + byteLength c.quotation.quoted - 1 := by
        rw [hbytes, hclosed, Bool.toNat_true]
        omega
      rw [hlast] at hbody
      refine ((runs_report _ _ _ _).bind (hbody.bind_pure _)).of_eq ?_ ?_ rfl
      · simp [Quotation.text, hclosed, hdecode]
      · simp [Cursor.quotationErrors, hclosed, hdecode, hspan, Span.between]

/-- Skipping a string. -/
theorem runs_skipString {s : List Char} (hc : c.Within text) (hrest : c.rest = '"' :: s) :
    Runs text (skipString text) c.pos () [] (c.skip c.quotation.length).pos := by
  intro start hstart
  obtain ⟨events, hsound, hrun⟩ := runs_scanString hc hrest start hstart
  refine ⟨events, hsound, ?_⟩
  simp [skipString, get, getThe, MonadStateOf.get, StateT.get, Bind.bind, StateT.bind, pure, hrun, modify,
    modifyGet, MonadStateOf.modifyGet, StateT.modifyGet]

/-! ### Numbers and words -/

/-- Reading a number. -/
theorem runs_scanNumber (hc : c.Within text) :
    Runs text (scanNumber text) c.pos (c.readNumber.result.map Tree.valued) c.readNumber.errors
      c.readNumber.next.pos := by
  obtain ⟨before, htext, hpos⟩ := hc.exists_before
  have hsplit : c.rest = c.rest.takeWhile Numeral.isNumeralChar ++ c.rest.dropWhile Numeral.isNumeralChar :=
    List.takeWhile_append_dropWhile.symm
  have hstop := (congrArg Cursor.pos (Cursor.skip_of_append hsplit)).symm
  have htail : ∀ ch, Numeral.isNumeralChar ch = true → ∀ b ∈ tailBytes ch, isNumeralByte b = true := by
    intro ch hch b hb
    rw [tailBytes_of_lt (toNat_lt_of_isNumeralChar hch)] at hb
    cases hb
  have hwhile := runs_skipWhile_chars hc Numeral.isNumeralChar isNumeralByte_leadByte htail
  have hslice := runs_slice (htext.trans (congrArg (before ++ ·) hsplit)) hpos hstop
    (c.skip (c.rest.takeWhile Numeral.isNumeralChar).length).pos
  refine Runs.of_cursor (hwhile.followed (Runs.of_cursor (hslice.followed ?_)))
  cases hn : Number.ofChars? (c.rest.takeWhile Numeral.isNumeralChar) with
  | some n =>
    simp only [Cursor.readNumber, hn, Cursor.spanOf_eq_between]
    exact runs_pure _ _
  | none =>
    simp only [Cursor.readNumber, hn, Cursor.spanOf_eq_between]
    exact (runs_report _ _ _ _).bind_pure _

theorem getD_findByte? (holds : Char → Bool) (s : List Char) :
    (findByte? (fun s => !s.head?.any holds) s).getD (byteLength s) = byteLength (s.takeWhile holds) := by
  induction s with
  | nil => rfl
  | cons ch s ih =>
    cases hch : holds ch with
    | false => simp [findByte?, hch]
    | true =>
      rw [findByte?, if_neg (by simp [hch]), List.takeWhile_cons_of_pos hch, byteLength_cons, byteLength_cons,
        ← ih, Nat.add_comm, Nat.add_comm ch.utf8Size]
      exact Option.getD_map (· + ch.utf8Size) _ _

/-- Reading a word. -/
theorem runs_scanWord (hc : c.Within text) (word : List Char) (value : Scalar) :
    Runs text (scanWord text word value) c.pos ((c.readWord word value).result.map Tree.valued)
      (c.readWord word value).errors (c.readWord word value).next.pos := by
  have hall := hc.pos_add_byteLength
  have hslice : Runs text (slice text c.pos (byteLength text)) c.pos c.rest [] c.pos :=
    runs_slice_rest (w := []) hc rfl c.pos
  refine Runs.of_cursor (hslice.followed ?_)
  cases hword : word.isPrefixOf c.rest with
  | true =>
    obtain ⟨rest, hrest⟩ := List.isPrefixOf_iff_prefix.mp hword
    have hskip := Cursor.skip_of_append hrest.symm
    have hle : c.pos + byteLength word ≤ byteLength text := by
      rw [← hall, ← hrest, byteLength_append]
      omega
    simp only [Cursor.readWord, hword, if_true, Cursor.spanOf_eq_between, hskip]
    exact (runs_advance hle).followed (Runs.of_cursor (runs_pure _ _))
  | false =>
    have hlength : (findByte? (fun s => !s.head?.any Char.isAlphanum) c.rest).getD (byteLength text - c.pos) =
        byteLength (c.rest.takeWhile Char.isAlphanum) := by
      rw [← hall, Nat.add_sub_cancel_left]
      exact getD_findByte? Char.isAlphanum c.rest
    simp only [Cursor.readWord, hword, if_false, hlength, Bool.false_eq_true]
    exact (runs_report _ _ _ _).bind_pure _

end Scan

end PolicyAudit
