-- SUMMARY: What a run of a scan comes to, step by step and round by round.
import PolicyAudit.Proofs.Syntax.Scan

/-! ## Runs

A run of a scan is told by where it begins and ends, what it finds and which faults it reports, whatever has
happened before. All that happens on the way is in order. -/

namespace PolicyAudit

open Text

namespace Scan

variable {text : List Char} {α β σ ρ : Type} {m : Scan α} {f : α → Scan β} {a : α} {b : β}
variable {p q r n : Nat} {errors more : List SyntaxError}

/-- Whether a scan at byte `p` ends at byte `q`. -/
def Runs (text : List Char) (m : Scan α) (p : Nat) (a : α) (errors : List SyntaxError) (q : Nat) : Prop :=
  ∀ s : Scanner, s.pos = p → ∃ events, (∀ e ∈ events, e.Sound text) ∧
    m s = Part.some (a, ⟨q, s.errors ++ errors, s.events ++ events⟩)

theorem Runs.of_eq {a' : α} {errors' : List SyntaxError} {q' : Nat} (h : Runs text m p a errors q)
    (ha : a = a') (herrors : errors = errors') (hq : q = q') : Runs text m p a' errors' q' := by
  subst ha herrors hq
  exact h

theorem runs_pure (a : α) (p : Nat) : Runs text (pure a) p a [] p := by
  intro s hs
  subst hs
  refine ⟨[], by simp, ?_⟩
  rw [List.append_nil, List.append_nil]
  rfl

theorem Runs.bind (hm : Runs text m p a errors q) (hf : Runs text (f a) q b more r) :
    Runs text (m >>= f) p b (errors ++ more) r := by
  intro s hs
  obtain ⟨events, hsound, hrun⟩ := hm s hs
  obtain ⟨events', hsound', hrun'⟩ := hf ⟨q, s.errors ++ errors, s.events ++ events⟩ rfl
  refine ⟨events ++ events', ?_, ?_⟩
  · intro e he
    exact (List.mem_append.mp he).elim (hsound e) (hsound' e)
  · simp only [List.append_assoc] at hrun'
    simp [Bind.bind, StateT.bind, hrun, hrun']

/-- A step without a fault leaves the faults to what follows. -/
theorem Runs.followed (hm : Runs text m p a [] q) (hf : Runs text (f a) q b errors r) :
    Runs text (m >>= f) p b errors r :=
  hm.bind hf

theorem Runs.bind_pure (h : Runs text m p a errors q) (f : α → β) :
    Runs text (m >>= fun a => pure (f a)) p (f a) errors q :=
  (h.bind (runs_pure (f a) q)).of_eq rfl (List.append_nil errors) rfl

theorem runs_note {e : ScanEvent} (h : e.Sound text) (p : Nat) : Runs text (note e) p () [] p := by
  intro s hs
  subst hs
  refine ⟨[e], by simpa using h, ?_⟩
  simp [note, modify, modifyGet, MonadStateOf.modifyGet, StateT.modifyGet, pure]

theorem runs_report (fault : Fault) (offset length p : Nat) :
    Runs text (report fault offset length) p () [⟨fault, ⟨offset, length⟩⟩] p := by
  intro s hs
  subst hs
  refine ⟨[], by simp, ?_⟩
  simp [report, modify, modifyGet, MonadStateOf.modifyGet, StateT.modifyGet, pure]

theorem runs_cursor (p : Nat) : Runs text cursor p p [] p := by
  intro s hs
  subst hs
  refine ⟨[], by simp, ?_⟩
  rw [List.append_nil, List.append_nil]
  exact Part.bind_some (s, s) fun got => Part.some (got.1.pos, got.2)

theorem Runs.of_cursor {f : Nat → Scan β} (h : Runs text (f p) p b errors q) :
    Runs text (cursor >>= f) p b errors q :=
  (runs_cursor p).followed h

theorem runs_peek (text : List Char) (p : Nat) : Runs text (peek text) p (bytes text)[p]? [] p :=
  (runs_cursor p).bind (runs_pure _ p)

theorem Runs.of_peek {f : Option UInt8 → Scan β} {found : Option UInt8} (hfound : (bytes text)[p]? = found)
    (h : Runs text (f found) p b errors q) : Runs text (peek text >>= f) p b errors q := by
  subst hfound
  exact (runs_peek text p).followed h

theorem runs_seek (h : q ≤ byteLength text) (p : Nat) : Runs text (seek q) p () [] q := by
  have hset : Runs text (modify fun s => { s with pos := q }) p () [] q := by
    intro s hs
    refine ⟨[], by simp, ?_⟩
    simp [modify, modifyGet, MonadStateOf.modifyGet, StateT.modifyGet, pure]
  exact hset.bind (runs_note (e := .move q) h q)

theorem runs_advance (h : p + n ≤ byteLength text) : Runs text (advance n) p () [] (p + n) :=
  (runs_cursor p).bind (runs_seek h p)

theorem runs_onlyIf {m : Scan Unit} {holds : Bool} (h : holds = true → Runs text m p () errors q)
    (hnot : holds = false → errors = [] ∧ p = q) : Runs text (onlyIf holds m) p () errors q := by
  unfold onlyIf
  split
  · next hholds => exact h hholds
  · next hholds =>
    obtain ⟨rfl, rfl⟩ := hnot (Bool.eq_false_of_not_eq_true hholds)
    exact runs_pure () p

/-- A part of the text between two characters can be taken. -/
theorem runs_slice {before part after : List Char} {start stop : Nat} (htext : text = before ++ (part ++ after))
    (hstart : byteLength before = start) (hstop : start + byteLength part = stop) (p : Nat) :
    Runs text (slice text start stop) p part [] p := by
  have hle : start ≤ stop := by omega
  have hend : text = (before ++ part) ++ after := by rw [htext, List.append_assoc]
  have hsound : (ScanEvent.slice start stop).Sound text := by
    refine ⟨hle, ?_, ?_, ?_⟩
    · rw [hend, byteLength_append, byteLength_append]
      omega
    · rw [isBoundary, splitAtByte_eq_some_iff.mpr ⟨htext, hstart⟩]
      rfl
    · rw [isBoundary, splitAtByte_eq_some_iff.mpr ⟨hend, by rw [byteLength_append, hstart, hstop]⟩]
      rfl
  have hpart : (if start ≤ stop then (Span.between start stop).slice? text else none) = some part := by
    rw [if_pos hle]
    exact Span.slice?_eq_some htext hstart (by simp only [Span.between]; omega)
  refine (runs_note hsound p).bind fun s hs => ⟨[], by simp, ?_⟩
  subst hs
  simp [hpart]

/-! ### Loops -/

variable {body : σ → Scan (ρ ⊕ σ)} {x y : σ} {found : ρ}

theorem Runs.loop_stop (h : Runs text (body x) p (.inl found) errors q) :
    Runs text (loop body x) p found errors q := by
  intro s hs
  obtain ⟨events, hsound, hrun⟩ := h s hs
  refine ⟨events, hsound, ?_⟩
  apply Part.eq_some_iff.mpr
  apply PFun.fix_stop
  simp [hrun]

/-- A round that goes on is followed by the rest of the loop. -/
theorem Runs.loop_next (h : Runs text (body x) p (.inr y) errors q)
    (hrest : Runs text (loop body y) q found more r) : Runs text (loop body x) p found (errors ++ more) r := by
  intro s hs
  obtain ⟨events, hsound, hrun⟩ := h s hs
  obtain ⟨events', hsound', hrun'⟩ := hrest ⟨q, s.errors ++ errors, s.events ++ events⟩ rfl
  refine ⟨events ++ events', ?_, ?_⟩
  · intro e he
    exact (List.mem_append.mp he).elim (hsound e) (hsound' e)
  · simp only [loop, List.append_assoc] at hrun' ⊢
    rw [← hrun']
    apply PFun.fix_fwd_eq
    simp [hrun]

theorem Runs.rounds_stop (h : Runs text (body x) p (.inl found) errors q) :
    Runs text (rounds body x) p found errors q := by
  have hnote : Runs text (onlyIf (Sum.inl found : ρ ⊕ σ).isRight (note (.round p q))) q () [] q :=
    runs_onlyIf nofun fun _ => ⟨rfl, rfl⟩
  apply Runs.loop_stop
  refine ((runs_cursor p).bind (h.bind ((runs_cursor q).bind (hnote.bind_pure _)))).of_eq rfl ?_ rfl
  simp

/-- A round that goes on must move the cursor on. -/
theorem Runs.rounds_next (h : Runs text (body x) p (.inr y) errors q) (hlt : p < q)
    (hrest : Runs text (rounds body y) q found more r) : Runs text (rounds body x) p found (errors ++ more) r := by
  have hnote : Runs text (onlyIf (Sum.inr y : ρ ⊕ σ).isRight (note (.round p q))) q () [] q :=
    runs_onlyIf (fun _ => runs_note (e := .round p q) hlt q) nofun
  refine Runs.loop_next ?_ hrest
  refine ((runs_cursor p).bind (h.bind ((runs_cursor q).bind (hnote.bind_pure _)))).of_eq rfl ?_ rfl
  simp

/-! ## At a cursor -/

variable {c : Cursor}

/-- A character of one byte can be stepped over. -/
theorem runs_advance_one {ch : Char} {s : List Char} (hc : c.Within text) (hrest : c.rest = ch :: s)
    (hch : ch.toNat < 128) : Runs text (advance 1) c.pos () [] (c.skip 1).pos := by
  have hle := (hc.of_reaches (c.reaches_skip 1)).pos_le
  rw [Cursor.skip_one_of_lt hrest hch] at hle ⊢
  exact runs_advance hle

/-- The rest of a text can be taken from any character on. -/
theorem runs_slice_rest {w s : List Char} (hc : c.Within text) (hrest : c.rest = w ++ s) (p : Nat) :
    Runs text (slice text (c.pos + byteLength w) (byteLength text)) p s [] p := by
  obtain ⟨before, htext, hpos⟩ := hc.exists_before
  have hwhole : text = (before ++ w) ++ (s ++ []) := by
    rw [htext, hrest]
    simp
  refine runs_slice hwhole ?_ ?_ p
  · rw [byteLength_append, hpos]
  · rw [← hc.pos_add_byteLength, hrest, byteLength_append, Nat.add_assoc]

theorem runs_advance_peek (hc : c.Within text) {ch : Char} (hpeek : c.peek? = some ch) (hch : ch.toNat < 128) :
    Runs text (advance 1) c.pos () [] (c.skip 1).pos := by
  obtain ⟨s, hrest⟩ := List.head?_eq_some_iff.mp hpeek
  exact runs_advance_one hc hrest hch

/-- Bytes to keep are left behind, one at a time. -/
theorem runs_skipWhile (keep : UInt8 → Bool) {bs : List UInt8} {p : Nat} (h : (bytes text).drop p = bs) :
    Runs text (skipWhile text keep) p () [] (p + (bs.takeWhile keep).length) := by
  induction bs generalizing p with
  | nil =>
    have hend : (bytes text)[p]? = none := by rw [← List.head?_drop, h, List.head?_nil]
    exact Runs.loop_stop (Runs.of_peek hend (runs_pure _ p))
  | cons b bs ih =>
    obtain ⟨hbyte, hrest⟩ := getElem?_of_drop_eq_cons h
    cases hb : keep b with
    | false =>
      rw [List.takeWhile_cons_of_neg (by simp [hb])]
      apply Runs.loop_stop
      refine Runs.of_peek hbyte ?_
      simp only [hb]
      exact runs_pure _ p
    | true =>
      have hround : Runs text (whileRound text keep) p (.inr ()) [] (p + 1) := by
        refine Runs.of_peek hbyte ?_
        simp only [hb]
        exact (runs_advance (succ_le_of_getElem?_bytes hbyte)).followed (runs_pure _ _)
      refine (hround.loop_next (ih hrest)).of_eq rfl rfl ?_
      rw [List.takeWhile_cons_of_pos hb, List.length_cons]
      omega

/-- The characters to keep are left behind. -/
theorem runs_skipWhile_chars (hc : c.Within text) {keep : UInt8 → Bool} (holds : Char → Bool)
    (hlead : ∀ c, keep (leadByte c) = holds c) (htail : ∀ c, holds c = true → ∀ b ∈ tailBytes c, keep b = true) :
    Runs text (skipWhile text keep) c.pos () [] (c.skip (c.rest.takeWhile holds).length).pos := by
  refine (runs_skipWhile keep hc.drop_bytes).of_eq rfl rfl ?_
  have htake : c.rest.take (c.rest.takeWhile holds).length = c.rest.takeWhile holds :=
    List.prefix_iff_eq_take.mp (List.takeWhile_prefix holds) |>.symm
  rw [takeWhile_bytes hlead htail, length_bytes, Cursor.skip, htake]

end Scan

end PolicyAudit
