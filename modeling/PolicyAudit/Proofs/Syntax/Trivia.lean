-- SUMMARY: The trivia skipped between tokens are exactly the gaps of the grammar.
import PolicyAudit.Proofs.Syntax.Grammar

/-! ## Skipping comments -/

namespace PolicyAudit

namespace Trivia

@[simp] theorem add_length (n : Nat) (t : Trivia) : (t.add n).length = t.length + n := rfl

@[simp] theorem add_open? (n : Nat) (t : Trivia) : (t.add n).open? = t.open? := rfl

@[simp] theorem add_add (m n : Nat) (t : Trivia) : (t.add m).add n = t.add (m + n) := by
  simp [add, Nat.add_assoc]

/-- A line comment is skipped together with its line feed. -/
theorem scan_lineComment {body : List Char} (hbody : '\n' ∉ body) (s : List Char) :
    scan .lineComment (body ++ '\n' :: s) = (scan .plain s).add (body.length + 1) := by
  induction body with
  | nil => simp [scan]
  | cons c body ih =>
    simp only [List.mem_cons, not_or] at hbody
    obtain ⟨hc, hbody⟩ := hbody
    rw [List.cons_append, scan]
    · rw [ih hbody]
      simp
    · intro h
      exact hc h.symm

/-- A line comment without a line feed is all that is left of the text. -/
theorem scan_lineComment_end {body : List Char} (hbody : '\n' ∉ body) :
    scan .lineComment body = ⟨body.length, none⟩ := by
  induction body with
  | nil => simp [scan]
  | cons c body ih =>
    simp only [List.mem_cons, not_or] at hbody
    obtain ⟨hc, hbody⟩ := hbody
    rw [scan]
    · rw [ih hbody]
      simp [add]
    · intro h
      exact hc h.symm

/-- A block comment is skipped up to the first `*/`. -/
theorem scan_blockComment {body : List Char} (hbody : ¬['*', '/'] <:+: body ++ ['*']) (n : Nat)
    (s : List Char) :
    scan (.blockComment n) (body ++ '*' :: '/' :: s) = (scan .plain s).add (body.length + 2) := by
  induction body generalizing n with
  | nil => simp [scan]
  | cons c body ih =>
    have hrest : ¬['*', '/'] <:+: body ++ ['*'] := fun h =>
      hbody (h.trans (List.suffix_cons c _).isInfix)
    rw [List.cons_append, scan]
    · rw [ih hrest]
      simp
    · -- A `*/` would have to begin at `c`.
      rintro rest rfl hsplit
      apply hbody
      cases body with
      | nil => simp at hsplit
      | cons d body =>
        obtain ⟨rfl, -⟩ := List.cons.inj hsplit
        exact ⟨[], body ++ ['*'], rfl⟩

/-- A block comment that is closed has a first `*/`. -/
theorem exists_of_scan_blockComment {n : Nat} {s : List Char}
    (h : (scan (.blockComment n) s).open? = none) :
    ∃ body rest, s = body ++ '*' :: '/' :: rest ∧ ¬['*', '/'] <:+: body ++ ['*'] := by
  induction s generalizing n with
  | nil => simp [scan] at h
  | cons c s ih =>
    by_cases hend : ∃ rest, c = '*' ∧ s = '/' :: rest
    · obtain ⟨rest, rfl, rfl⟩ := hend
      refine ⟨[], rest, rfl, fun h => ?_⟩
      have := h.length_le
      simp at this
    · rw [scan] at h
      · obtain ⟨body, rest, rfl, hbody⟩ := ih h
        refine ⟨c :: body, rest, rfl, fun hinfix => ?_⟩
        rw [List.cons_append, List.infix_cons_iff] at hinfix
        rcases hinfix with hprefix | hinfix
        · rw [List.cons_prefix_cons] at hprefix
          obtain ⟨rfl, hprefix⟩ := hprefix
          cases body with
          | nil => simp at hprefix
          | cons d body =>
            obtain ⟨rfl, -⟩ := List.cons_prefix_cons.1 hprefix
            exact hend ⟨body ++ '*' :: '/' :: rest, rfl, rfl⟩
        · exact hbody hinfix
      · rintro rest rfl rfl
        exact hend ⟨rest, rfl, rfl⟩

/-! ## Skipping gaps

A text is solid where a token or nothing stands at its start, so that nothing more is skipped. -/

/-- Whether no trivia stand at the start of a text. -/
def Solid (s : List Char) : Prop := ∀ c ∈ s.head?, isGap c = false ∧ c ≠ '/'

theorem solid_cons {c : Char} {s : List Char} (hgap : isGap c = false) (hslash : c ≠ '/') :
    Solid (c :: s) := by
  simp [Solid, hgap, hslash]

theorem scan_of_solid {s : List Char} (h : Solid s) : scan .plain s = ⟨0, none⟩ := by
  cases s with
  | nil => exact scan_nil
  | cons c s =>
    obtain ⟨hgap, hslash⟩ := h c rfl
    rw [scan]
    · simp [hgap]
    · rintro rest rfl
      exact absurd rfl hslash
    · rintro rest rfl
      exact absurd rfl hslash

/-- A gap is skipped, whatever follows it. -/
theorem scan_gap {g : List Char} (hg : Gap g) (s : List Char) :
    scan .plain (g ++ s) = (scan .plain s).add g.length := by
  induction hg with
  | nil => simp [add]
  | @blank c g hc _ ih =>
    have hslash : c ≠ '/' := by
      rintro rfl
      exact absurd hc (by decide)
    rw [List.cons_append, scan]
    · simp [hc, ih]
    · rintro rest rfl
      exact absurd rfl hslash
    · rintro rest rfl
      exact absurd rfl hslash
  | @lineComment body g hbody _ ih =>
    have := scan_lineComment hbody (g ++ s)
    simp only [List.cons_append, List.append_assoc, scan, this, ih, add_add, List.length_cons,
      List.length_append]
    congr 1
    omega
  | @blockComment body g hbody _ ih =>
    have := scan_blockComment hbody 2 (g ++ s)
    simp only [List.cons_append, List.append_assoc, scan, this, ih, add_add, List.length_cons,
      List.length_append]
    congr 1
    omega

/-- What is skipped is a gap, or else all that is left of the text. -/
theorem exists_of_scan_plain {s : List Char} (h : (scan .plain s).open? = none) :
    ∃ g rest, s = g ++ rest ∧ (scan .plain s).length = g.length ∧
      (Gap g ∨ FinalGap g ∧ rest = []) := by
  induction hn : s.length using Nat.strongRecOn generalizing s with
  | _ n ih =>
    -- A piece of gap at the start adds to the gap found behind it.
    have step : ∀ {piece t : List Char}, Gap piece → piece ≠ [] → s = piece ++ t →
        scan .plain s = (scan .plain t).add piece.length →
        ∃ g rest, s = g ++ rest ∧ (scan .plain s).length = g.length ∧
          (Gap g ∨ FinalGap g ∧ rest = []) := by
      intro piece t hpiece hne hs hscan
      have hpos := List.length_pos_iff.2 hne
      have hlt : t.length < n := by
        rw [← hn, hs, List.length_append]
        omega
      obtain ⟨g, rest, rfl, hlen, hg⟩ := ih _ hlt (by simpa [hscan] using h) rfl
      refine ⟨piece ++ g, rest, by simp [hs], by simp [hscan, hlen, Nat.add_comm], ?_⟩
      rcases hg with hg | ⟨hg, rfl⟩
      · exact .inl (hpiece.append hg)
      · exact .inr ⟨hg.append hpiece, rfl⟩
    have stop : scan .plain s = ⟨0, none⟩ →
        ∃ g rest, s = g ++ rest ∧ (scan .plain s).length = g.length ∧
          (Gap g ∨ FinalGap g ∧ rest = []) := fun h0 => ⟨[], s, rfl, by rw [h0]; rfl, .inl .nil⟩
    by_cases hline : ∃ t, s = '/' :: '/' :: t
    · obtain ⟨t, rfl⟩ := hline
      by_cases hfeed : '\n' ∈ t
      · obtain ⟨body, rest, rfl, hbody⟩ := List.eq_append_cons_of_mem hfeed
        have hpiece : Gap ('/' :: '/' :: (body ++ '\n' :: [])) := .lineComment hbody .nil
        refine step (t := rest) hpiece (by simp) (by simp) ?_
        rw [scan, scan_lineComment hbody]
        simp
      · refine ⟨'/' :: '/' :: t, [], by simp, ?_, .inr ⟨.lineComment hfeed .nil, rfl⟩⟩
        simp [scan, scan_lineComment_end hfeed]
    by_cases hblock : ∃ t, s = '/' :: '*' :: t
    · obtain ⟨t, rfl⟩ := hblock
      have hopen : (scan (.blockComment 2) t).open? = none := by simpa [scan] using h
      obtain ⟨body, rest, rfl, hbody⟩ := exists_of_scan_blockComment hopen
      have hpiece : Gap ('/' :: '*' :: (body ++ '*' :: '/' :: [])) := .blockComment hbody .nil
      refine step (t := rest) hpiece (by simp) (by simp) ?_
      rw [scan, scan_blockComment hbody]
      simp
    cases s with
    | nil => exact stop (by simp [scan])
    | cons c t =>
      have hscan : scan .plain (c :: t) = if isGap c then (scan .plain t).add 1 else ⟨0, none⟩ := by
        rw [scan]
        · rintro rest rfl rfl
          exact hline ⟨rest, rfl⟩
        · rintro rest rfl rfl
          exact hblock ⟨rest, rfl⟩
      by_cases hc : isGap c = true
      · exact step (.blank hc .nil) (by simp) rfl (by simp [hscan, hc])
      · exact stop (by simp [hscan, hc])

/-- A gap at the end of a text is skipped to the end. -/
theorem scan_finalGap {g : List Char} (hg : FinalGap g) : scan .plain g = ⟨g.length, none⟩ := by
  cases hg with
  | closed hg =>
    have := scan_gap hg []
    simpa [scan, add] using this
  | @lineComment s body hbody hs =>
    rw [scan_gap hs, scan, scan_lineComment_end hbody]
    simp [add]
    omega

end Trivia

end PolicyAudit
