-- SUMMARY: What happened in a sequence of calls, and what has not happened since.

/-! ## Histories

A store answers one call after another, and what a call does goes by the calls before it. The time of a
call is the number of calls before it. -/

namespace PolicyAudit

variable {κ : Type} {P Q : List κ → κ → Prop} {calls : List κ} {call : κ} {n : Nat}

/-- The call at a time does something, which may go by the calls before it. -/
def HappensAt (P : List κ → κ → Prop) (calls : List κ) (n : Nat) : Prop :=
  ∃ call, calls[n]? = some call ∧ P (calls.take n) call

namespace HappensAt

theorem lt_length (h : HappensAt P calls n) : n < calls.length := by
  obtain ⟨call, hcall, -⟩ := h
  exact (List.getElem?_eq_some_iff.mp hcall).1

/-- What happens when there is one more call happens before it or with it. -/
theorem snoc_iff : HappensAt P (calls ++ [call]) n ↔
    HappensAt P calls n ∨ n = calls.length ∧ P calls call := by
  rcases Nat.lt_trichotomy n calls.length with hn | rfl | hn
  · have htake : (calls ++ [call]).take n = calls.take n :=
      List.take_append_of_le_length (Nat.le_of_lt hn)
    simp only [HappensAt, htake, List.getElem?_append_left hn, Nat.ne_of_lt hn, false_and, or_false]
  · have hnone : ¬ HappensAt P calls calls.length := fun h => Nat.lt_irrefl _ h.lt_length
    simp only [hnone, false_or, true_and]
    simp [HappensAt]
  · have hnone : ¬ HappensAt P calls n := fun h => Nat.lt_asymm hn h.lt_length
    have hlate : ¬ HappensAt P (calls ++ [call]) n := by
      intro h
      have hlength := h.lt_length
      rw [List.length_append, List.length_singleton] at hlength
      omega
    simp only [hnone, hlate, Nat.ne_of_gt hn, false_and, or_false]

theorem take_iff {m : Nat} : HappensAt P (calls.take m) n ↔ n < m ∧ HappensAt P calls n := by
  by_cases hn : n < m
  · simp only [HappensAt, List.getElem?_take_of_lt hn, List.take_take, Nat.min_eq_left (Nat.le_of_lt hn), hn,
      true_and]
  · have hlate : ¬ HappensAt P (calls.take m) n := by
      intro h
      have hlength := h.lt_length
      rw [List.length_take] at hlength
      omega
    simp only [hlate, hn, false_and]

end HappensAt

/-! ## Since -/

/-- Something happened at a time, and something else has not happened since. -/
def SinceAt (P Q : List κ → κ → Prop) (calls : List κ) (n : Nat) : Prop :=
  HappensAt P calls n ∧ ∀ m, n < m → ¬ HappensAt Q calls m

/-- Something has happened, and something else has not happened since. -/
def Since (P Q : List κ → κ → Prop) (calls : List κ) : Prop := ∃ n, SinceAt P Q calls n

/-- One more call does it, or does not undo it. -/
theorem SinceAt.snoc_iff : SinceAt P Q (calls ++ [call]) n ↔
    n = calls.length ∧ P calls call ∨ SinceAt P Q calls n ∧ ¬ Q calls call := by
  constructor
  · rintro ⟨hn, hsince⟩
    rcases HappensAt.snoc_iff.mp hn with hbefore | hnow
    · refine .inr ⟨⟨hbefore, fun m hm h => hsince m hm (HappensAt.snoc_iff.mpr (.inl h))⟩, ?_⟩
      intro h
      exact hsince _ hbefore.lt_length (HappensAt.snoc_iff.mpr (.inr ⟨rfl, h⟩))
    · exact .inl hnow
  · rintro (⟨rfl, hnow⟩ | ⟨⟨hn, hsince⟩, hkeep⟩)
    · refine ⟨HappensAt.snoc_iff.mpr (.inr ⟨rfl, hnow⟩), fun m hm h => ?_⟩
      have hlength := h.lt_length
      rw [List.length_append, List.length_singleton] at hlength
      omega
    · refine ⟨HappensAt.snoc_iff.mpr (.inl hn), fun m hm h => ?_⟩
      rcases HappensAt.snoc_iff.mp h with hbefore | ⟨-, hnow⟩
      · exact hsince m hm hbefore
      · exact hkeep hnow

theorem SinceAt.take_iff {m : Nat} : SinceAt P Q (calls.take m) n ↔
    n < m ∧ HappensAt P calls n ∧ ∀ k, n < k → k < m → ¬ HappensAt Q calls k := by
  simp only [SinceAt, HappensAt.take_iff, not_and, and_assoc]

namespace Since

theorem not_nil : ¬ Since P Q [] := by
  rintro ⟨n, hn, -⟩
  exact absurd hn.lt_length (Nat.not_lt_zero n)

theorem snoc_iff : Since P Q (calls ++ [call]) ↔ P calls call ∨ Since P Q calls ∧ ¬ Q calls call := by
  simp only [Since, SinceAt.snoc_iff, exists_or, exists_and_right, exists_eq, true_and]

end Since

end PolicyAudit
