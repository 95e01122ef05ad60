-- SUMMARY: The id that a fix gives is not in use: the one asked for, or else the first of its variants that is free.
import PolicyAudit.Lint.Reference
import PolicyAudit.Proofs.Json.Pointer
import PolicyAudit.Proofs.Text.Trimming
import Mathlib.Data.List.Dedup

/-! ## Variants

A variant of an id ends in its number, and digits have no letter case. So no two variants of an id are alike. -/

namespace PolicyAudit.Reference

variable {base : String} {used : List String} {m n : Nat}

theorem toList_variant (base : String) (n : Nat) :
    (variant base n).toList = base.toList ++ '-' :: Nat.toDigits 10 n := by
  have hhyphen : (toString "-").toList = ['-'] := by decide
  simp only [variant, String.toList_append, hhyphen, Nat.toString_eq_ofList_toDigits, String.toList_ofList,
    List.append_assoc, List.singleton_append]
  rfl

theorem map_toLower_toDigits (n : Nat) : (Nat.toDigits 10 n).map Char.toLower = Nat.toDigits 10 n := by
  refine (List.map_congr_left fun c hc => ?_).trans (List.map_id _)
  have hdigit := Char.isDigit_iff_toNat.mp (Nat.isDigit_of_mem_toDigits (by decide) (by decide) hc)
  have hnine : '9'.toNat = 57 := rfl
  have hsame : c.toLower.toNat = c.toNat := by
    rw [Text.toNat_toLower, if_neg]
    omega
  exact Char.toNat_inj.mp hsame

theorem foldCase_variant_inj (h : Text.foldCase (variant base m) = Text.foldCase (variant base n)) : m = n := by
  have hlists := congrArg String.toList h
  simp only [Text.toList_foldCase, toList_variant, List.map_append, List.map_cons, map_toLower_toDigits] at hlists
  have hdigits : Nat.toDigits 10 m = Nat.toDigits 10 n := (List.cons.inj (List.append_cancel_left hlists)).2
  calc m = Nat.ofDigitChars 10 (Nat.toDigits 10 m) 0 := Nat.ofDigitChars_ten_toDigits.symm
    _ = Nat.ofDigitChars 10 (Nat.toDigits 10 n) 0 := by rw [hdigits]
    _ = n := Nat.ofDigitChars_ten_toDigits

theorem not_blank_variant (base : String) (n : Nat) : Text.blank (variant base n) = false := by
  have hhyphen : Text.isBlank '-' = false := by decide
  rw [Text.blank, toList_variant, List.all_append, List.all_cons, hhyphen, Bool.false_and, Bool.and_false]

/-- A variant is longer than the id itself. -/
theorem foldCase_variant_ne (base : String) (n : Nat) : Text.foldCase (variant base n) ≠ Text.foldCase base := by
  intro h
  have hlists := congrArg String.toList h
  simp only [Text.toList_foldCase, toList_variant, List.map_append] at hlists
  exact absurd (List.append_right_eq_self.mp hlists) (List.cons_ne_nil _ _)

/-! ## Fresh ids -/

/-- An id in use and `k` of its variants that are in use too make more than `k` different ids. -/
theorem lt_length_dedup_of_inUse {k : Nat} (hbase : inUse used base = true)
    (hall : ∀ n < k, inUse used (variant base (n + 2)) = true) : k < used.dedup.length := by
  let folded (n : Nat) := Text.foldCase (variant base (n + 2))
  have hdistinct : (Text.foldCase base :: (List.range k).map folded).Nodup := by
    refine List.nodup_cons.mpr ⟨fun hmem => ?_, ?_⟩
    · obtain ⟨n, -, hsame⟩ := List.mem_map.mp hmem
      exact foldCase_variant_ne base (n + 2) hsame
    · exact List.nodup_range.map fun m n h => Nat.add_right_cancel (foldCase_variant_inj h)
  have hsubset : Text.foldCase base :: (List.range k).map folded ⊆ used.dedup := by
    refine List.cons_subset.mpr ⟨List.mem_dedup.mpr (List.contains_iff_mem.mp hbase), fun id hid => ?_⟩
    obtain ⟨n, hn, rfl⟩ := List.mem_map.mp hid
    exact List.mem_dedup.mpr (List.contains_iff_mem.mp (hall n (List.mem_range.mp hn)))
  have hlength := hdistinct.length_le_of_subset hsubset
  rw [List.length_cons, List.length_map, List.length_range] at hlength
  exact hlength

/-- More variants than there are ids in use cannot all be in use. -/
theorem exists_variant_free (h : inUse used base = true) :
    ∃ n ∈ List.range (used.length + 1), inUse used (variant base (n + 2)) = false := by
  by_contra hnone
  have hall : ∀ n < used.length + 1, inUse used (variant base (n + 2)) = true := by
    intro n hn
    by_contra hfree
    exact hnone ⟨n, List.mem_range.mpr hn, Bool.eq_false_iff.mpr hfree⟩
  have hlt := lt_length_dedup_of_inUse h hall
  have hle := (List.dedup_sublist used).length_le
  omega

theorem freshId_of_not_inUse (h : inUse used base = false) : freshId base used = base := by
  rw [freshId, h]
  rfl

/-- An id in use gives way to its first variant that is free, from the second on. -/
theorem exists_freshId_of_inUse (h : inUse used base = true) :
    ∃ n, 2 ≤ n ∧ freshId base used = variant base n ∧ inUse used (variant base n) = false ∧
      ∀ m, 2 ≤ m → m < n → inUse used (variant base m) = true := by
  let free (n : Nat) := !inUse used (variant base (n + 2))
  obtain ⟨n, hn⟩ : ∃ n, (List.range (used.length + 1)).find? free = some n := by
    refine Option.isSome_iff_exists.mp (List.find?_isSome.mpr ?_)
    obtain ⟨n, hn, hfree⟩ := exists_variant_free h
    exact ⟨n, hn, by simp only [free, hfree, Bool.not_false]⟩
  obtain ⟨hfree, -, hfirst⟩ := List.find?_range_eq_some.mp hn
  refine ⟨n + 2, Nat.le_add_left 2 n, ?_, (Bool.not_eq_true' _).mp hfree, fun m hm hlt => ?_⟩
  · have hfind : ((List.range (used.length + 1)).map fun n => variant base (n + 2)).find?
        (fun id => !inUse used id) = some (variant base (n + 2)) := by
      rw [List.find?_map]
      exact congrArg (Option.map _) hn
    rw [freshId, if_pos h]
    dsimp only
    rw [hfind, Option.getD_some]
  · have hused := hfirst (m - 2) (by omega)
    rw [Bool.not_not, Nat.sub_add_cancel hm] at hused
    exact hused

theorem not_inUse_freshId (base : String) (used : List String) : inUse used (freshId base used) = false := by
  cases h : inUse used base with
  | false => rw [freshId_of_not_inUse h, h]
  | true =>
    obtain ⟨n, -, hfresh, hfree, -⟩ := exists_freshId_of_inUse h
    rw [hfresh, hfree]

/-! ## Searching

A search tries one variant after the other, for as long as it takes. Its counter has a limit, and is set to its next
number before a variant is tried. -/

/-- How a search for an id ends: with an id, after so many variants, or with a counter that has no next number. -/
inductive SearchEnd where
  | found (id : String) (tried : Nat)
  | overflow

/-- Tries the variants from the `n`-th on, after `tried` others. The counter holds the numbers below `limit`. -/
def searchFrom (limit : Nat) (base : String) (used : List String) (n tried : Nat) : SearchEnd :=
  if n + 1 < limit then
    if inUse used (variant base n) then searchFrom limit base used (n + 1) (tried + 1)
    else .found (variant base n) (tried + 1)
  else .overflow
termination_by limit - n

/-- Tries the id itself, and its variants if it is in use. -/
def search (limit : Nat) (base : String) (used : List String) : SearchEnd :=
  if inUse used base then searchFrom limit base used 2 0 else .found base 0

/-- The limit of a counter of 32 bits with a sign. -/
def counterLimit : Nat := 0x80000000

variable {limit k tried : Nat}

/-- The search passes all variants in use and stops at the first one that is free, unless its counter stops it
before. -/
theorem searchFrom_eq (hle : n ≤ k) (hfree : inUse used (variant base k) = false)
    (hused : ∀ m, n ≤ m → m < k → inUse used (variant base m) = true) :
    searchFrom limit base used n tried =
      if k + 1 < limit then .found (variant base k) (tried + (k - n) + 1) else .overflow := by
  fun_induction searchFrom limit base used n tried with
  | case1 n tried hroom hinUse ih =>
    have hne : n ≠ k := fun h => Bool.false_ne_true (hfree.symm.trans (h ▸ hinUse))
    have hcount : tried + 1 + (k - (n + 1)) = tried + (k - n) := by omega
    rw [ih (by omega) fun m hm => hused m (by omega), hcount]
  | case2 n tried hroom hinUse =>
    obtain rfl : n = k := by
      by_contra hne
      exact hinUse (hused n (Nat.le_refl n) (by omega))
    rw [if_pos hroom, Nat.sub_self, Nat.add_zero]
  | case3 n tried hroom => rw [if_neg (by omega)]

theorem search_of_not_inUse (h : inUse used base = false) : search limit base used = .found base 0 := by
  rw [search, h]
  rfl

/-- The limit only decides whether the search comes to the id that is given, not after how many variants. -/
theorem exists_search_eq (h : inUse used base = true) :
    ∃ tried ≤ used.dedup.length, ∀ limit, search limit base used =
      if tried + 2 < limit then .found (freshId base used) tried else .overflow := by
  obtain ⟨n, htwo, hfresh, hfree, hused⟩ := exists_freshId_of_inUse h
  have hlt : n - 2 < used.dedup.length :=
    lt_length_dedup_of_inUse h fun m hm => hused (m + 2) (by omega) (by omega)
  refine ⟨n - 1, by omega, fun limit => ?_⟩
  have hcount : 0 + (n - 2) + 1 = n - 1 := by omega
  have hroom : n - 1 + 2 = n + 1 := by omega
  rw [search, if_pos h, searchFrom_eq htwo hfree hused, hfresh, hcount, hroom]

/-- Whatever the limit is, the search comes to the id that is given, or else the limit is too small for the ids in
use. -/
theorem exists_search_cases (base : String) (used : List String) :
    ∃ tried ≤ used.dedup.length, ∀ limit,
      search limit base used = .found (freshId base used) tried ∨
        search limit base used = .overflow ∧ limit - 2 ≤ used.dedup.length := by
  cases h : inUse used base with
  | false =>
    refine ⟨0, Nat.zero_le _, fun limit => .inl ?_⟩
    rw [search_of_not_inUse h, freshId_of_not_inUse h]
  | true =>
    obtain ⟨tried, hle, hsearch⟩ := exists_search_eq h
    refine ⟨tried, hle, fun limit => ?_⟩
    rw [hsearch]
    by_cases hroom : tried + 2 < limit
    · exact .inl (if_pos hroom)
    · exact .inr ⟨if_neg hroom, by omega⟩

theorem inUse_eq_false_iff {id : String} : inUse used id = false ↔ Text.foldCase id ∉ used := by
  rw [inUse, List.contains_eq_mem, decide_eq_false_iff_not]

/-- **Fresh ids.** For every id and all ids that may be in use, the one that is given is not in use, letter case
aside. It is the id itself where this is free. Else it is never the id itself, but the first of its variants that is
free, from the second on. A search that tries one variant after the other comes to it after at most as many as there
are different ids in use. It can only overflow before if the limit of its counter is above their number by two at
most. So a counter of 32 bits with a sign does not overflow with fewer than `2 ^ 31 - 2` different ids. -/
theorem search_finds_freshId (base : String) (used : List String) :
    Text.foldCase (freshId base used) ∉ used ∧
    (Text.foldCase base ∉ used → freshId base used = base) ∧
    (Text.foldCase base ∈ used → freshId base used ≠ base ∧
      ∃ n, 2 ≤ n ∧ freshId base used = variant base n ∧
        ∀ m, 2 ≤ m → m < n → Text.foldCase (variant base m) ∈ used) ∧
    (∃ tried ≤ used.dedup.length, ∀ limit,
      search limit base used = .found (freshId base used) tried ∨
        search limit base used = .overflow ∧ limit - 2 ≤ used.dedup.length) ∧
    (used.dedup.length < counterLimit - 2 → search counterLimit base used ≠ .overflow) := by
  have hfree : Text.foldCase (freshId base used) ∉ used := inUse_eq_false_iff.mp (not_inUse_freshId base used)
  have hcases := exists_search_cases base used
  refine ⟨hfree, fun hbase => ?_, fun hbase => ⟨?_, ?_⟩, hcases, fun hfew hoverflow => ?_⟩
  · exact freshId_of_not_inUse (inUse_eq_false_iff.mpr hbase)
  · intro hsame
    exact hfree (hsame.symm ▸ hbase)
  · obtain ⟨n, htwo, hfresh, -, hused⟩ := exists_freshId_of_inUse (List.contains_iff_mem.mpr hbase)
    exact ⟨n, htwo, hfresh, fun m hm hlt => List.contains_iff_mem.mp (hused m hm hlt)⟩
  · obtain ⟨tried, -, hsearch⟩ := hcases
    rcases hsearch counterLimit with hfound | ⟨-, hmany⟩
    · cases hfound.symm.trans hoverflow
    · omega

end PolicyAudit.Reference
