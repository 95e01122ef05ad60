-- SUMMARY: Findings of one code that are one for each of some paths.
import PolicyAudit.Proofs.Lint.Apart
import PolicyAudit.Proofs.Lint.Resolution

/-! ## Elements apart -/

namespace PolicyAudit

/-- Where elements of a list are related in their order, two that are not related either way are one. -/
theorem eq_of_pairwise {α : Type} {R : α → α → Prop} {l : List α} {a b : α} (h : l.Pairwise R) (ha : a ∈ l)
    (hb : b ∈ l) (hab : ¬R a b) (hba : ¬R b a) : a = b := by
  obtain ⟨i, hi, rfl⟩ := List.getElem_of_mem ha
  obtain ⟨j, hj, rfl⟩ := List.getElem_of_mem hb
  rw [List.pairwise_iff_getElem] at h
  rcases Nat.lt_trichotomy i j with hij | rfl | hji
  · exact absurd (h i j hi hj hij) hab
  · rfl
  · exact absurd (h j i hj hi hji) hba

/-! ## One finding for each path

Which findings a rule makes is told by the paths they are about: the findings of a code are one for each path of a
kind, and no path of the kind has two. -/

namespace Issue

variable {α : Type} {code : String} {P Q R : Path → Prop} {issues more : List Issue} {issue : Issue} {path : Path}

/-- The findings of a code are one for each path of a kind. -/
def OnceAt (code : String) (P : Path → Prop) (issues : List Issue) : Prop :=
  ∃ paths : List Path, paths.Nodup ∧ (∀ path, path ∈ paths ↔ P path) ∧
    (issues.filter (·.code = code)).map (·.data.get? "path") = paths.map fun path => some path.toJson

theorem OnceAt.congr (h : OnceAt code P issues) (hPQ : ∀ path, P path ↔ Q path) : OnceAt code Q issues := by
  obtain ⟨paths, hnodup, hmem, hfilter⟩ := h
  exact ⟨paths, hnodup, fun path => (hmem path).trans (hPQ path), hfilter⟩

/-- Where no finding has the code, there must be no path of the kind. -/
theorem onceAt_of_code_ne (hcode : ∀ issue ∈ issues, issue.code ≠ code) (hP : ∀ path, ¬P path) :
    OnceAt code P issues := by
  refine ⟨[], List.nodup_nil, fun path => ⟨nofun, fun h => absurd h (hP path)⟩, ?_⟩
  rw [List.filter_eq_nil_iff.mpr fun issue hissue => by simpa using hcode issue hissue]
  rfl

theorem onceAt_nil (hP : ∀ path, ¬P path) : OnceAt code P [] := onceAt_of_code_ne nofun hP

theorem onceAt_singleton (hcode : issue.code = code) (hat : issue.IsAt path) (hP : ∀ other, P other ↔ other = path) :
    OnceAt code P [issue] := by
  refine ⟨[path], List.pairwise_singleton .., fun other => List.mem_singleton.trans (hP other).symm, ?_⟩
  have hkept : [issue].filter (·.code = code) = [issue] := List.filter_cons_of_pos (decide_eq_true hcode)
  rw [hkept]
  exact congrArg (fun found => [found]) hat

theorem OnceAt.append (h : OnceAt code P issues) (hmore : OnceAt code Q more)
    (hapart : ∀ path, P path → ¬Q path) : OnceAt code (fun path => P path ∨ Q path) (issues ++ more) := by
  obtain ⟨paths, hnodup, hmem, hfilter⟩ := h
  obtain ⟨paths', hnodup', hmem', hfilter'⟩ := hmore
  refine ⟨paths ++ paths', ?_, fun path => ?_, ?_⟩
  · refine List.nodup_append.mpr ⟨hnodup, hnodup', fun path hpath other hother heq => ?_⟩
    exact hapart path ((hmem path).mp hpath) ((hmem' path).mp (heq ▸ hother))
  · rw [List.mem_append, hmem, hmem']
  · rw [List.filter_append, List.map_append, hfilter, hfilter', List.map_append]

/-- Findings of other codes may stand before. -/
theorem onceAt_append_iff_right (hcode : ∀ issue ∈ issues, issue.code ≠ code) :
    OnceAt code P (issues ++ more) ↔ OnceAt code P more := by
  have hnone : issues.filter (·.code = code) = [] :=
    List.filter_eq_nil_iff.mpr fun issue hissue => by simpa using hcode issue hissue
  rw [OnceAt, List.filter_append, hnone, List.nil_append, ← OnceAt]

/-- Findings of other codes may stand behind. -/
theorem onceAt_append_iff_left (hcode : ∀ issue ∈ more, issue.code ≠ code) :
    OnceAt code P (issues ++ more) ↔ OnceAt code P issues := by
  have hnone : more.filter (·.code = code) = [] :=
    List.filter_eq_nil_iff.mpr fun issue hissue => by simpa using hcode issue hissue
  rw [OnceAt, List.filter_append, hnone, List.append_nil, ← OnceAt]

/-- What is once for each path in parts that share no path is so in the whole. -/
theorem OnceAt.flatMap {xs : List α} {f : α → List Issue} {P : α → Path → Prop}
    (h : ∀ x ∈ xs, OnceAt code (P x) (f x))
    (hapart : xs.Pairwise fun x y => ∀ path, P x path → ¬P y path) :
    OnceAt code (fun path => ∃ x ∈ xs, P x path) (xs.flatMap f) := by
  induction xs with
  | nil => exact onceAt_nil fun _ => nofun
  | cons x xs ih =>
    obtain ⟨hx, hxs⟩ := List.pairwise_cons.mp hapart
    have hrest := ih (fun y hy => h y (List.mem_cons_of_mem _ hy)) hxs
    rw [List.flatMap_cons]
    refine ((h x List.mem_cons_self).append hrest ?_).congr fun path => ?_
    · rintro path hpath ⟨y, hy, hpath'⟩
      exact hx y hy path hpath hpath'
    · simp only [List.mem_cons, exists_eq_or_imp]

/-- A finding of the code is about a path of the kind. -/
theorem OnceAt.exists_path (h : OnceAt code P issues) (hissue : issue ∈ issues) (hcode : issue.code = code) :
    ∃ path, P path ∧ issue.IsAt path := by
  obtain ⟨paths, -, hmem, hfilter⟩ := h
  have hlisted : issue.data.get? "path" ∈ (issues.filter (·.code = code)).map (·.data.get? "path") :=
    List.mem_map_of_mem (List.mem_filter.mpr ⟨hissue, decide_eq_true hcode⟩)
  rw [hfilter] at hlisted
  obtain ⟨path, hpath, heq⟩ := List.mem_map.mp hlisted
  exact ⟨path, (hmem path).mp hpath, heq.symm⟩

theorem OnceAt.of_path? (h : OnceAt code P issues) (hissue : issue ∈ issues) (hcode : issue.code = code)
    (hpath : issue.path? = some path) : P path := by
  obtain ⟨found, hfound, hat⟩ := h.exists_path hissue hcode
  rw [path?, hat, Option.bind_some] at hpath
  exact Path.eq_of_ofJson?_toJson hpath ▸ hfound

/-- The paths of the kind are those that findings of the code are about. -/
theorem OnceAt.exists_iff (h : OnceAt code P issues) :
    (∃ issue ∈ issues, issue.code = code ∧ issue.IsAt path) ↔ P path := by
  constructor
  · rintro ⟨issue, hissue, hcode, hat⟩
    obtain ⟨found, hfound, hat'⟩ := h.exists_path hissue hcode
    rwa [Path.toJson_inj (Option.some.inj (hat.symm.trans hat'))]
  · intro hP
    obtain ⟨paths, -, hmem, hfilter⟩ := h
    have hlisted : some path.toJson ∈ (issues.filter (·.code = code)).map (·.data.get? "path") :=
      hfilter ▸ List.mem_map_of_mem ((hmem path).mpr hP)
    obtain ⟨issue, hissue, hat⟩ := List.mem_map.mp hlisted
    obtain ⟨hissue, hcode⟩ := List.mem_filter.mp hissue
    exact ⟨issue, hissue, of_decide_eq_true hcode, hat⟩

theorem OnceAt.forall_code_ne_iff (h : OnceAt code P issues) :
    (∀ issue ∈ issues, issue.code ≠ code) ↔ ∀ path, ¬P path := by
  obtain ⟨paths, -, hmem, hfilter⟩ := h
  have hempty : issues.filter (·.code = code) = [] ↔ paths = [] := by
    rw [← List.map_eq_nil_iff, hfilter, List.map_eq_nil_iff]
  rw [List.filter_eq_nil_iff, List.eq_nil_iff_forall_not_mem] at hempty
  simpa only [decide_eq_true_eq, hmem] using hempty

end Issue

end PolicyAudit
