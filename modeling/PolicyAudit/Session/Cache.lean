-- SUMMARY: A bounded store of validations, one for each document.
import PolicyAudit.Lint.Validator

/-! ## The cache

The cache holds at most one validation of each document and a limited number in all. When a new
document comes into a full cache, the one whose validation was used longest ago leaves it. An older
version of a document never takes the place of a newer one. -/

namespace PolicyAudit

/-- Counts of look-ups. -/
structure CacheStats where
  hits : Nat
  misses : Nat
  /-- The misses that found a validation of another version. -/
  stale : Nat
deriving DecidableEq, Repr, Inhabited

/-- Validations, the one used last in front. -/
structure ResultCache where
  capacity : Nat
  entries : List Validation
  stats : CacheStats
deriving Repr

namespace ResultCache

/-- An empty cache. It has room for one validation at least. -/
def new (capacity : Nat) : ResultCache := ⟨max capacity 1, [], ⟨0, 0, 0⟩⟩

/-- The validation of a document, of whichever version. -/
def peek? (cache : ResultCache) (id : String) : Option Validation :=
  cache.entries.find? (·.documentId = id)

/-- The validations of the other documents. -/
def others (cache : ResultCache) (id : String) : List Validation :=
  cache.entries.filter (·.documentId ≠ id)

/-- The number of validations. -/
def size (cache : ResultCache) : Nat := cache.entries.length

/-- Looks up one version of a document. What is found counts as used, whatever its version. -/
def get (cache : ResultCache) (id : String) (version : Nat) : Option Validation × ResultCache :=
  match cache.peek? id with
  | none => (none, { cache with stats.misses := cache.stats.misses + 1 })
  | some found =>
    let used := { cache with entries := found :: cache.others id }
    if found.version = version then
      (some found, { used with stats.hits := cache.stats.hits + 1 })
    else
      (none, { used with
        stats.misses := cache.stats.misses + 1
        stats.stale := cache.stats.stale + 1 })

/-- Whether a validation may enter: no newer version of its document is there. -/
def admits (cache : ResultCache) (v : Validation) : Bool :=
  match cache.peek? v.documentId with
  | some existing => existing.version ≤ v.version
  | none => true

/-- Puts a validation in front, unless a newer version of its document is there. The last validation
leaves when there is no room. -/
def insert (cache : ResultCache) (v : Validation) : Bool × ResultCache :=
  if cache.admits v then
    (true, { cache with entries := (v :: cache.others v.documentId).take cache.capacity })
  else (false, cache)

/-- Takes the validation of a document out. -/
def evict (cache : ResultCache) (id : String) : Option Validation × ResultCache :=
  (cache.peek? id, { cache with entries := cache.others id })

/-! ## Look-ups after each operation -/

variable {cache : ResultCache} {id other : String} {v r : Validation}

theorem documentId_of_peek? (h : cache.peek? id = some r) : r.documentId = id := by
  have hfound := List.find?_some h
  simpa using hfound

theorem find?_others_self (cache : ResultCache) (id : String) :
    (cache.others id).find? (·.documentId = id) = none := by
  simp [others]

theorem find?_others_of_ne (h : other ≠ id) :
    (cache.others id).find? (·.documentId = other) = cache.peek? other := by
  simp only [others, peek?, List.find?_filter]
  congr 1
  funext r
  by_cases hr : r.documentId = other
  · simp [hr, h]
  · simp [hr]

theorem get_fst_eq_some_iff {version : Nat} :
    (cache.get id version).1 = some r ↔ cache.peek? id = some r ∧ r.version = version := by
  simp only [get]
  cases cache.peek? id with
  | none => simp
  | some found =>
    by_cases hversion : found.version = version
    · simp only [hversion, if_true, Option.some.injEq]
      constructor
      · rintro rfl
        exact ⟨rfl, hversion⟩
      · exact fun h => h.1
    · simp only [hversion, if_false, Option.some.injEq, reduceCtorEq, false_iff, not_and]
      rintro rfl
      exact hversion

theorem peek?_get (cache : ResultCache) (id other : String) (version : Nat) :
    (cache.get id version).2.peek? other = cache.peek? other := by
  cases hfound : cache.peek? id with
  | none => simp only [get, hfound]; rfl
  | some found =>
    have hid := documentId_of_peek? hfound
    have hfront : (found :: cache.others id).find? (·.documentId = other) = cache.peek? other := by
      by_cases hother : other = id
      · rw [List.find?_cons_of_pos (by simp [hid, hother]), hother, hfound]
      · rw [List.find?_cons_of_neg (by simp [hid, Ne.symm hother]), find?_others_of_ne hother]
    simp only [get, hfound]
    split <;> exact hfront

theorem peek?_insert_self (hadmits : cache.admits v = true)
    (h : (cache.insert v).2.peek? v.documentId = some r) : r = v := by
  simp only [insert, hadmits, if_true, peek?] at h
  cases hcapacity : cache.capacity with
  | zero => simp [hcapacity] at h
  | succ n => simpa [hcapacity, eq_comm] using h

theorem peek?_insert_of_ne (hne : other ≠ v.documentId)
    (h : (cache.insert v).2.peek? other = some r) : cache.peek? other = some r := by
  simp only [insert] at h
  split at h
  · have hfound : (v :: cache.others v.documentId).find? (·.documentId = other) = some r :=
      (List.take_prefix ..).find?_eq_some h
    rwa [List.find?_cons_of_neg (by simp [Ne.symm hne]), find?_others_of_ne hne] at hfound
  · exact h

theorem peek?_evict_self (cache : ResultCache) (id : String) :
    (cache.evict id).2.peek? id = none := find?_others_self cache id

theorem peek?_evict_of_ne (h : other ≠ id) :
    (cache.evict id).2.peek? other = cache.peek? other := find?_others_of_ne h

end ResultCache

end PolicyAudit
