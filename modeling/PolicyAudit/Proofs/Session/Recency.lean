-- SUMMARY: The cache keeps what was used last, one validation of each document, and gives out exact versions.
import Mathlib.Data.List.Induction
import Mathlib.Data.List.Nodup
import PolicyAudit.Proofs.Session.History
import PolicyAudit.Session.Cache

/-! ## Calls -/

namespace PolicyAudit

/-- What a cache is asked for. -/
inductive CacheCall where
  | insert (v : Validation)
  | get (id : String) (version : Nat)
  | evict (id : String)

/-- Whether a call looks something up. -/
def CacheCall.isGet : CacheCall → Bool
  | .get _ _ => true
  | .insert _ | .evict _ => false

namespace ResultCache

variable {cache : ResultCache} {capacity : Nat} {calls : List CacheCall} {call : CacheCall}
variable {id other : String} {v r : Validation}

/-- The cache after a call. -/
def perform (cache : ResultCache) : CacheCall → ResultCache
  | .insert v => (cache.insert v).2
  | .get id version => (cache.get id version).2
  | .evict id => (cache.evict id).2

/-- The cache after some calls, empty at first. -/
def after (capacity : Nat) (calls : List CacheCall) : ResultCache :=
  calls.foldl perform (new capacity)

theorem after_snoc (capacity : Nat) (calls : List CacheCall) (call : CacheCall) :
    after capacity (calls ++ [call]) = (after capacity calls).perform call := by
  rw [after, List.foldl_append]
  rfl

/-! ## Uses

A document is used when a validation of it is taken in and when it is looked up, whatever the version. -/

/-- A call puts a validation into the cache. -/
def Takes (cache : ResultCache) (v : Validation) (call : CacheCall) : Prop :=
  call = .insert v ∧ cache.admits v = true

/-- A call uses a document. -/
def Uses (cache : ResultCache) (id : String) (call : CacheCall) : Prop :=
  (∃ v, cache.Takes v call ∧ v.documentId = id) ∨ ∃ version, call = .get id version

/-- A document has been used, and another one has not been used since. -/
def UsedAfter (capacity : Nat) (id other : String) (calls : List CacheCall) : Prop :=
  Since (fun past => (after capacity past).Uses id) (fun past => (after capacity past).Uses other) calls

/-- Every other document in the cache was used after this one. -/
def LeastRecent (capacity : Nat) (id : String) (calls : List CacheCall) : Prop :=
  ∀ other, other ≠ id → (after capacity calls).peek? other ≠ none →
    UsedAfter capacity other id calls

/-- A call takes a document out of the cache: it is for that, or it puts another one into the full cache
when the document is the one used longest ago. -/
def Drops (capacity : Nat) (id : String) (past : List CacheCall) (call : CacheCall) : Prop :=
  call = .evict id ∨ ∃ v, (after capacity past).Takes v call ∧
    (after capacity past).peek? v.documentId = none ∧
    (after capacity past).size = max capacity 1 ∧ LeastRecent capacity id past

/-- A validation was the last one of its document to be taken in, and the document has not been taken out
since. -/
def Entered (capacity : Nat) (id : String) (r : Validation) (calls : List CacheCall) : Prop :=
  r.documentId = id ∧ Since (fun past => (after capacity past).Takes r)
    (fun past call => Drops capacity id past call ∨
      ∃ v, (after capacity past).Takes v call ∧ v.documentId = id) calls

@[simp] theorem takes_insert_iff : cache.Takes r (.insert v) ↔ v = r ∧ cache.admits r = true := by
  simp [Takes]

@[simp] theorem not_takes_get {version : Nat} : ¬ cache.Takes r (.get id version) := by
  simp [Takes]

@[simp] theorem not_takes_evict : ¬ cache.Takes r (.evict id) := by
  simp [Takes]

@[simp] theorem not_drops_get {version : Nat} : ¬ Drops capacity id calls (.get other version) := by
  simp [Drops]

@[simp] theorem drops_evict_iff : Drops capacity id calls (.evict other) ↔ other = id := by
  simp [Drops]

theorem drops_insert_iff : Drops capacity id calls (.insert v) ↔
    (after capacity calls).admits v = true ∧ (after capacity calls).peek? v.documentId = none ∧
      (after capacity calls).size = max capacity 1 ∧ LeastRecent capacity id calls := by
  simp [Drops]

theorem Uses.unique (h : cache.Uses id call) (h' : cache.Uses other call) : id = other := by
  rcases h with ⟨v, ⟨rfl, -⟩, rfl⟩ | ⟨version, rfl⟩
  · rcases h' with ⟨w, ⟨hcall, -⟩, rfl⟩ | ⟨version, hcall⟩
    · exact congrArg Validation.documentId (CacheCall.insert.inj hcall)
    · cases hcall
  · rcases h' with ⟨w, ⟨hcall, -⟩, -⟩ | ⟨version, hcall⟩
    · cases hcall
    · exact (CacheCall.get.inj hcall).1

/-- Of two documents one was used last. -/
theorem UsedAfter.asymm (h : UsedAfter capacity id other calls) (hne : id ≠ other) :
    ¬ UsedAfter capacity other id calls := by
  rintro ⟨m, hm, hsince'⟩
  obtain ⟨n, hn, hsince⟩ := h
  rcases Nat.lt_trichotomy n m with hlt | rfl | hlt
  · exact hsince m hlt hm
  · obtain ⟨call, hcall, huses⟩ := hn
    obtain ⟨call', hcall', huses'⟩ := hm
    obtain rfl := Option.some.inj (hcall.symm.trans hcall')
    exact hne (huses.unique huses')
  · exact hsince' n hlt hn

/-! ## The order of the entries

The entries stand in the order of their last uses, so that the last one is the one used longest ago. -/

/-- The entries of a cache are of different documents, no more than there is room for, each used after those
behind it. -/
structure Ordered (capacity : Nat) (calls : List CacheCall) (cache : ResultCache) : Prop where
  room : cache.capacity = max capacity 1
  bounded : cache.size ≤ cache.capacity
  distinct : (cache.entries.map (·.documentId)).Nodup
  recent : cache.entries.Pairwise fun a b => UsedAfter capacity a.documentId b.documentId calls

theorem mem_of_peek? (h : cache.peek? id = some r) : r ∈ cache.entries := List.mem_of_find?_eq_some h

theorem peek?_eq_none_iff : cache.peek? id = none ↔ ∀ r ∈ cache.entries, r.documentId ≠ id := by
  simp [peek?]

theorem mem_others : r ∈ cache.others id ↔ r ∈ cache.entries ∧ r.documentId ≠ id := by
  simp [others]

theorem others_sublist (cache : ResultCache) (id : String) : (cache.others id).Sublist cache.entries :=
  List.filter_sublist

theorem others_of_peek?_eq_none (h : cache.peek? id = none) : cache.others id = cache.entries := by
  rw [others, List.filter_eq_self]
  intro r hr
  exact decide_eq_true (peek?_eq_none_iff.mp h r hr)

theorem length_others_lt (h : cache.peek? id = some r) :
    (cache.others id).length < cache.entries.length :=
  List.length_filter_lt_length_iff_exists.mpr
    ⟨r, mem_of_peek? h, by simp [documentId_of_peek? h]⟩

/-- What a call leaves of the recency of two documents. -/
theorem UsedAfter.snoc (h : UsedAfter capacity id other calls)
    (hcall : ¬ (after capacity calls).Uses other call) :
    UsedAfter capacity id other (calls ++ [call]) :=
  Since.snoc_iff.mpr (.inr ⟨h, hcall⟩)

theorem UsedAfter.now (hcall : (after capacity calls).Uses id call) :
    UsedAfter capacity id other (calls ++ [call]) :=
  Since.snoc_iff.mpr (.inl hcall)

/-! ## What a call leaves

A call leaves the entries it does not use in their order, and puts the one it uses in front. -/

theorem insert_of_admits (h : cache.admits v = true) :
    cache.insert v =
      (true, { cache with entries := (v :: cache.others v.documentId).take cache.capacity }) := by
  simp only [insert, h, if_true]

theorem insert_of_not_admits (h : cache.admits v = false) : cache.insert v = (false, cache) := by
  simp only [insert, h, Bool.false_eq_true, if_false]

theorem entries_get_of_none (h : cache.peek? id = none) (version : Nat) :
    (cache.get id version).2.entries = cache.entries := by
  simp only [get, h]

theorem entries_get_of_some (h : cache.peek? id = some r) (version : Nat) :
    (cache.get id version).2.entries = r :: cache.others id := by
  simp only [get, h]
  split <;> rfl

theorem capacity_get (cache : ResultCache) (id : String) (version : Nat) :
    (cache.get id version).2.capacity = cache.capacity := by
  unfold get
  split
  · rfl
  · dsimp only
    split <;> rfl

theorem Uses.eq_of_get {version : Nat} (h : cache.Uses other (.get id version)) : other = id :=
  h.unique (.inr ⟨version, rfl⟩)

theorem not_uses_evict : ¬ cache.Uses other (.evict id) := by
  rintro (⟨v, ⟨hcall, -⟩, -⟩ | ⟨version, hcall⟩) <;> cases hcall

theorem not_uses_insert (h : cache.admits v = false) : ¬ cache.Uses other (.insert v) := by
  rintro (⟨w, ⟨hcall, hadmits⟩, -⟩ | ⟨version, hcall⟩)
  · obtain rfl := CacheCall.insert.inj hcall
    exact Bool.false_ne_true (h.symm.trans hadmits)
  · cases hcall

namespace Ordered

variable {next : ResultCache}

theorem new (capacity : Nat) : Ordered capacity [] (new capacity) :=
  ⟨rfl, Nat.zero_le _, List.nodup_nil, List.Pairwise.nil⟩

/-- The entries that a call does not use stay in their order. -/
theorem recent_sublist {kept : List Validation} (h : Ordered capacity calls (after capacity calls))
    (hkept : kept.Sublist (after capacity calls).entries)
    (hcall : ∀ r ∈ kept, ¬ (after capacity calls).Uses r.documentId call) :
    kept.Pairwise fun a b => UsedAfter capacity a.documentId b.documentId (calls ++ [call]) := by
  apply (h.recent.sublist hkept).imp_of_mem
  intro a b _ hb hafter
  exact hafter.snoc (hcall b hb)

theorem keep (h : Ordered capacity calls (after capacity calls))
    (hroom : next.capacity = (after capacity calls).capacity)
    (hkept : next.entries.Sublist (after capacity calls).entries)
    (hcall : ∀ r ∈ next.entries, ¬ (after capacity calls).Uses r.documentId call) :
    Ordered capacity (calls ++ [call]) next where
  room := hroom.trans h.room
  bounded := hroom ▸ Nat.le_trans hkept.length_le h.bounded
  distinct := h.distinct.sublist (hkept.map _)
  recent := h.recent_sublist hkept hcall

/-- An entry that is used comes in front of the others. -/
theorem front (h : Ordered capacity calls (after capacity calls))
    (hroom : next.capacity = (after capacity calls).capacity)
    (hentries : next.entries =
      (r :: (after capacity calls).others r.documentId).take (after capacity calls).capacity)
    (hcall : (after capacity calls).Uses r.documentId call) :
    Ordered capacity (calls ++ [call]) next where
  room := hroom.trans h.room
  bounded := by
    rw [size, hentries, hroom]
    exact List.length_take_le ..
  distinct := by
    rw [hentries]
    apply List.Nodup.sublist ((List.take_sublist ..).map _)
    rw [List.map_cons, List.nodup_cons]
    constructor
    · intro hmem
      obtain ⟨b, hb, hsame⟩ := List.mem_map.mp hmem
      exact (mem_others.mp hb).2 hsame
    · exact h.distinct.sublist ((others_sublist ..).map _)
  recent := by
    rw [hentries]
    apply List.Pairwise.sublist (List.take_sublist ..)
    rw [List.pairwise_cons]
    constructor
    · intro b _
      exact UsedAfter.now hcall
    · apply h.recent_sublist (others_sublist ..)
      intro b hb huses
      exact (mem_others.mp hb).2 (huses.unique hcall)

/-- One call. -/
theorem perform (h : Ordered capacity calls (after capacity calls)) (call : CacheCall) :
    Ordered capacity (calls ++ [call]) ((after capacity calls).perform call) := by
  cases call with
  | insert v =>
    cases hadmits : (after capacity calls).admits v with
    | false =>
      rw [ResultCache.perform, insert_of_not_admits hadmits]
      exact h.keep rfl (List.Sublist.refl _) fun _ _ => not_uses_insert hadmits
    | true =>
      rw [ResultCache.perform, insert_of_admits hadmits]
      exact h.front rfl rfl (.inl ⟨v, ⟨rfl, hadmits⟩, rfl⟩)
  | get id version =>
    cases hfound : (after capacity calls).peek? id with
    | none =>
      have hentries := entries_get_of_none hfound version
      apply h.keep (capacity_get ..)
      · exact hentries ▸ List.Sublist.refl _
      · intro r hr huses
        exact peek?_eq_none_iff.mp hfound r (hentries ▸ hr) huses.eq_of_get
    | some found =>
      have hid : found.documentId = id := documentId_of_peek? hfound
      have hlength := length_others_lt hfound
      apply h.front (capacity_get ..) _ (.inr ⟨version, congrArg (CacheCall.get · version) hid.symm⟩)
      rw [hid, List.take_of_length_le (Nat.le_trans (Nat.succ_le_of_lt hlength) h.bounded)]
      exact entries_get_of_some hfound version
  | evict id =>
    exact h.keep rfl (others_sublist ..) fun _ _ => not_uses_evict

/-- All calls. -/
theorem after (capacity : Nat) (calls : List CacheCall) :
    Ordered capacity calls (ResultCache.after capacity calls) := by
  induction calls using List.reverseRecOn with
  | nil => exact new capacity
  | append_singleton calls call ih =>
    rw [after_snoc]
    exact ih.perform call

theorem peek?_eq_some_iff (h : Ordered capacity calls cache) :
    cache.peek? id = some r ↔ r ∈ cache.entries ∧ r.documentId = id := by
  constructor
  · intro hfound
    exact ⟨mem_of_peek? hfound, documentId_of_peek? hfound⟩
  · rintro ⟨hr, rfl⟩
    cases hfound : cache.peek? r.documentId with
    | none => exact absurd rfl (peek?_eq_none_iff.mp hfound r hr)
    | some found =>
      have hsame : found.documentId = r.documentId := documentId_of_peek? hfound
      exact congrArg some (List.inj_on_of_nodup_map h.distinct (mem_of_peek? hfound) hr hsame)

/-- Of the documents in the cache the one used longest ago is that of the last entry. -/
theorem leastRecent_iff {ahead : List Validation} {last : Validation}
    (h : Ordered capacity calls (ResultCache.after capacity calls))
    (hentries : (ResultCache.after capacity calls).entries = ahead ++ [last])
    (hr : r ∈ (ResultCache.after capacity calls).entries) :
    LeastRecent capacity r.documentId calls ↔ r = last := by
  have hlast : last ∈ (ResultCache.after capacity calls).entries := by simp [hentries]
  have hafter : ∀ a ∈ ahead, UsedAfter capacity a.documentId last.documentId calls := by
    have hrecent := h.recent
    rw [hentries, List.pairwise_append] at hrecent
    intro a ha
    exact hrecent.2.2 a ha last (List.mem_singleton_self last)
  constructor
  · intro hleast
    by_contra hne
    have hdistinct : r.documentId ≠ last.documentId := fun hsame =>
      hne (List.inj_on_of_nodup_map h.distinct hr hlast hsame)
    have hahead : r ∈ ahead := by simpa [hentries, hne] using hr
    have hheld := h.peek?_eq_some_iff.mpr ⟨hlast, rfl⟩
    have hbefore := hleast last.documentId (Ne.symm hdistinct) (by simp [hheld])
    exact (hafter r hahead).asymm hdistinct hbefore
  · rintro rfl other hne hheld
    obtain ⟨found, hfound⟩ := Option.ne_none_iff_exists'.mp hheld
    have hid := documentId_of_peek? hfound
    have hmem : found ∈ ahead ∨ found = r := by simpa [hentries] using mem_of_peek? hfound
    rcases hmem with hahead | rfl
    · exact hid ▸ hafter found hahead
    · exact absurd hid.symm hne

end Ordered

/-! ## What a call changes

A validation that is taken in takes the place of the one before it of its document, or of the last entry
when the cache is full. -/

theorem entries_insert_of_room (hadmits : cache.admits v = true)
    (hroom : (cache.others v.documentId).length < cache.capacity) :
    (cache.insert v).2.entries = v :: cache.others v.documentId := by
  rw [insert_of_admits hadmits]
  exact List.take_of_length_le (Nat.succ_le_of_lt hroom)

theorem entries_insert_of_full {ahead : List Validation} {last : Validation}
    (hadmits : cache.admits v = true) (hnew : cache.peek? v.documentId = none)
    (hfull : cache.size = cache.capacity) (hentries : cache.entries = ahead ++ [last]) :
    (cache.insert v).2.entries = v :: ahead := by
  have hlength : cache.capacity = (v :: ahead).length := by
    rw [← hfull, size, hentries, List.length_append, List.length_singleton, List.length_cons]
  rw [insert_of_admits hadmits]
  dsimp only
  rw [others_of_peek?_eq_none hnew, hentries, ← List.cons_append, hlength, List.take_left]

namespace Ordered

/-- There is room beside the other documents, or the cache is full and the document is a new one. -/
theorem room_or_full (h : Ordered capacity calls cache) (id : String) :
    (cache.others id).length < cache.capacity ∨
      cache.peek? id = none ∧ cache.size = cache.capacity ∧
        ∃ ahead last, cache.entries = ahead ++ [last] := by
  by_cases hroom : (cache.others id).length < cache.capacity
  · exact .inl hroom
  · have hnew : cache.peek? id = none := by
      cases hfound : cache.peek? id with
      | none => rfl
      | some r => exact absurd (Nat.lt_of_lt_of_le (length_others_lt hfound) h.bounded) hroom
    rw [others_of_peek?_eq_none hnew] at hroom
    have hfull : cache.size = cache.capacity := Nat.le_antisymm h.bounded (Nat.le_of_not_lt hroom)
    refine .inr ⟨hnew, hfull, ?_⟩
    rcases List.eq_nil_or_concat cache.entries with hnil | ⟨ahead, last, hentries⟩
    · have hroom := h.room
      rw [← hfull, size, hnil, List.length_nil] at hroom
      omega
    · exact ⟨ahead, last, List.concat_eq_append ▸ hentries⟩

/-- What is in the cache after a validation has been taken in. -/
theorem peek?_insert_iff (h : Ordered capacity calls (ResultCache.after capacity calls))
    (hadmits : (ResultCache.after capacity calls).admits v = true) :
    ((ResultCache.after capacity calls).insert v).2.peek? id = some r ↔
      r = v ∧ r.documentId = id ∨ (ResultCache.after capacity calls).peek? id = some r ∧
        ¬ Drops capacity id calls (.insert v) ∧ v.documentId ≠ id := by
  have hnext := h.perform (.insert v)
  rw [ResultCache.perform] at hnext
  rw [hnext.peek?_eq_some_iff, h.peek?_eq_some_iff, drops_insert_iff]
  rcases h.room_or_full v.documentId with hroom | ⟨hnew, hfull, ahead, last, hentries⟩
  · have hkeeps : ¬ ((ResultCache.after capacity calls).admits v = true ∧
        (ResultCache.after capacity calls).peek? v.documentId = none ∧
        (ResultCache.after capacity calls).size = max capacity 1 ∧ LeastRecent capacity id calls) := by
      rintro ⟨-, hnew, hfull, -⟩
      rw [others_of_peek?_eq_none hnew, h.room, ← hfull] at hroom
      exact Nat.lt_irrefl _ hroom
    rw [entries_insert_of_room hadmits hroom, List.mem_cons, mem_others]
    constructor
    · rintro ⟨rfl | ⟨hr, hne⟩, rfl⟩
      · exact .inl ⟨rfl, rfl⟩
      · exact .inr ⟨⟨hr, rfl⟩, hkeeps, Ne.symm hne⟩
    · rintro (⟨rfl, rfl⟩ | ⟨⟨hr, rfl⟩, -, hne⟩)
      · exact ⟨.inl rfl, rfl⟩
      · exact ⟨.inr ⟨hr, Ne.symm hne⟩, rfl⟩
  · have hdistinct := h.distinct
    rw [hentries, List.map_append, List.nodup_append] at hdistinct
    rw [entries_insert_of_full hadmits hnew hfull hentries, List.mem_cons]
    constructor
    · rintro ⟨rfl | hr, rfl⟩
      · exact .inl ⟨rfl, rfl⟩
      · have hmem : r ∈ (ResultCache.after capacity calls).entries := by simp [hentries, hr]
        refine .inr ⟨⟨hmem, rfl⟩, ?_, Ne.symm (peek?_eq_none_iff.mp hnew r hmem)⟩
        rintro ⟨-, -, -, hleast⟩
        obtain rfl := (h.leastRecent_iff hentries hmem).mp hleast
        exact hdistinct.2.2 _ (List.mem_map_of_mem hr) _ (List.mem_map_of_mem (List.mem_singleton_self r)) rfl
    · rintro (⟨rfl, rfl⟩ | ⟨⟨hr, rfl⟩, hkeeps, -⟩)
      · exact ⟨.inl rfl, rfl⟩
      · have hmem : r ∈ ahead ∨ r = last := by simpa [hentries] using hr
        rcases hmem with hahead | rfl
        · exact ⟨.inr hahead, rfl⟩
        · have hleast := (h.leastRecent_iff hentries hr).mpr rfl
          exact absurd ⟨hadmits, hnew, hfull.trans h.room, hleast⟩ hkeeps

/-- What is in the cache after a call: what the call put there, or what was there before and is neither
taken out nor replaced. -/
theorem peek?_perform_iff (h : Ordered capacity calls (ResultCache.after capacity calls)) :
    ((ResultCache.after capacity calls).perform call).peek? id = some r ↔
      (ResultCache.after capacity calls).Takes r call ∧ r.documentId = id ∨
        (ResultCache.after capacity calls).peek? id = some r ∧ ¬ (Drops capacity id calls call ∨
          ∃ v, (ResultCache.after capacity calls).Takes v call ∧ v.documentId = id) := by
  cases call with
  | insert v =>
    cases hadmits : (ResultCache.after capacity calls).admits v with
    | false =>
      have hrefused : ∀ w, v = w → ¬ (ResultCache.after capacity calls).admits w = true := by
        rintro _ rfl htaken
        exact Bool.false_ne_true (hadmits.symm.trans htaken)
      rw [ResultCache.perform, insert_of_not_admits hadmits]
      simp +contextual [drops_insert_iff, hadmits, hrefused]
    | true =>
      rw [ResultCache.perform, h.peek?_insert_iff hadmits]
      simp only [takes_insert_iff]
      constructor
      · rintro (⟨rfl, rfl⟩ | ⟨hfound, hkeeps, hne⟩)
        · exact .inl ⟨⟨rfl, hadmits⟩, rfl⟩
        · refine .inr ⟨hfound, ?_⟩
          rintro (hdrops | ⟨w, ⟨rfl, -⟩, hsame⟩)
          · exact hkeeps hdrops
          · exact hne hsame
      · rintro (⟨⟨rfl, -⟩, rfl⟩ | ⟨hfound, hkeeps⟩)
        · exact .inl ⟨rfl, rfl⟩
        · rw [not_or] at hkeeps
          exact .inr ⟨hfound, hkeeps.1, fun hsame => hkeeps.2 ⟨v, ⟨rfl, hadmits⟩, hsame⟩⟩
  | get other version =>
    simp [ResultCache.perform, peek?_get]
  | evict other =>
    by_cases hsame : other = id
    · subst hsame
      simp [ResultCache.perform, peek?_evict_self]
    · simp [ResultCache.perform, peek?_evict_of_ne (Ne.symm hsame), hsame]

end Ordered

/-! ## Runs -/

/-- The validation of a document in the cache is the last one taken in that has not been taken out. -/
theorem peek?_after_iff : (after capacity calls).peek? id = some r ↔ Entered capacity id r calls := by
  induction calls using List.reverseRecOn with
  | nil => simp [Entered, Since.not_nil, after, new, peek?]
  | append_singleton calls call ih =>
    rw [after_snoc, (Ordered.after capacity calls).peek?_perform_iff, ih]
    simp only [Entered, Since.snoc_iff]
    constructor
    · rintro (⟨htakes, hid⟩ | ⟨⟨hid, hsince⟩, hkeeps⟩)
      · exact ⟨hid, .inl htakes⟩
      · exact ⟨hid, .inr ⟨hsince, hkeeps⟩⟩
    · rintro ⟨hid, htakes | ⟨hsince, hkeeps⟩⟩
      · exact .inl ⟨htakes, hid⟩
      · exact .inr ⟨⟨hid, hsince⟩, hkeeps⟩

/-- A validation is refused only when a newer one of its document is in the cache. -/
theorem fst_insert_eq_false_iff :
    (cache.insert v).1 = false ↔ ∃ r, cache.peek? v.documentId = some r ∧ v.version < r.version := by
  have hfst : (cache.insert v).1 = cache.admits v := by
    cases hadmits : cache.admits v with
    | true => rw [insert_of_admits hadmits]
    | false => rw [insert_of_not_admits hadmits]
  rw [hfst, admits]
  cases cache.peek? v.documentId <;> simp

theorem snd_insert_of_refused (h : (cache.insert v).1 = false) : (cache.insert v).2 = cache := by
  cases hadmits : cache.admits v with
  | true =>
    rw [insert_of_admits hadmits] at h
    cases h
  | false => rw [insert_of_not_admits hadmits]

theorem Drops.not_takes (h : Drops capacity id calls call) (hheld : (after capacity calls).peek? id ≠ none)
    (htakes : (after capacity calls).Takes r call) : r.documentId ≠ id := by
  rintro rfl
  rcases h with rfl | ⟨v, hv, hnew, -⟩
  · exact not_takes_evict htakes
  · obtain rfl := CacheCall.insert.inj (hv.1.symm.trans htakes.1)
    exact hheld hnew

/-- A document leaves the cache only when it is taken out. -/
theorem Ordered.peek?_perform_eq_none_iff
    (h : Ordered capacity calls (ResultCache.after capacity calls))
    (hheld : (ResultCache.after capacity calls).peek? id ≠ none) :
    ((ResultCache.after capacity calls).perform call).peek? id = none ↔
      Drops capacity id calls call := by
  obtain ⟨r, hr⟩ := Option.ne_none_iff_exists'.mp hheld
  have hstays : ¬ Drops capacity id calls call →
      ((ResultCache.after capacity calls).perform call).peek? id ≠ none := by
    intro hkeeps hnone
    by_cases htaken : ∃ v, (ResultCache.after capacity calls).Takes v call ∧ v.documentId = id
    · obtain ⟨v, htakes, hid⟩ := htaken
      have hnew := h.peek?_perform_iff.mpr (.inl ⟨htakes, hid⟩)
      exact Option.some_ne_none _ (hnew.symm.trans hnone)
    · have hold := h.peek?_perform_iff.mpr (.inr ⟨hr, not_or.mpr ⟨hkeeps, htaken⟩⟩)
      exact Option.some_ne_none _ (hold.symm.trans hnone)
  constructor
  · intro hnone
    by_contra hkeeps
    exact hstays hkeeps hnone
  · intro hdrops
    apply Option.eq_none_iff_forall_ne_some.mpr
    intro r' hr'
    rcases h.peek?_perform_iff.mp hr' with ⟨htakes, hid⟩ | ⟨-, hkeeps⟩
    · exact hdrops.not_takes hheld htakes hid
    · exact hkeeps (.inl hdrops)

/-! ## Counts -/

theorem stats_insert (cache : ResultCache) (v : Validation) : (cache.insert v).2.stats = cache.stats := by
  cases hadmits : cache.admits v with
  | true => rw [insert_of_admits hadmits]
  | false => rw [insert_of_not_admits hadmits]

theorem stats_get (cache : ResultCache) (id : String) (version : Nat) :
    (cache.get id version).2.stats = { cache.stats with hits := cache.stats.hits + 1 } ∨
      ∃ stale ≤ cache.stats.stale + 1, (cache.get id version).2.stats =
        { cache.stats with misses := cache.stats.misses + 1, stale := stale } := by
  cases hfound : cache.peek? id with
  | none =>
    simp only [get, hfound]
    exact .inr ⟨cache.stats.stale, Nat.le_succ _, rfl⟩
  | some found =>
    simp only [get, hfound]
    split
    · exact .inl rfl
    · exact .inr ⟨cache.stats.stale + 1, Nat.le_refl _, rfl⟩

theorem stats_perform (cache : ResultCache) (call : CacheCall) :
    (cache.perform call).stats.hits + (cache.perform call).stats.misses =
        cache.stats.hits + cache.stats.misses + [call].countP CacheCall.isGet ∧
      (cache.stats.stale ≤ cache.stats.misses →
        (cache.perform call).stats.stale ≤ (cache.perform call).stats.misses) := by
  cases call with
  | insert v =>
    rw [perform, stats_insert]
    exact ⟨rfl, fun h => h⟩
  | get id version =>
    have hone : [CacheCall.get id version].countP CacheCall.isGet = 1 := rfl
    rw [perform, hone]
    rcases stats_get cache id version with hhit | ⟨stale, hstale, hmiss⟩
    · rw [hhit]
      exact ⟨Nat.add_right_comm .., fun h => h⟩
    · rw [hmiss]
      exact ⟨rfl, fun h => Nat.le_trans hstale (Nat.succ_le_succ h)⟩
  | evict id => exact ⟨rfl, fun h => h⟩

/-- Every look-up is a hit or a miss. -/
theorem stats_after (capacity : Nat) (calls : List CacheCall) :
    (after capacity calls).stats.hits + (after capacity calls).stats.misses =
        calls.countP CacheCall.isGet ∧
      (after capacity calls).stats.stale ≤ (after capacity calls).stats.misses := by
  induction calls using List.reverseRecOn with
  | nil => exact ⟨rfl, Nat.le_refl 0⟩
  | append_singleton calls call ih =>
    obtain ⟨hcount, hstale⟩ := stats_perform (after capacity calls) call
    rw [after_snoc, List.countP_append, ← ih.1]
    exact ⟨hcount, hstale ih.2⟩

/-! ## The cache over all calls -/

/-- Whatever the calls: the cache stays within its room and has one validation of each document. A look-up
gives the validation that entered last and is still there when its version is the one asked for. Only a
newer one keeps a validation out, and then the cache is as before. A document leaves the cache when it is
evicted, or when a new one needs its room and no other was used longer ago. -/
theorem bounded_lru_of_calls (capacity : Nat) (calls : List CacheCall) :
    let cache := after capacity calls
    (cache.size ≤ max capacity 1 ∧ (cache.entries.map (·.documentId)).Nodup) ∧
      (∀ id version r, (cache.get id version).1 = some r ↔
        Entered capacity id r calls ∧ r.version = version) ∧
      (∀ v, (cache.insert v).1 = false ↔
        ∃ r, Entered capacity v.documentId r calls ∧ v.version < r.version) ∧
      (∀ v, (cache.insert v).1 = false → (cache.insert v).2 = cache) ∧
      (∀ id call, cache.peek? id ≠ none →
        ((cache.perform call).peek? id = none ↔ Drops capacity id calls call)) ∧
      cache.stats.hits + cache.stats.misses = calls.countP CacheCall.isGet ∧
      cache.stats.stale ≤ cache.stats.misses := by
  intro cache
  have hordered : Ordered capacity calls cache := Ordered.after capacity calls
  refine ⟨⟨hordered.room ▸ hordered.bounded, hordered.distinct⟩, ?_, ?_, ?_, ?_, stats_after capacity calls⟩
  · intro id version r
    rw [get_fst_eq_some_iff, peek?_after_iff]
  · intro v
    simp only [fst_insert_eq_false_iff, cache, peek?_after_iff]
  · intro v
    exact snd_insert_of_refused
  · intro id call
    exact hordered.peek?_perform_eq_none_iff

end ResultCache

end PolicyAudit
