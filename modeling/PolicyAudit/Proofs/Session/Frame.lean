-- SUMMARY: What each operation of the service does to one document, and what it leaves alone.
import PolicyAudit.Proofs.Schema.Growth

/-! ## Sparing a document

An operation on one document spares all the others. They keep their texts, their tasks and what is
shown for them; only their validations may leave the cache. -/

namespace PolicyAudit.Service

variable {s s' s'' : Service} {id other text : String} {version : Nat}

/-- What is known of a document in `s` is still known in `s'`. -/
structure Spares (id : String) (s s' : Service) : Prop where
  registry : s.registry.GrowsInto s'.registry
  options : s'.options = s.options
  document : s'.document? id = s.document? id
  shown : s'.board.shown? id = s.board.shown? id
  waiting : s'.debouncer.isWaiting id = s.debouncer.isWaiting id
  cached : ∀ {r}, s'.cache.peek? id = some r → s.cache.peek? id = some r

theorem Spares.refl (id : String) (s : Service) : Spares id s s :=
  ⟨.refl _, rfl, rfl, rfl, rfl, fun h => h⟩

theorem Spares.trans (h : Spares id s s') (h' : Spares id s' s'') : Spares id s s'' where
  registry := h.registry.trans h'.registry
  options := h'.options.trans h.options
  document := h'.document.trans h.document
  shown := h'.shown.trans h.shown
  waiting := h'.waiting.trans h.waiting
  cached := fun hcached => h.cached (h'.cached hcached)

/-! ## The text in store -/

theorem document?_store (s : Service) (id : String) (stored : Stored) :
    (s.store id stored).document? id = some stored := Keyed.find?_insert_self ..

theorem version_le_of_isCurrent {stored : Stored} (hstored : s.document? id = some stored)
    (hcurrent : s.isCurrent id version = true) : stored.version ≤ version := by
  simpa only [isCurrent, hstored, decide_eq_true_eq] using hcurrent

theorem isCurrent_of_le {stored : Stored} (hstored : s.document? id = some stored)
    (hle : stored.version ≤ version) : s.isCurrent id version = true := by
  simpa only [isCurrent, hstored, decide_eq_true_eq] using hle

/-! ## Validating -/

/-- The validation that a stored text calls for. -/
def fresh? (s : Service) (id : String) (stored : Stored) : Option Validation :=
  (validateText s.registry s.options id stored.text stored.version).1

/-- What is to be shown for a text. -/
def freshly? (s : Service) (id : String) (stored : Stored) : Option (List Diagnostic) :=
  (s.fresh? id stored).map Diagnostic.ofValidation

/-- A validation names the document and the version that it is about. -/
theorem of_fresh?_eq_some {stored : Stored} {v : Validation} (h : s.fresh? id stored = some v) :
    v.documentId = id ∧ v.version = stored.version := by
  simp only [fresh?, validateText] at h
  split at h
  · split at h
    · simp only [Option.some.injEq] at h
      rw [← h]
      exact ⟨rfl, rfl⟩
    · cases h
  · cases h

/-- A text has no validation exactly if it is not clean or no validator takes it. -/
theorem fresh?_eq_none_iff {stored : Stored} :
    s.fresh? id stored = none ↔
      (Document.ofText stored.text).isClean = false ∨
        Validator.select? (.ofText stored.text) = none := by
  simp only [fresh?, validateText]
  cases hclean : (Document.ofText stored.text).isClean with
  | false => simp
  | true =>
    cases hselect : Validator.select? (.ofText stored.text) with
    | none => simp
    | some validator =>
      simp only [Document.isClean, Bool.and_eq_true, Option.isSome_iff_exists] at hclean
      obtain ⟨-, tree, htree⟩ := hclean
      simp [Context.ofDocument?, Document.value?, htree]

/-- The validation of a text is what a run of its validator comes to. -/
theorem fresh?_eq_some_iff {stored : Stored} {v : Validation} :
    s.fresh? id stored = some v ↔
      (Document.ofText stored.text).isClean = true ∧ ∃ validator ctx,
        Validator.select? (.ofText stored.text) = some validator ∧
        Context.ofDocument? (.ofText stored.text) = some ctx ∧
        (validator.validate ctx s.options s.registry id stored.version).1 = v := by
  simp only [fresh?, validateText]
  cases (Document.ofText stored.text).isClean with
  | false => simp
  | true =>
    cases Validator.select? (.ofText stored.text) with
    | none => simp
    | some validator =>
      cases Context.ofDocument? (.ofText stored.text) with
      | none => simp
      | some ctx => simp

/-- The state in which a version of a document has been validated, but nothing of that kept. -/
def validated (s : Service) (id text : String) (version : Nat) : Service :=
  { s with
    cache := (s.cache.get id version).2
    registry := (validateText s.registry s.options id text version).2 }

/-- The state in which a version of a document has been stored and validated. -/
def renewed (s : Service) (id text : String) (version : Nat) : Service :=
  ((s.validated id text version).store id ⟨text, version⟩).adopt id (s.fresh? id ⟨text, version⟩)

/-- The cache has the validation of this version. -/
theorem validate_of_hit {r : Validation} (hcached : s.cache.peek? id = some r)
    (hversion : r.version = version) :
    s.validate id text version = (some r, { s with cache := (s.cache.get id version).2 }) := by
  have hget : (s.cache.get id version).1 = some r :=
    ResultCache.get_fst_eq_some_iff.mpr ⟨hcached, hversion⟩
  unfold validate
  rcases hpair : s.cache.get id version with ⟨_ | found, cache⟩
  · simp [hpair] at hget
  · simp only [hpair, Option.some.injEq] at hget
    simp only [hget]

/-- The cache has no validation of this version. -/
theorem validate_of_miss (hmiss : ∀ r, s.cache.peek? id = some r → r.version ≠ version) :
    s.validate id text version = (s.fresh? id ⟨text, version⟩,
      if s.isCurrent id version then s.renewed id text version
      else s.validated id text version) := by
  have hget : (s.cache.get id version).1 = none := by
    rw [Option.eq_none_iff_forall_ne_some]
    intro r hr
    obtain ⟨hcached, hversion⟩ := ResultCache.get_fst_eq_some_iff.mp hr
    exact hmiss r hcached hversion
  unfold validate
  rcases hpair : s.cache.get id version with ⟨_ | found, cache⟩
  · have hcurrent : ({ s with cache } : Service).isCurrent id version = s.isCurrent id version := rfl
    simp only [remember, hcurrent, renewed, validated, hpair]
    cases s.isCurrent id version <;> rfl
  · simp [hpair] at hget

/-! ## Taking over a validation -/

variable {v? : Option Validation}

@[simp] theorem registry_adopt : (s.adopt id v?).registry = s.registry := by
  cases v? <;> rfl

@[simp] theorem options_adopt : (s.adopt id v?).options = s.options := by
  cases v? <;> rfl

@[simp] theorem debouncer_adopt : (s.adopt id v?).debouncer = s.debouncer := by
  cases v? <;> rfl

@[simp] theorem document?_adopt : (s.adopt id v?).document? other = s.document? other := by
  cases v? <;> rfl

theorem document?_renewed (s : Service) (id text : String) (version : Nat) :
    (s.renewed id text version).document? id = some ⟨text, version⟩ :=
  document?_adopt.trans (document?_store ..)

theorem spares_adopt (hv : ∀ v, v? = some v → v.documentId = id) (hne : other ≠ id) :
    Spares other s (s.adopt id v?) := by
  constructor
  case registry => rw [registry_adopt]; exact .refl _
  case options => exact options_adopt
  case document => exact document?_adopt
  case waiting => rw [debouncer_adopt]
  case shown =>
    cases v? with
    | none => exact Board.shown?_clear_of_ne hne
    | some v =>
      have hid := hv v rfl
      simp only [adopt, accept]
      split
      · exact Board.shown?_publish_of_ne (hid ▸ hne) _
      · rfl
  case cached =>
    intro r hr
    cases v? with
    | none => rwa [← ResultCache.peek?_evict_of_ne hne]
    | some v => exact ResultCache.peek?_insert_of_ne (hv v rfl ▸ hne) hr

/-- What is shown after a validation is that of the validation, and the cache has no other one. -/
theorem adopt_self (hv : ∀ v, v? = some v → v.documentId = id ∧ s.cache.admits v = true) :
    (s.adopt id v?).board.shown? id = v?.map Diagnostic.ofValidation ∧
      ∀ r, (s.adopt id v?).cache.peek? id = some r → v? = some r := by
  cases v? with
  | none =>
    refine ⟨Board.shown?_clear_self .., fun r hr => ?_⟩
    have hevicted := ResultCache.peek?_evict_self s.cache id
    exact absurd (hevicted.symm.trans hr) (by simp)
  | some v =>
    obtain ⟨rfl, hadmits⟩ := hv v rfl
    have htaken : (s.cache.insert v).1 = true := by simp only [ResultCache.insert, hadmits, if_true]
    refine ⟨?_, fun r hr => ?_⟩
    · simp only [adopt, accept, htaken, if_true, Option.map_some]
      exact Board.shown?_publish_self ..
    · rw [ResultCache.peek?_insert_self hadmits hr]

/-! ## The effect of validating -/

theorem spares_validated (s : Service) (id other text : String) (version : Nat) :
    Spares other s (s.validated id text version) where
  registry := (settles_validateText s.options id text version).grows s.registry
  options := rfl
  document := rfl
  shown := rfl
  waiting := rfl
  cached := by
    intro r hr
    rwa [validated, ResultCache.peek?_get] at hr

theorem spares_used (s : Service) (id other : String) (version : Nat) :
    Spares other s { s with cache := (s.cache.get id version).2 } :=
  ⟨.refl _, rfl, rfl, rfl, rfl, fun hr => by rwa [ResultCache.peek?_get] at hr⟩

theorem spares_store (hne : other ≠ id) (s : Service) (stored : Stored) :
    Spares other s (s.store id stored) :=
  ⟨.refl _, rfl, Keyed.find?_insert_of_ne (Ne.symm hne) _ _, rfl, rfl, fun hr => hr⟩

theorem spares_renewed (hne : other ≠ id) : Spares other s (s.renewed id text version) := by
  have hvalidated := spares_validated s id other text version
  have hstore := spares_store hne (s.validated id text version) ⟨text, version⟩
  refine (hvalidated.trans hstore).trans (spares_adopt (fun v hv => ?_) hne)
  exact (of_fresh?_eq_some hv).1

/-- What the cache holds of a document that has been stored and validated is its validation, or was
there before. -/
theorem cached_renewed {r : Validation}
    (h : (s.renewed id text version).cache.peek? id = some r) :
    s.fresh? id ⟨text, version⟩ = some r ∨ s.cache.peek? id = some r := by
  unfold renewed at h
  cases hfresh : s.fresh? id ⟨text, version⟩ with
  | none =>
    rw [hfresh] at h
    cases (ResultCache.peek?_evict_self _ id).symm.trans h
  | some v =>
    obtain ⟨rfl, -⟩ := of_fresh?_eq_some hfresh
    rw [hfresh] at h
    cases hadmits : (s.cache.get v.documentId version).2.admits v with
    | true => exact .inl (congrArg some (ResultCache.peek?_insert_self hadmits h).symm)
    | false =>
      simp only [adopt, accept, store, validated, ResultCache.insert, hadmits, Bool.false_eq_true,
        if_false, ResultCache.peek?_get] at h
      exact .inr h

/-- Validating a document spares all the others. -/
theorem spares_validate (hne : other ≠ id) :
    Spares other s (s.validate id text version).2 := by
  by_cases hhit : ∃ r, s.cache.peek? id = some r ∧ r.version = version
  · obtain ⟨r, hcached, hversion⟩ := hhit
    rw [validate_of_hit hcached hversion]
    exact spares_used s id other version
  · rw [validate_of_miss fun r hr hversion => hhit ⟨r, hr, hversion⟩]
    split
    · exact spares_renewed hne
    · exact spares_validated s id other text version

/-- A version that is out of date, or whose validation is in the cache, changes nothing. -/
theorem spares_validate_self (text : String)
    (h : s.isCurrent id version = false ∨ ∃ r, s.cache.peek? id = some r ∧ r.version = version) :
    Spares id s (s.validate id text version).2 := by
  by_cases hhit : ∃ r, s.cache.peek? id = some r ∧ r.version = version
  · obtain ⟨r, hcached, hversion⟩ := hhit
    rw [validate_of_hit hcached hversion]
    exact spares_used s id id version
  · have hold := h.resolve_right hhit
    rw [validate_of_miss fun r hr hversion => hhit ⟨r, hr, hversion⟩, hold]
    exact spares_validated s id id text version

/-- Validating a version changes nothing, or stores and validates a text that is not out of date. -/
theorem validate_self_cases (s : Service) (id text : String) (version : Nat) :
    Spares id s (s.validate id text version).2 ∨
      s.isCurrent id version = true ∧ (∀ r, s.cache.peek? id = some r → r.version ≠ version) ∧
        (s.validate id text version).2 = s.renewed id text version := by
  by_cases hhit : ∃ r, s.cache.peek? id = some r ∧ r.version = version
  · exact .inl (spares_validate_self text (.inr hhit))
  · cases hcurrent : s.isCurrent id version with
    | false => exact .inl (spares_validate_self text (.inl hcurrent))
    | true =>
      have hmiss : ∀ r, s.cache.peek? id = some r → r.version ≠ version :=
        fun r hr hversion => hhit ⟨r, hr, hversion⟩
      refine .inr ⟨rfl, hmiss, ?_⟩
      rw [validate_of_miss hmiss, hcurrent, if_pos rfl]

/-- In `s'`, `stored` is the text of a document, and what is kept and shown is its validation. -/
structure Renews (id : String) (stored : Stored) (s s' : Service) : Prop where
  registry : s.registry.GrowsInto s'.registry
  options : s'.options = s.options
  document : s'.document? id = some stored
  waiting : s'.debouncer.isWaiting id = s.debouncer.isWaiting id
  settled : ∀ {r}, s'.registry.GrowsInto r →
    (validateText r s'.options id stored.text stored.version).1 = s'.fresh? id stored
  shown : s'.board.shown? id = s'.freshly? id stored
  cached : ∀ {r}, s'.cache.peek? id = some r → s'.fresh? id stored = some r

/-- A version that is not older than the stored one is stored, kept and shown. -/
theorem renews_validate (text : String) (hcurrent : s.isCurrent id version = true)
    (hmiss : ∀ r, s.cache.peek? id = some r → r.version < version) :
    Renews id ⟨text, version⟩ s (s.validate id text version).2 := by
  have hsettles := settles_validateText s.options id text version
  have hregistry : (s.renewed id text version).registry = (s.validated id text version).registry :=
    registry_adopt
  have hoptions : (s.renewed id text version).options = s.options := options_adopt
  -- The registry has grown, which leaves the validation as it was.
  have hfresh : (s.renewed id text version).fresh? id ⟨text, version⟩ =
      s.fresh? id ⟨text, version⟩ := by
    simp only [fresh?, hregistry, hoptions]
    exact hsettles.same (.refl _)
  have hadmits : ∀ v, s.fresh? id ⟨text, version⟩ = some v → v.documentId = id ∧
      ((s.validated id text version).store id ⟨text, version⟩).cache.admits v = true := by
    intro v hv
    obtain ⟨hid, hversion⟩ := of_fresh?_eq_some hv
    refine ⟨hid, ?_⟩
    simp only [ResultCache.admits, store, validated, ResultCache.peek?_get, hid, hversion]
    cases hcached : s.cache.peek? id with
    | none => rfl
    | some r => exact decide_eq_true (Nat.le_of_lt (hmiss r hcached))
  have hadopt := adopt_self (s := (s.validated id text version).store id ⟨text, version⟩) hadmits
  rw [validate_of_miss fun r hr => Nat.ne_of_lt (hmiss r hr), hcurrent, if_pos rfl]
  constructor
  case registry => rw [hregistry]; exact hsettles.grows s.registry
  case options => exact hoptions
  case document => exact document?_renewed ..
  case waiting => rw [renewed, debouncer_adopt]; rfl
  case settled =>
    intro r hgrow
    rw [hregistry] at hgrow
    rw [hfresh, hoptions]
    exact hsettles.same hgrow
  case shown =>
    rw [freshly?, hfresh]
    exact hadopt.1
  case cached =>
    intro r hr
    rw [hfresh]
    exact hadopt.2 r hr

end PolicyAudit.Service
