-- SUMMARY: When a validation is served although a newer version of its document is in store.
import PolicyAudit.Proofs.Session.Freshness
import PolicyAudit.Proofs.Session.Lockstep

/-! ## The version in the cache

Validating the text in store brings the cache up to its version, and nothing but a change of the text
makes the cache fall behind. -/

namespace PolicyAudit

open Service

variable {s t : Service} {id text : String} {version : Nat} {e : Event} {past : Past}

/-- What the cache holds of a document is of the version in store. -/
def UpToDate (s : Service) (id : String) : Prop :=
  ∀ r, s.cache.peek? id = some r → ∃ d, s.document? id = some d ∧ r.version = d.version

namespace UpToDate

theorem of_spares (h : UpToDate s id) (hspares : Spares id s t) : UpToDate t id := by
  intro r hr
  rw [hspares.document]
  exact h r (hspares.cached hr)

theorem validate_of_current (h : InStep s id) (hcurrent : s.isCurrent id version = true)
    (text : String) : UpToDate (s.validate id text version).2 id := by
  by_cases hhit : ∃ r, s.cache.peek? id = some r ∧ r.version = version
  · -- The version in the cache is at most the stored one, which is at most this one.
    have hspares : Spares id s (s.validate id text version).2 := spares_validate_self text (.inr hhit)
    obtain ⟨r, hr, hversion⟩ := hhit
    intro r' hr'
    obtain rfl := Option.some.inj (hr.symm.trans (hspares.cached hr'))
    obtain ⟨⟨d, hd, hle⟩, -⟩ := h.cached hr
    have hge := version_le_of_isCurrent hd hcurrent
    exact ⟨d, hspares.document.trans hd, by omega⟩
  · have hmiss : ∀ r, s.cache.peek? id = some r → r.version < version := fun r hr =>
      h.lt_of_miss hcurrent hr fun hversion => hhit ⟨r, hr, hversion⟩
    have hrenews := renews_validate text hcurrent hmiss
    intro r hr
    exact ⟨_, hrenews.document, (of_fresh?_eq_some (hrenews.cached hr)).2⟩

theorem validate (h : UpToDate s id) (hstep : InStep s id) (text : String) (version : Nat) :
    UpToDate (s.validate id text version).2 id := by
  cases hcurrent : s.isCurrent id version with
  | true => exact validate_of_current hstep hcurrent text
  | false => exact h.of_spares (spares_validate_self text (.inl hcurrent))

theorem validateStored (h : InStep s id) {stored : Stored} (hstored : s.document? id = some stored) :
    UpToDate (s.validateStored id) id := by
  rw [validateStored_of_some hstored]
  exact validate_of_current h (isCurrent_of_le hstored (Nat.le_refl _)) stored.text

/-- One act that does not change the text. -/
theorem act (h : UpToDate s id) (hstep : InStep s id) {a : Act}
    (hquiet : ∀ text version, a ≠ .change id text version) : UpToDate (s.act a) id :=
  act_cases a (fun _ => h.of_spares) (fun text version _ => h.validate hstep text version)
    (fun text version heq => absurd heq (hquiet text version)) h

theorem enact {acts : List Act} (h : UpToDate s id) (hstep : InStep s id)
    (hquiet : ∀ a ∈ acts, ∀ text version, a ≠ .change id text version) : UpToDate (s.enact acts) id := by
  induction acts generalizing s with
  | nil => exact h
  | cons a rest ih =>
    exact ih (h.act hstep (hquiet a List.mem_cons_self)) (hstep.act a)
      fun b hb => hquiet b (List.mem_cons_of_mem a hb)

end UpToDate

/-! ## Acts that change no text

Only the change of a document is itself an act that stores a text without validating it. -/

/-- None of the acts changes a document. -/
def Act.Quiet (acts : List Act) : Prop := ∀ a ∈ acts, ∀ id text version, a ≠ .change id text version

theorem Service.Examines.quiet {acts : List Act} (h : Examines id acts) : Act.Quiet acts := by
  rintro a ha d text version rfl
  rcases h _ ha with heq | ⟨_, _, heq⟩
  · cases heq
  · cases heq

theorem Service.quiet_dueActs (tasks : List (DelayedTask Unit)) (s : Service) :
    Act.Quiet (dueActs tasks s) := by
  induction tasks generalizing s with
  | nil => exact fun _ ha => absurd ha List.not_mem_nil
  | cons task rest ih =>
    intro a ha
    rcases List.mem_append.mp ha with hfirst | hrest
    · exact (Examines.expireActs s task.key).quiet a hfirst
    · exact ih _ a hrest

/-! ## Events

An event that validates the text in store brings the cache up to date. -/

namespace UpToDate

theorem expire (h : InStep s id) (hwaiting : s.debouncer.isWaiting id = true) :
    UpToDate (s.expire id) id := by
  obtain ⟨d, hd⟩ := Option.isSome_iff_exists.mp (h.waiting hwaiting)
  rw [Service.expire, if_pos hwaiting]
  exact validateStored h.cancel hd

theorem enact_storedActs_append (h : InStep s id) {stored : Stored}
    (hstored : s.document? id = some stored) {rest : List Act}
    (hquiet : Act.Quiet (s.storedActs id ++ rest)) : UpToDate (s.enact (s.storedActs id ++ rest)) id := by
  have hstep : InStep (s.validateStored id) id := by
    rw [← enact_storedActs]
    exact h.enact _
  rw [enact_append, enact_storedActs]
  exact (validateStored h hstored).enact hstep fun a ha => hquiet a (List.mem_append_right _ ha) id

theorem dueActs (h : InStep s id) (hwaiting : s.debouncer.isWaiting id = true)
    {tasks : List (DelayedTask Unit)} (hdue : tasks.any (·.key = id) = true) :
    UpToDate (s.enact (dueActs tasks s)) id := by
  induction tasks generalizing s with
  | nil => cases hdue
  | cons task rest ih =>
    rw [Service.dueActs, enact_append]
    have hstep : InStep (s.expire task.key) id := by
      rw [← enact_expireActs]
      exact h.enact _
    rw [enact_expireActs]
    by_cases hkey : task.key = id
    · rw [hkey] at hstep ⊢
      exact (expire h hwaiting).enact hstep fun a ha => quiet_dueActs rest _ a ha id
    · have hspares := spares_expire (Ne.symm hkey) s
      have hrest : rest.any (·.key = id) = true := by simpa [hkey] using hdue
      exact ih hstep (hspares.waiting.trans hwaiting) hrest

theorem perform_of_checks (h : InStep s id) (hchecks : e.checks s id = true) :
    UpToDate (s.perform e) id := by
  cases e <;> simp only [Event.checks, Bool.and_eq_true, decide_eq_true_eq, Bool.false_eq_true,
    Option.isSome_iff_exists] at hchecks
  case didOpen d text version =>
    obtain ⟨rfl, hcurrent⟩ := hchecks
    exact validate_of_current h hcurrent text
  case validate d text version =>
    obtain ⟨rfl, hcurrent⟩ := hchecks
    exact validate_of_current h hcurrent text
  case fixApplied d text version =>
    obtain ⟨rfl, hcurrent⟩ := hchecks
    exact validate_of_current h.cancel hcurrent text
  case requestFix d code range =>
    obtain ⟨rfl, stored, hstored⟩ := hchecks
    rw [perform, snd_requestFix]
    exact validateStored h hstored
  case applyFix d code range =>
    obtain ⟨rfl, stored, hstored⟩ := hchecks
    rw [perform, ← enact_applyFixActs]
    exact enact_storedActs_append h hstored (Examines.applyFixActs s d code range).quiet
  case fixAll d =>
    obtain ⟨rfl, stored, hstored⟩ := hchecks
    rw [perform, ← enact_fixAllActs]
    exact enact_storedActs_append h hstored (Examines.fixAllActs s d).quiet
  case expire d =>
    obtain ⟨rfl, hwaiting⟩ := hchecks
    exact expire h hwaiting
  case sleep ms =>
    have hwaiting : s.debouncer.isWaiting id = true := Debouncer.isWaiting_of_any_due hchecks
    have hticked := h.of_spares (spares_tick s ms)
    rw [perform, sleep, ← enact_dueActs]
    exact dueActs hticked hwaiting hchecks

end UpToDate

/-! ## Runs -/

/-- The cache is up to date, or a task waits to bring it up to date, or that task was done away with. -/
theorem Past.upToDate_or (h : InStep s id)
    (hbefore : UpToDate s id ∨ s.debouncer.isWaiting id = true ∨ past.dropped = true) (e : Event) :
    UpToDate (s.perform e) id ∨ (s.perform e).debouncer.isWaiting id = true ∨
      (past.after s id e).dropped = true := by
  by_cases hclose : ∃ d, e = .didClose d
  · obtain ⟨d, rfl⟩ := hclose
    by_cases hid : id = d
    · subst hid
      refine .inl fun r hr => ?_
      cases (none_of_didClose s id).2.1.symm.trans hr
    · have hspares : Spares id s (s.perform (.didClose d)) := spares_didClose hid s
      rw [Past.after, if_neg (Ne.symm hid), hspares.waiting]
      exact hbefore.imp_left fun hdate => hdate.of_spares hspares
  · rw [after_of_not_closes fun d heq => hclose ⟨d, heq⟩]
    dsimp only
    cases hchecks : e.checks s id with
    | true => exact .inl (.perform_of_checks h hchecks)
    | false =>
      rw [Bool.not_false, Bool.true_and, Bool.or_eq_true]
      by_cases hfix : ∃ text version, e = .fixApplied id text version
      · -- The version is out of date, so the task is done away with and nothing else happens.
        obtain ⟨text, version, rfl⟩ := hfix
        have hold : s.isCurrent id version = false := by simpa [Event.checks] using hchecks
        rcases hbefore with hdate | hwaiting | hdropped
        · have hcancelled : UpToDate (s.cancel id) id := hdate
          exact .inl (hcancelled.of_spares (spares_validate_self text (.inl hold)))
        · exact .inr (.inr (.inr (by simp [Event.drops, hwaiting, hold])))
        · exact .inr (.inr (.inl hdropped))
      · by_cases hchange : ∃ text version, e = .didChange id text version
        · obtain ⟨text, version, rfl⟩ := hchange
          rw [perform]
          cases hcurrent : s.isCurrent id version with
          | true =>
            rw [didChange_of_current hcurrent]
            exact .inr (.inl (Debouncer.isWaiting_schedule_self ..))
          | false =>
            rw [didChange_of_old hcurrent]
            exact hbefore.imp_right fun hexcuse => hexcuse.imp_right .inl
        · have hspares := spares_perform_of_not_checks hchecks (fun d heq => hclose ⟨d, heq⟩)
            (fun text version heq => hchange ⟨text, version, heq⟩)
            (fun text version heq => hfix ⟨text, version, heq⟩)
          rw [hspares.waiting]
          exact hbefore.imp (fun hdate => hdate.of_spares hspares) fun hexcuse => hexcuse.imp_right .inl

theorem Past.upToDate_along (h : InStep s id)
    (hbefore : UpToDate s id ∨ s.debouncer.isWaiting id = true ∨ past.dropped = true)
    (events : List Event) :
    UpToDate (events.foldl perform s) id ∨ (events.foldl perform s).debouncer.isWaiting id = true ∨
      (past.along id s events).dropped = true := by
  induction events generalizing s past with
  | nil => exact hbefore
  | cons e rest ih => exact ih (h.perform e) (upToDate_or h hbefore e)

/-! ## Calls for a version that is out of date -/

theorem ResultCache.hits_get (cache : ResultCache) (id : String) (version : Nat) :
    (cache.get id version).2.stats.hits =
      cache.stats.hits + if (cache.get id version).1.isSome then 1 else 0 := by
  unfold get
  cases cache.peek? id with
  | none => rfl
  | some found =>
    dsimp only
    split <;> rfl

/-- A call for a version that is out of date only looks it up in the cache. -/
theorem Service.cache_validate_of_old (hold : s.isCurrent id version = false) (text : String) :
    (s.validate id text version).2.cache = (s.cache.get id version).2 := by
  by_cases hhit : ∃ r, s.cache.peek? id = some r ∧ r.version = version
  · obtain ⟨r, hr, hversion⟩ := hhit
    rw [validate_of_hit hr hversion]
  · rw [validate_of_miss fun r hr hversion => hhit ⟨r, hr, hversion⟩, hold]
    rfl

/-- **Superseded validations.** After any events, a call for a version older than the stored one changes
neither the stored text nor what is shown. It is answered from the cache exactly if the cache still holds
that version, and then the stored text is waiting to be validated, or its task was done away with by an edit
that was out of date. Otherwise the call gives a validation of its own text. -/
theorem Service.validate_superseded_of_events (registry : Registry) (options : LintOptions)
    (delay capacity : Nat) (events : List Event) (id text : String) (version : Nat) (stored : Stored) :
    let s := events.foldl perform (.new registry options delay capacity)
    let past := Past.clear.along id (.new registry options delay capacity) events
    s.document? id = some stored → version < stored.version →
      (s.validate id text version).2.document? id = some stored ∧
      (s.validate id text version).2.board.shown? id = s.board.shown? id ∧
      ((s.validate id text version).2.cache.stats.hits = s.cache.stats.hits + 1 ↔
        ∃ r, s.cache.peek? id = some r ∧ r.version = version) ∧
      (∀ r, s.cache.peek? id = some r → r.version = version →
        (s.validate id text version).1 = some r ∧
          (s.debouncer.isWaiting id = true ∨ past.dropped = true)) ∧
      ((∀ r, s.cache.peek? id = some r → r.version ≠ version) →
        (s.validate id text version).1 = (validateText s.registry options id text version).1) := by
  intro s past hstored hlt
  have hold : s.isCurrent id version = false := by
    rw [← Bool.not_eq_true]
    intro hcurrent
    have hle := version_le_of_isCurrent hstored hcurrent
    omega
  have hspares : Spares id s (s.validate id text version).2 := spares_validate_self text (.inl hold)
  have hoptions : s.options = options := options_foldl_perform _ events
  refine ⟨hspares.document.trans hstored, hspares.shown, ?_, fun r hr hversion => ⟨?_, ?_⟩, fun hmiss => ?_⟩
  · rw [cache_validate_of_old hold, ResultCache.hits_get]
    simp only [← ResultCache.get_fst_eq_some_iff, ← Option.isSome_iff_exists]
    cases (s.cache.get id version).1 <;> simp
  · rw [validate_of_hit hr hversion]
  · have hstep : InStep s id := (InStep.new registry options delay capacity id).foldl_perform events
    have hnew : UpToDate (.new registry options delay capacity) id := nofun
    have hdate : UpToDate s id ∨ s.debouncer.isWaiting id = true ∨ past.dropped = true :=
      Past.upToDate_along (.new registry options delay capacity id) (.inl hnew) events
    refine hdate.resolve_left fun hcurrent => ?_
    obtain ⟨d, hd, hsame⟩ := hcurrent r hr
    obtain rfl := Option.some.inj (hstored.symm.trans hd)
    omega
  · rw [validate_of_miss hmiss, fresh?, hoptions]

/-- A document is opened and changed. A call for its first version gets the validation of the text that it
was opened with, although the text of the call cannot be read. -/
theorem Service.validate_superseded_of_change :
    let s := [Event.didOpen "p" "\x7b\"nodeName\":1\x7d" 1, .didChange "p" "[]" 2].foldl perform
      (.new (.new none) .default 500 256)
    s.document? "p" = some ⟨"[]", 2⟩ ∧ s.debouncer.isWaiting "p" = true ∧
      (s.validate "p" "" 1).2.document? "p" = some ⟨"[]", 2⟩ ∧
      (s.validate "p" "" 1).2.cache.stats.hits = s.cache.stats.hits + 1 ∧
      (∃ r, s.cache.peek? "p" = some r ∧ (s.validate "p" "" 1).1 = some r) ∧
      (validateText s.registry .default "p" "" 1).1 = none := by
  intro s
  have hstored : s.document? "p" = some ⟨"[]", 2⟩ := by decide +kernel
  have hversion : (s.cache.peek? "p").map (·.version) = some 1 := by decide +kernel
  obtain ⟨r, hr, hversion⟩ := Option.map_eq_some_iff.mp hversion
  obtain ⟨hkept, -, hhits, hserved, -⟩ := validate_superseded_of_events (.new none) .default 500 256
    [.didOpen "p" "\x7b\"nodeName\":1\x7d" 1, .didChange "p" "[]" 2] "p" "" 1 ⟨"[]", 2⟩ hstored (by decide)
  exact ⟨hstored, by decide +kernel, hkept, hhits.mpr ⟨r, hr, hversion⟩,
    ⟨r, hr, (hserved r hr hversion).1⟩, by decide +kernel⟩

end PolicyAudit
