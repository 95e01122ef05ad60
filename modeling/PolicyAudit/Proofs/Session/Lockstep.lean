-- SUMMARY: The stores of the service hold nothing of a document that do not go together.
import PolicyAudit.Proofs.Session.Act

/-! ## The stores in step

The cache, the board and the debouncer know a document only while its text is in store. What the cache
holds of it is no newer than that text, and it is what is shown. Hence a validation that is not out of
date is newer than the one that it takes the place of, and the cache never refuses it. -/

namespace PolicyAudit

open Service

variable {s t : Service} {id text : String} {version : Nat} {e : Event}

/-- What the stores of the service hold of a document goes together. -/
structure InStep (s : Service) (id : String) : Prop where
  cached : ∀ {r}, s.cache.peek? id = some r →
    (∃ d, s.document? id = some d ∧ r.version ≤ d.version) ∧
      s.board.shown? id = some (Diagnostic.ofValidation r)
  shown : (s.board.shown? id).isSome = true → (s.document? id).isSome = true
  waiting : s.debouncer.isWaiting id = true → (s.document? id).isSome = true

namespace InStep

theorem new (registry : Registry) (options : LintOptions) (delay capacity : Nat) (id : String) :
    InStep (.new registry options delay capacity) id := ⟨nofun, nofun, nofun⟩

theorem of_spares (h : InStep s id) (hspares : Spares id s t) : InStep t id where
  cached := by
    intro r hr
    rw [hspares.document, hspares.shown]
    exact h.cached (hspares.cached hr)
  shown := by rw [hspares.shown, hspares.document]; exact h.shown
  waiting := by rw [hspares.waiting, hspares.document]; exact h.waiting

/-- What the cache holds is older than a version that it does not hold and that is not out of date. -/
theorem lt_of_miss (h : InStep s id) (hcurrent : s.isCurrent id version = true) {r : Validation}
    (hr : s.cache.peek? id = some r) (hmiss : r.version ≠ version) : r.version < version := by
  obtain ⟨⟨d, hd, hle⟩, -⟩ := h.cached hr
  have hdle := version_le_of_isCurrent hd hcurrent
  omega

theorem of_renews (hrenews : Renews id ⟨text, version⟩ s t) : InStep t id where
  cached := by
    intro r hr
    have hfresh := hrenews.cached hr
    refine ⟨⟨_, hrenews.document, Nat.le_of_eq (of_fresh?_eq_some hfresh).2⟩, ?_⟩
    rw [hrenews.shown, freshly?, hfresh, Option.map_some]
  shown := fun _ => Option.isSome_of_eq_some hrenews.document
  waiting := fun _ => Option.isSome_of_eq_some hrenews.document

theorem validate (h : InStep s id) (text : String) (version : Nat) :
    InStep (s.validate id text version).2 id := by
  rcases validate_self_cases s id text version with hspares | ⟨hcurrent, hmiss, -⟩
  · exact h.of_spares hspares
  · exact of_renews (renews_validate text hcurrent fun r hr => h.lt_of_miss hcurrent hr (hmiss r hr))

theorem didChange (h : InStep s id) (text : String) (version : Nat) :
    InStep (s.didChange id text version) id := by
  cases hcurrent : s.isCurrent id version with
  | false =>
    rw [didChange_of_old hcurrent]
    exact h
  | true =>
    have hdocument := document?_didChange hcurrent text
    constructor
    case cached =>
      rw [hdocument, didChange_of_current hcurrent]
      intro r hr
      obtain ⟨⟨d, hd, hle⟩, hshown⟩ := h.cached hr
      exact ⟨⟨_, rfl, Nat.le_trans hle (version_le_of_isCurrent hd hcurrent)⟩, hshown⟩
    case shown => exact fun _ => Option.isSome_of_eq_some hdocument
    case waiting => exact fun _ => Option.isSome_of_eq_some hdocument

theorem cancel (h : InStep s id) : InStep (s.cancel id) id where
  cached := h.cached
  shown := h.shown
  waiting := by
    intro hwaiting
    cases (Debouncer.isWaiting_cancel_self s.debouncer id).symm.trans hwaiting

/-- One act. -/
theorem act (h : InStep s id) (a : Act) : InStep (s.act a) id :=
  act_cases a (fun _ => h.of_spares) (fun text version _ => h.validate text version)
    (fun text version _ => h.didChange text version) h.cancel

theorem enact (h : InStep s id) (acts : List Act) : InStep (s.enact acts) id := by
  induction acts generalizing s with
  | nil => exact h
  | cons a rest ih => exact ih (h.act a)

/-- Closing a document, this one or another. -/
theorem didClose (h : InStep s id) (other : String) : InStep (s.didClose other) id := by
  by_cases hid : id = other
  · subst hid
    obtain ⟨-, hcache, hdebouncer, hboard⟩ := none_of_didClose s id
    constructor
    case cached => intro r hr; cases hcache.symm.trans hr
    case shown => intro hshown; rw [hboard] at hshown; cases hshown
    case waiting => intro hwaiting; cases hdebouncer.symm.trans hwaiting
  · exact h.of_spares (spares_didClose hid s)

/-- One event. -/
theorem perform (h : InStep s id) (e : Event) : InStep (s.perform e) id := by
  rcases perform_cases s e with ⟨d, rfl⟩ | hacts
  · exact h.didClose d
  · rw [hacts]
    exact h.enact (e.acts s)

/-- A run of events. -/
theorem foldl_perform (h : InStep s id) (events : List Event) :
    InStep (events.foldl Service.perform s) id := by
  induction events generalizing s with
  | nil => exact h
  | cons e rest ih => exact ih (h.perform e)

end InStep

/-! ## The version in store

A text in store gives way only to one that is not older, until its document is closed. -/

/-- From `s` to `t` the text of a document in store has not become older. -/
def Advances (id : String) (s t : Service) : Prop :=
  ∀ d, s.document? id = some d → ∃ d', t.document? id = some d' ∧ d.version ≤ d'.version

namespace Advances

theorem of_eq (h : t.document? id = s.document? id) : Advances id s t :=
  fun d hd => ⟨d, h.trans hd, Nat.le_refl _⟩

theorem trans {u : Service} (h : Advances id s t) (h' : Advances id t u) : Advances id s u := by
  intro d hd
  obtain ⟨d', hd', hle⟩ := h d hd
  obtain ⟨d'', hd'', hle'⟩ := h' d' hd'
  exact ⟨d'', hd'', Nat.le_trans hle hle'⟩

theorem of_isCurrent (hcurrent : s.isCurrent id version = true)
    (h : t.document? id = some ⟨text, version⟩) : Advances id s t :=
  fun _ hd => ⟨_, h, version_le_of_isCurrent hd hcurrent⟩

theorem validate (s : Service) (id text : String) (version : Nat) :
    Advances id s (s.validate id text version).2 := by
  rcases validate_self_cases s id text version with hspares | ⟨hcurrent, -, hrenewed⟩
  · exact of_eq hspares.document
  · rw [hrenewed]
    exact of_isCurrent hcurrent (document?_renewed s id text version)

theorem didChange (s : Service) (id text : String) (version : Nat) :
    Advances id s (s.didChange id text version) := by
  cases hcurrent : s.isCurrent id version with
  | false => exact of_eq (by rw [didChange_of_old hcurrent])
  | true => exact of_isCurrent hcurrent (document?_didChange hcurrent text)

/-- One act. -/
theorem act (s : Service) (a : Act) : Advances id s (s.act a) :=
  act_cases a (fun _ hspares => of_eq hspares.document) (fun text version _ => validate s id text version)
    (fun text version _ => didChange s id text version) (of_eq rfl)

theorem enact (s : Service) (acts : List Act) : Advances id s (s.enact acts) := by
  induction acts generalizing s with
  | nil => exact of_eq rfl
  | cons a rest ih => exact (act s a).trans (ih _)

/-- An event that does not close the document. -/
theorem perform (s : Service) (hopen : e ≠ .didClose id) : Advances id s (s.perform e) := by
  rcases perform_cases s e with ⟨d, rfl⟩ | hacts
  · have hne : id ≠ d := by
      rintro rfl
      exact hopen rfl
    exact of_eq (spares_didClose hne s).document
  · rw [hacts]
    exact enact s (e.acts s)

/-- A run of events in which the document is not closed. -/
theorem foldl_perform {events : List Event} (s : Service) (hopen : .didClose id ∉ events) :
    Advances id s (events.foldl Service.perform s) := by
  induction events generalizing s with
  | nil => exact of_eq rfl
  | cons e rest ih =>
    rw [List.mem_cons, not_or] at hopen
    exact (perform s (Ne.symm hopen.1)).trans (ih _ hopen.2)

end Advances

/-! ## Runs -/

/-- **The stores of the service.** After any events, what the cache holds of a document is shown and is no
newer than the text in store, nothing is shown and no task waits without such a text, the text does not
become older until the document is closed, and then nothing is left. -/
theorem Service.stores_of_events (registry : Registry) (options : LintOptions) (delay capacity : Nat)
    (events : List Event) (id : String) :
    let s := events.foldl perform (.new registry options delay capacity)
    (∀ r, s.cache.peek? id = some r →
      (∃ d, s.document? id = some d ∧ r.version ≤ d.version) ∧
        s.board.shown? id = some (Diagnostic.ofValidation r)) ∧
    ((s.board.shown? id).isSome = true ∨ s.debouncer.isWaiting id = true →
      ∃ d, s.document? id = some d) ∧
    (∀ more : List Event, .didClose id ∉ more → ∀ d, s.document? id = some d →
      ∃ d', (more.foldl perform s).document? id = some d' ∧ d.version ≤ d'.version) ∧
    (s.didClose id).document? id = none ∧ (s.didClose id).cache.peek? id = none ∧
      (s.didClose id).debouncer.isWaiting id = false ∧ (s.didClose id).board.shown? id = none := by
  intro s
  have hstep : InStep s id := (InStep.new registry options delay capacity id).foldl_perform events
  refine ⟨fun r hr => hstep.cached hr, ?_, fun more hopen => ?_, none_of_didClose s id⟩
  · rw [← Option.isSome_iff_exists]
    exact fun h => h.elim hstep.shown hstep.waiting
  · exact Advances.foldl_perform s hopen

end PolicyAudit
