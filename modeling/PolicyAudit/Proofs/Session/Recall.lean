-- SUMMARY: Validating with the cache gives what validating without it would give.
import PolicyAudit.Proofs.Session.Act
import PolicyAudit.Proofs.Session.Freshness

/-! ## Texts that vouch for the state

A validation comes out of the cache by the number of its version alone. It is the right one, because
what the cache holds of a document goes back to a text that came under that number since the document
was last closed, and no number came with two texts. -/

namespace PolicyAudit

open Service

variable {s t : Service} {past : Past} {texts more : List Stored} {id other text : String}
variable {version : Nat} {e : Event}

/-- The text of a document that an act brings. -/
def Act.text? (id : String) : Act → Option Stored
  | .validate d text version | .change d text version =>
    if d = id then some ⟨text, version⟩ else none
  | .cancel _ | .tick _ => none

/-- The text of a document in store is one of `texts`, and what the cache holds of it is the validation
of one of them, whatever else the registry comes to hold. -/
structure Vouched (texts : List Stored) (s : Service) (id : String) : Prop where
  stored : ∀ {d}, s.document? id = some d → d ∈ texts
  cached : ∀ {v}, s.cache.peek? id = some v → ∃ c ∈ texts, ∀ {r}, s.registry.GrowsInto r →
    (validateText r s.options id c.text c.version).1 = some v

/-- The acts bring no text of a document but `texts`. -/
def Accounted (texts : List Stored) (id : String) (acts : List Act) : Prop :=
  ∀ a ∈ acts, ∀ d, a.text? id = some d → d ∈ texts

namespace Vouched

theorem of_matches (h : past.Matches s id) : Vouched past.received s id where
  stored := h.stored
  cached := by
    intro v hv
    obtain ⟨c, hchecked, hfresh⟩ := h.cached hv
    refine ⟨c, (h.checked hchecked).1, fun hgrow => ?_⟩
    exact (h.settled hchecked hgrow).trans hfresh

theorem mono (h : Vouched texts s id) (hsub : ∀ d ∈ texts, d ∈ more) : Vouched more s id where
  stored := fun hd => hsub _ (h.stored hd)
  cached := by
    intro v hv
    obtain ⟨c, hc, hsame⟩ := h.cached hv
    exact ⟨c, hsub c hc, hsame⟩

theorem of_spares (h : Vouched texts s id) (hspares : Spares id s t) : Vouched texts t id where
  stored := fun hd => h.stored (hspares.document.symm.trans hd)
  cached := by
    intro v hv
    obtain ⟨c, hc, hsame⟩ := h.cached (hspares.cached hv)
    refine ⟨c, hc, fun hgrow => ?_⟩
    rw [hspares.options]
    exact hsame (hspares.registry.trans hgrow)

/-- A text that is stored and validated vouches for what is then in the cache. -/
theorem renewed (h : Vouched texts s id) (hmem : ⟨text, version⟩ ∈ texts) :
    Vouched texts (s.renewed id text version) id where
  stored := by
    intro d hd
    obtain rfl := Option.some.inj ((document?_renewed ..).symm.trans hd)
    exact hmem
  cached := by
    intro v hv
    have hsettles := settles_validateText s.options id text version
    rw [Service.renewed, registry_adopt, options_adopt]
    rcases cached_renewed hv with hfresh | hbefore
    · refine ⟨_, hmem, fun hgrow => ?_⟩
      exact (hsettles.same hgrow).trans hfresh
    · obtain ⟨c, hc, hsame⟩ := h.cached hbefore
      exact ⟨c, hc, fun hgrow => hsame ((hsettles.grows s.registry).trans hgrow)⟩

theorem validate (h : Vouched texts s id) (hmem : ⟨text, version⟩ ∈ texts) :
    Vouched texts (s.validate id text version).2 id := by
  rcases validate_self_cases s id text version with hspares | ⟨-, -, hrenewed⟩
  · exact h.of_spares hspares
  · rw [hrenewed]
    exact h.renewed hmem

theorem didChange (h : Vouched texts s id) (hmem : ⟨text, version⟩ ∈ texts) :
    Vouched texts (s.didChange id text version) id := by
  cases hcurrent : s.isCurrent id version with
  | false =>
    rw [didChange_of_old hcurrent]
    exact h
  | true =>
    constructor
    case stored =>
      intro d hd
      obtain rfl := Option.some.inj ((document?_didChange hcurrent text).symm.trans hd)
      exact hmem
    case cached =>
      rw [didChange_of_current hcurrent]
      exact h.cached

/-- One act. -/
theorem act (h : Vouched texts s id) {a : Act} (htext : ∀ d, a.text? id = some d → d ∈ texts) :
    Vouched texts (s.act a) id := by
  refine act_cases a (fun _ => h.of_spares) ?_ ?_ ⟨h.stored, h.cached⟩
  · rintro text version rfl
    exact h.validate (htext _ (if_pos rfl))
  · rintro text version rfl
    exact h.didChange (htext _ (if_pos rfl))

/-- One act upon the other. -/
theorem enact {acts : List Act} (h : Vouched texts s id) (hacts : Accounted texts id acts) :
    Vouched texts (s.enact acts) id := by
  induction acts generalizing s with
  | nil => exact h
  | cons a rest ih =>
    exact ih (h.act (hacts a List.mem_cons_self)) fun b hb => hacts b (List.mem_cons_of_mem a hb)

end Vouched

/-! ## The acts of an event

An event brings the texts that it is said to bring, and validates no other text but the stored one. -/

namespace Accounted

theorem nil (id : String) : Accounted texts id [] := fun _ ha => absurd ha List.not_mem_nil

theorem append {first second : List Act} (h : Accounted texts id first)
    (h' : Accounted texts id second) : Accounted texts id (first ++ second) :=
  fun a ha => (List.mem_append.mp ha).elim (h a) (h' a)

theorem validate (hmem : other = id → ⟨text, version⟩ ∈ texts) :
    Accounted texts id [.validate other text version] := by
  intro a ha d hd
  obtain rfl := List.mem_singleton.mp ha
  simp only [Act.text?, Option.ite_none_right_eq_some, Option.some.injEq] at hd
  exact hd.2 ▸ hmem hd.1

theorem cancel {acts : List Act} (h : Accounted texts id acts) :
    Accounted texts id (.cancel other :: acts) := by
  intro a ha d hd
  rcases List.mem_cons.mp ha with rfl | hrest
  · cases hd
  · exact h a hrest d hd

theorem storedActs (h : Vouched texts s id) : Accounted texts id (s.storedActs other) := by
  unfold Service.storedActs
  split
  · next stored hstored => exact validate fun hid => h.stored (hid ▸ hstored)
  · exact nil id

theorem expireActs (h : Vouched texts s id) : Accounted texts id (s.expireActs other) := by
  unfold Service.expireActs
  split
  · exact (storedActs h).cancel
  · exact nil id

theorem dueActs (h : Vouched texts s id) (tasks : List (DelayedTask Unit)) :
    Accounted texts id (dueActs tasks s) := by
  induction tasks generalizing s with
  | nil => exact nil id
  | cons task rest ih =>
    have hfirst : Accounted texts id (s.expireActs task.key) := expireActs h
    have hexpired := h.enact hfirst
    rw [enact_expireActs] at hexpired
    exact hfirst.append (ih hexpired)

theorem commitActs {edit : Edit} (hmem : other = id → ∀ fixed, (s.commit other edit).1 = .ok fixed →
      ⟨fixed.text, fixed.version⟩ ∈ texts) : Accounted texts id (s.commitActs other edit) := by
  unfold Service.commitActs
  split
  · next fixed hfixed => exact (validate fun hid => hmem hid fixed hfixed).cancel
  · exact nil id

theorem applyFixActs {code : String} {range : Range} (h : Vouched texts s id)
    (hmem : other = id → ∀ fixed, (s.applyFix other code range).1 = .ok (some fixed) →
      ⟨fixed.text, fixed.version⟩ ∈ texts) :
    Accounted texts id (s.applyFixActs other code range) := by
  refine (storedActs h).append ?_
  unfold applyFix at hmem
  rcases hrequest : s.requestFix other code range with ⟨_ | edit, s'⟩
  · exact nil id
  · refine commitActs fun hid fixed hfixed => hmem hid fixed ?_
    simp only [hrequest]
    rcases hcommit : s'.commit other edit with ⟨_ | applied, s''⟩
    · rw [hcommit] at hfixed
      cases hfixed
    · rw [hcommit] at hfixed
      exact congrArg (Except.map some) hfixed

theorem passActs (passes : Nat) {done : FixAll}
    (hmem : other = id → ∀ n ≤ passes, ∀ made, (fixPasses other n done s).1 = .ok made →
      ⟨made.text, made.version⟩ ∈ texts) :
    Accounted texts id (passActs other passes done s) := by
  induction passes generalizing done s with
  | zero => exact nil id
  | succ n ih =>
    unfold Service.passActs
    split
    · exact nil id
    · next code edit hnext =>
      -- The first pass made what is committed, and the others make what comes after it.
      have hfirst : other = id → ∀ fixed, (s.commit other edit).1 = .ok fixed →
          ⟨fixed.text, fixed.version⟩ ∈ texts := by
        intro hid fixed hfixed
        have hone := hmem hid 1 (by omega)
        rcases hcommit : s.commit other edit with ⟨_ | made, s'⟩
        · rw [hcommit] at hfixed
          cases hfixed
        · rw [hcommit] at hfixed
          cases hfixed
          simp only [fixPasses, hnext, hcommit] at hone
          exact hone _ rfl
      refine (commitActs hfirst).append ?_
      rcases hcommit : s.commit other edit with ⟨_ | fixed, s'⟩
      · exact nil id
      · refine ih fun hid m hm made hmade => hmem hid (m + 1) (by omega) made ?_
        simp only [fixPasses, hnext, hcommit]
        exact hmade

theorem fixAllActs (h : Vouched texts s id)
    (hmem : other = id → ∀ n ≤ maxFixes, ∀ made, (s.fixSome other n).1 = .ok made →
      ⟨made.text, made.version⟩ ∈ texts) : Accounted texts id (s.fixAllActs other) := by
  refine (storedActs h).append ?_
  unfold fixSome at hmem
  cases hstored : s.document? other with
  | none => exact nil id
  | some stored =>
    simp only [hstored] at hmem
    exact passActs maxFixes hmem

/-- The acts of an event. -/
theorem acts (h : Vouched texts s id) (hreceipts : ∀ d ∈ e.receipts s id, d ∈ texts) :
    Accounted texts id (e.acts s) := by
  cases e
  case didOpen d text version =>
    refine validate fun hid => hreceipts _ ?_
    simp [Event.receipts, Event.subject?, hid]
  case validate d text version =>
    refine validate fun hid => hreceipts _ ?_
    simp [Event.receipts, Event.subject?, hid]
  case didChange d text version =>
    intro a ha stored hstored
    obtain rfl := List.mem_singleton.mp ha
    simp only [Act.text?, Option.ite_none_right_eq_some, Option.some.injEq] at hstored
    refine hreceipts _ ?_
    simp [Event.receipts, Event.subject?, hstored]
  case fixApplied d text version =>
    refine (validate fun hid => hreceipts _ ?_).cancel
    simp [Event.receipts, Event.subject?, hid]
  case requestFix d code range => exact storedActs h
  case applyFix d code range =>
    refine applyFixActs h fun hid fixed hfixed => hreceipts _ ?_
    subst hid
    simp [Event.receipts, Event.subject?, hfixed]
  case fixAll d =>
    refine fixAllActs h fun hid n hn made hmade => hreceipts _ ?_
    subst hid
    simp only [Event.receipts, Event.subject?, if_true, List.mem_filterMap, List.mem_range]
    exact ⟨n, by omega, by rw [hmade]⟩
  case didClose d => exact nil id
  case expire d => exact expireActs h
  case sleep ms =>
    have hticked : Vouched texts { s with debouncer := s.debouncer.tick ms } id :=
      h.of_spares (spares_tick s ms)
    intro a ha d hd
    rcases List.mem_cons.mp ha with rfl | hdue
    · cases hd
    · exact dueActs hticked _ a hdue d hd

end Accounted

/-! ## Every call gives a fresh validation

The calls are those of the host and those that the service makes itself: for fixes, and when a task
falls due. -/

/-- In the course of an event the service comes to the state `t` and validates a text there. -/
def Event.Validates (s : Service) (e : Event) (id text : String) (version : Nat) (t : Service) : Prop :=
  ∃ before after, e.acts s = before ++ .validate id text version :: after ∧ t = s.enact before

theorem Event.validates_validate (s : Service) (id text : String) (version : Nat) :
    (Event.validate id text version).Validates s id text version s := ⟨[], [], rfl, rfl⟩

/-- A text that vouches for the state with the others is validated as if there were no cache. -/
theorem Vouched.fst_validate (h : Vouched texts s id) (hmem : ⟨text, version⟩ ∈ texts)
    (hconsistent : ∀ a ∈ texts, ∀ b ∈ texts, a.version = b.version → a = b) :
    (s.validate id text version).1 = s.fresh? id ⟨text, version⟩ := by
  by_cases hhit : ∃ r, s.cache.peek? id = some r ∧ r.version = version
  · obtain ⟨r, hcached, hversion⟩ := hhit
    obtain ⟨c, hc, hsame⟩ := h.cached hcached
    have hfresh : s.fresh? id c = some r := hsame (.refl _)
    have hnumber : c.version = version := (of_fresh?_eq_some hfresh).2.symm.trans hversion
    obtain rfl := hconsistent c hc _ hmem hnumber
    rw [validate_of_hit hcached hversion, hfresh]
  · rw [validate_of_miss fun r hr hversion => hhit ⟨r, hr, hversion⟩]

theorem Run.options_eq {start : Service} (h : Run start id s past) : s.options = start.options := by
  induction h with
  | start => rfl
  | step e _ _ ih => rw [options_perform, ih]

/-- Before a call, the texts that came vouch for the state, and the text of the call is one of them. -/
theorem Past.vouched_of_validates {registry : Registry} {options : LintOptions} {delay capacity : Nat}
    (hrun : Run (.new registry options delay capacity) id s past)
    (hcall : e.Validates s id text version t) :
    Vouched (past.after s id e).received t id ∧
      ⟨text, version⟩ ∈ (past.after s id e).received := by
  obtain ⟨before, after, hacts, rfl⟩ := hcall
  have hopen : ∀ d, e ≠ .didClose d := by
    rintro d rfl
    cases before <;> cases hacts
  have hvouched : Vouched past.received s id := .of_matches (matches_of_run hrun)
  rw [after_of_not_closes hopen]
  have hmore := hvouched.mono fun d hd => List.mem_append_left (e.receipts s id) hd
  have haccounted : Accounted (past.received ++ e.receipts s id) id (e.acts s) :=
    .acts hmore fun d hd => List.mem_append_right _ hd
  rw [hacts] at haccounted
  constructor
  · exact hmore.enact fun a ha => haccounted a (List.mem_append_left _ ha)
  · exact haccounted _ (List.mem_append_right before List.mem_cons_self) _ (if_pos rfl)

/-- **The cache is not seen.** As long as no version of a document comes with two texts between two closes,
every call gives what validating the text without a cache would give at that moment. -/
theorem Past.fst_validate_of_run {registry : Registry} {options : LintOptions} {delay capacity : Nat}
    (hrun : Run (.new registry options delay capacity) id s past)
    (hconsistent : (past.after s id e).Consistent) (hcall : e.Validates s id text version t) :
    (t.validate id text version).1 = (validateText t.registry options id text version).1 ∧
      ((t.validate id text version).1 = none ↔
        (Document.ofText text).isClean = false ∨ Validator.select? (.ofText text) = none) ∧
      ∀ v, (t.validate id text version).1 = some v → ∃ validator ctx,
        Validator.select? (.ofText text) = some validator ∧
        Context.ofDocument? (.ofText text) = some ctx ∧
        v.documentId = id ∧ v.version = version ∧ v.kind? = validator.kind? ∧
        (v.issues, v.truncated) = (validator.run ctx options t.registry).1 ∧
        v.valid = !(validator.run ctx options t.registry).1.1.any Issue.isError := by
  obtain ⟨hvouched, hmem⟩ := vouched_of_validates hrun hcall
  have hoptions : t.options = options := by
    obtain ⟨before, after, -, rfl⟩ := hcall
    exact (options_enact s before).trans hrun.options_eq
  have hcached := hvouched.fst_validate hmem hconsistent
  rw [hcached]
  refine ⟨?_, fresh?_eq_none_iff, fun v hv => ?_⟩
  · rw [fresh?, hoptions]
  · obtain ⟨-, validator, ctx, hselect, hctx, rfl⟩ := fresh?_eq_some_iff.mp hv
    rw [hoptions]
    exact ⟨validator, ctx, hselect, hctx, rfl, rfl, rfl, rfl, rfl⟩

/-- A document is opened, and the same version is validated again: its validation is in the cache. -/
theorem Past.fst_validate_of_opened :
    ∃ s past, Run (.new (.new none) .default 500 256) "p" s past ∧
      (past.after s "p" (.validate "p" "\x7b\"nodeName\":1\x7d" 1)).Consistent ∧
      (Event.validate "p" "\x7b\"nodeName\":1\x7d" 1).Validates s "p" "\x7b\"nodeName\":1\x7d" 1 s ∧
      (s.cache.get "p" 1).1.isSome = true ∧
      (s.validate "p" "\x7b\"nodeName\":1\x7d" 1).1 =
        (validateText s.registry .default "p" "\x7b\"nodeName\":1\x7d" 1).1 := by
  have hstart : Run (.new (.new none) .default 500 256) "p" _ _ := .start
  have hopen := hstart.step (.didOpen "p" "\x7b\"nodeName\":1\x7d" 1) (by decide +kernel)
  have hfresh := fst_validate_of_run hopen (by decide +kernel)
    (Event.validates_validate _ "p" "\x7b\"nodeName\":1\x7d" 1)
  exact ⟨_, _, hopen, by decide +kernel, Event.validates_validate .., by decide +kernel, hfresh.1⟩

end PolicyAudit
