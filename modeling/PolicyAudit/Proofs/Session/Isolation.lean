-- SUMMARY: Documents do not disturb each other.
import Mathlib.Data.List.Infix
import PolicyAudit.Proofs.Session.Alike
import PolicyAudit.Proofs.Session.Lockstep
import PolicyAudit.Proofs.Session.Recall

/-! ## Answers -/

namespace PolicyAudit

/-- What the host is told after an event. -/
inductive Answer where
  | nothing
  | validation (result? : Option Validation)
  | edit (edit? : Option Edit)
  | fixed (outcome : Except AuditError (Option AppliedFix))
  | fixedAll (outcome : Except AuditError FixAll)

/-- The answer to an event. -/
def Service.answer (s : Service) : Event → Answer
  | .didOpen id text version => .validation (s.didOpen id text version).1
  | .validate id text version => .validation (s.validate id text version).1
  | .fixApplied id text version => .validation (s.fixApplied id text version).1
  | .requestFix id code range => .edit (s.requestFix id code range).1
  | .applyFix id code range => .fixed (s.applyFix id code range).1
  | .fixAll id => .fixedAll (s.fixAll id).1
  | .didChange .. | .didClose _ | .expire _ | .sleep _ => .nothing

/-- Whether an event is about a document or is the passage of time. -/
def Event.touches (id : String) (e : Event) : Bool := e.subject?.all (· = id)

/-! ## One state

What the stores hold of a document goes together and goes back to texts that came, and the registry is
warm. Then validating a text that is not out of date comes to the same whether the cache has it or not. -/

open Service

variable {s t u : Service} {id other text code : String} {version : Nat} {range : Range}
variable {texts more : List Stored} {past : Past} {e : Event}

/-- What a state holds of a document goes back to some texts. -/
structure Grounded (texts : List Stored) (s : Service) (id : String) : Prop where
  warm : s.registry.Warm
  vouched : Vouched texts s id
  inStep : InStep s id

namespace Grounded

theorem mono (h : Grounded texts s id) (hsub : ∀ d ∈ texts, d ∈ more) : Grounded more s id :=
  ⟨h.warm, h.vouched.mono hsub, h.inStep⟩

theorem validate (h : Grounded texts s id) (hmem : ⟨text, version⟩ ∈ texts) :
    Grounded texts (s.validate id text version).2 id :=
  ⟨h.warm.of_agrees (agrees_validate h.warm id text version), h.vouched.validate hmem,
    h.inStep.validate text version⟩

theorem cancel (h : Grounded texts s id) : Grounded texts (s.cancel id) id :=
  ⟨h.warm, ⟨h.vouched.stored, h.vouched.cached⟩, h.inStep.cancel⟩

theorem tick (h : Grounded texts s id) (ms : Nat) :
    Grounded texts { s with debouncer := s.debouncer.tick ms } id :=
  ⟨h.warm, h.vouched.of_spares (spares_tick s ms), h.inStep.of_spares (spares_tick s ms)⟩

theorem didChange (h : Grounded texts s id) (hmem : ⟨text, version⟩ ∈ texts) :
    Grounded texts (s.didChange id text version) id := by
  refine ⟨?_, h.vouched.didChange hmem, h.inStep.didChange text version⟩
  cases hcurrent : s.isCurrent id version with
  | false => rw [didChange_of_old hcurrent]; exact h.warm
  | true => rw [didChange_of_current hcurrent]; exact h.warm

/-- Nothing is left of a document that is closed. -/
theorem didClose (h : Grounded texts s id) : Grounded [] (s.didClose id) id := by
  obtain ⟨hdocument, hcache, -⟩ := none_of_didClose s id
  refine ⟨h.warm, ⟨fun {d} hd => ?_, fun {v} hv => ?_⟩, h.inStep.didClose id⟩
  · cases hdocument.symm.trans hd
  · cases hcache.symm.trans hv

/-- An event that is about another document. -/
theorem perform_other (h : Grounded texts s id) (hsubject : e.subject? = some other)
    (hne : id ≠ other) : Grounded texts (s.perform e) id := by
  have hspares : Spares id s (s.perform e) := spares_perform hsubject hne
  have halike : Alike id s (s.perform e) := alike_perform h.warm hsubject hne
  exact ⟨h.warm.of_agrees halike.registry, h.vouched.of_spares hspares, h.inStep.of_spares hspares⟩

/-- A text that is not out of date is in store once it has been validated, and it is shown what it calls
for. -/
theorem validate_of_current (h : Grounded texts s id)
    (hconsistent : ∀ a ∈ texts, ∀ b ∈ texts, a.version = b.version → a = b)
    (hmem : ⟨text, version⟩ ∈ texts) (hcurrent : s.isCurrent id version = true) :
    (s.validate id text version).2.document? id = some ⟨text, version⟩ ∧
      (s.validate id text version).2.board.shown? id = s.freshly? id ⟨text, version⟩ := by
  by_cases hhit : ∃ r, s.cache.peek? id = some r ∧ r.version = version
  · -- What the cache has of this version is shown already, and no version came with two texts.
    have hspares : Spares id s (s.validate id text version).2 := spares_validate_self text (.inr hhit)
    have hfresh := h.vouched.fst_validate hmem hconsistent
    obtain ⟨r, hr, hversion⟩ := hhit
    obtain ⟨⟨d, hd, hle⟩, hshown⟩ := h.inStep.cached hr
    have hge := version_le_of_isCurrent hd hcurrent
    have hsame : d = ⟨text, version⟩ :=
      hconsistent d (h.vouched.stored hd) _ hmem (show d.version = version by omega)
    rw [validate_of_hit hr hversion] at hfresh
    rw [hspares.document, hspares.shown, hd, hsame, hshown, freshly?, ← hfresh]
    exact ⟨rfl, rfl⟩
  · have hmiss : ∀ r, s.cache.peek? id = some r → r.version < version := fun r hr =>
      h.inStep.lt_of_miss hcurrent hr fun hversion => hhit ⟨r, hr, hversion⟩
    have hrenews := renews_validate text hcurrent hmiss
    refine ⟨hrenews.document, ?_⟩
    rw [hrenews.shown, freshly?, freshly?,
      fresh?_of_agrees h.warm (agrees_validate h.warm id text version) hrenews.options]

end Grounded

/-! ## Two states -/

/-- Two states that are alike for a document and hold of it what goes back to the same texts. -/
structure Paired (texts : List Stored) (id : String) (s t : Service) : Prop where
  alike : Alike id s t
  left : Grounded texts s id
  right : Grounded texts t id

namespace Paired

theorem symm (h : Paired texts id s t) : Paired texts id t s := ⟨h.alike.symm, h.right, h.left⟩

theorem trans (h : Paired texts id s t) (h' : Paired texts id t u) : Paired texts id s u :=
  ⟨h.alike.trans h'.alike, h.left, h'.right⟩

theorem mono (h : Paired texts id s t) (hsub : ∀ d ∈ texts, d ∈ more) : Paired more id s t :=
  ⟨h.alike, h.left.mono hsub, h.right.mono hsub⟩

theorem document (h : Paired texts id s t) : t.document? id = s.document? id := h.alike.document

/-- What happens to another document in one of the states. -/
theorem perform_other (h : Paired texts id s t) (hsubject : e.subject? = some other)
    (hne : id ≠ other) : Paired texts id (s.perform e) t :=
  ⟨(alike_perform h.left.warm hsubject hne).symm.trans h.alike, h.left.perform_other hsubject hne,
    h.right⟩

theorem cancel (h : Paired texts id s t) : Paired texts id (s.cancel id) (t.cancel id) := by
  refine ⟨?_, h.left.cancel, h.right.cancel⟩
  have hnone : (t.cancel id).debouncer.tasks id = (s.cancel id).debouncer.tasks id :=
    (Debouncer.tasks_cancel_self ..).trans (Debouncer.tasks_cancel_self ..).symm
  exact ⟨h.alike.registry, h.alike.options, h.alike.document, h.alike.shown, h.alike.delay,
    h.alike.now, hnone⟩

theorem tick (h : Paired texts id s t) (ms : Nat) :
    Paired texts id { s with debouncer := s.debouncer.tick ms }
      { t with debouncer := t.debouncer.tick ms } := by
  refine ⟨?_, h.left.tick ms, h.right.tick ms⟩
  have hnow : t.debouncer.now + ms = s.debouncer.now + ms := congrArg (· + ms) h.alike.now
  exact ⟨h.alike.registry, h.alike.options, h.alike.document, h.alike.shown, h.alike.delay, hnow,
    h.alike.tasks⟩

theorem didChange (h : Paired texts id s t) (hmem : ⟨text, version⟩ ∈ texts) :
    Paired texts id (s.didChange id text version) (t.didChange id text version) := by
  refine ⟨?_, h.left.didChange hmem, h.right.didChange hmem⟩
  have hsame := h.alike.isCurrent_eq version
  cases hcurrent : s.isCurrent id version with
  | false =>
    rw [didChange_of_old hcurrent, didChange_of_old (hsame.trans hcurrent)]
    exact h.alike
  | true =>
    have hdocument := document?_didChange hcurrent text
    have hdocument' := document?_didChange (hsame.trans hcurrent) text
    rw [didChange_of_current hcurrent] at hdocument ⊢
    rw [didChange_of_current (hsame.trans hcurrent)] at hdocument' ⊢
    have htasks : ((t.store id ⟨text, version⟩).postpone id).debouncer.tasks id =
        ((s.store id ⟨text, version⟩).postpone id).debouncer.tasks id := by
      simp only [postpone, Debouncer.tasks_schedule_self, store, h.alike.now, h.alike.delay]
    exact ⟨h.alike.registry, h.alike.options, hdocument'.trans hdocument.symm, h.alike.shown,
      h.alike.delay, h.alike.now, htasks⟩

theorem didClose (h : Paired texts id s t) : Paired [] id (s.didClose id) (t.didClose id) := by
  refine ⟨?_, h.left.didClose, h.right.didClose⟩
  obtain ⟨hdocument, -, -, hshown⟩ := none_of_didClose s id
  obtain ⟨hdocument', -, -, hshown'⟩ := none_of_didClose t id
  have htasks : (t.didClose id).debouncer.tasks id = (s.didClose id).debouncer.tasks id :=
    (Debouncer.tasks_cancel_self ..).trans (Debouncer.tasks_cancel_self ..).symm
  exact ⟨h.alike.registry, h.alike.options, hdocument'.trans hdocument.symm,
    hshown'.trans hshown.symm, h.alike.delay, h.alike.now, htasks⟩

section

variable (hconsistent : ∀ a ∈ texts, ∀ b ∈ texts, a.version = b.version → a = b)

include hconsistent

/-- Validating a text of the document. -/
theorem validate (h : Paired texts id s t) (hmem : ⟨text, version⟩ ∈ texts) :
    (t.validate id text version).1 = (s.validate id text version).1 ∧
      Paired texts id (s.validate id text version).2 (t.validate id text version).2 := by
  have hfresh : t.fresh? id ⟨text, version⟩ = s.fresh? id ⟨text, version⟩ :=
    fresh?_of_agrees h.left.warm h.alike.registry h.alike.options _
  have hagrees := agrees_validate h.left.warm id text version
  have hagrees' := agrees_validate h.right.warm id text version
  have hboth : (t.validate id text version).2.document? id = (s.validate id text version).2.document? id ∧
      (t.validate id text version).2.board.shown? id =
        (s.validate id text version).2.board.shown? id := by
    cases hcurrent : s.isCurrent id version with
    | true =>
      obtain ⟨hdocument, hshown⟩ := h.left.validate_of_current hconsistent hmem hcurrent
      obtain ⟨hdocument', hshown'⟩ := h.right.validate_of_current hconsistent hmem
        ((h.alike.isCurrent_eq version).trans hcurrent)
      rw [hdocument, hdocument', hshown, hshown', freshly?, freshly?, hfresh]
      exact ⟨rfl, rfl⟩
    | false =>
      have hspares := spares_validate_self text (.inl hcurrent)
      have hspares' := spares_validate_self text (.inl ((h.alike.isCurrent_eq version).trans hcurrent))
      rw [hspares.document, hspares'.document, hspares.shown, hspares'.shown]
      exact ⟨h.alike.document, h.alike.shown⟩
  refine ⟨?_, ?_, h.left.validate hmem, h.right.validate hmem⟩
  · rw [h.right.vouched.fst_validate hmem hconsistent, hfresh,
      h.left.vouched.fst_validate hmem hconsistent]
  · constructor
    case registry => exact (hagrees.symm.trans h.alike.registry).trans hagrees'
    case options => rw [options_validate, options_validate, h.alike.options]
    case document => exact hboth.1
    case shown => exact hboth.2
    case delay => rw [debouncer_validate, debouncer_validate, h.alike.delay]
    case now => rw [debouncer_validate, debouncer_validate, h.alike.now]
    case tasks => rw [debouncer_validate, debouncer_validate, h.alike.tasks]

theorem fixApplied (h : Paired texts id s t) (hmem : ⟨text, version⟩ ∈ texts) :
    (t.fixApplied id text version).1 = (s.fixApplied id text version).1 ∧
      Paired texts id (s.fixApplied id text version).2 (t.fixApplied id text version).2 :=
  h.cancel.validate hconsistent hmem

theorem validateStored (h : Paired texts id s t) :
    Paired texts id (s.validateStored id) (t.validateStored id) := by
  cases hstored : s.document? id with
  | none =>
    rw [validateStored_of_none hstored, validateStored_of_none (h.document.trans hstored)]
    exact h
  | some stored =>
    rw [validateStored_of_some hstored, validateStored_of_some (h.document.trans hstored)]
    exact (h.validate hconsistent (h.left.vouched.stored hstored)).2

theorem expire (h : Paired texts id s t) : Paired texts id (s.expire id) (t.expire id) := by
  unfold Service.expire
  rw [h.alike.isWaiting_eq]
  split
  · exact h.cancel.validateStored hconsistent
  · exact h

/-! ## Fixing -/

theorem requestFix (h : Paired texts id s t) (code : String) (range : Range) :
    (t.requestFix id code range).1 = (s.requestFix id code range).1 ∧
      Paired texts id (s.requestFix id code range).2 (t.requestFix id code range).2 := by
  constructor
  · cases hstored : s.document? id with
    | none =>
      unfold Service.requestFix
      rw [h.document, hstored]
    | some stored =>
      obtain ⟨hanswer, hpaired⟩ := h.validate hconsistent (h.left.vouched.stored hstored)
      rw [fst_requestFix_of_some hstored, fst_requestFix_of_some (h.document.trans hstored), hanswer,
        hpaired.alike.options]
  · rw [snd_requestFix, snd_requestFix]
    exact h.validateStored hconsistent

theorem commit (h : Paired texts id s t) {edit : Edit}
    (hmem : ∀ fixed, (s.commit id edit).1 = .ok fixed → ⟨fixed.text, fixed.version⟩ ∈ texts) :
    (t.commit id edit).1 = (s.commit id edit).1 ∧
      Paired texts id (s.commit id edit).2 (t.commit id edit).2 := by
  cases hstored : s.document? id with
  | none =>
    simp only [Service.commit, h.document, hstored]
    exact ⟨trivial, h⟩
  | some stored =>
    cases happly : edit.apply stored.text with
    | error e =>
      simp only [Service.commit, h.document, hstored, happly]
      exact ⟨trivial, h⟩
    | ok made =>
      rw [commit_of_apply hstored happly] at hmem
      obtain ⟨hanswer, hpaired⟩ := h.fixApplied hconsistent (hmem _ rfl)
      rw [commit_of_apply hstored happly, commit_of_apply (h.document.trans hstored) happly, hanswer]
      exact ⟨rfl, hpaired⟩

theorem applyFix (h : Paired texts id s t)
    (hmem : ∀ fixed, (s.applyFix id code range).1 = .ok (some fixed) →
      ⟨fixed.text, fixed.version⟩ ∈ texts) :
    (t.applyFix id code range).1 = (s.applyFix id code range).1 ∧
      Paired texts id (s.applyFix id code range).2 (t.applyFix id code range).2 := by
  obtain ⟨hanswer, hpaired⟩ := h.requestFix hconsistent code range
  rw [snd_requestFix, snd_requestFix] at hpaired
  cases hrequest : (s.requestFix id code range).1 with
  | none =>
    rw [applyFix_of_none hrequest, applyFix_of_none (hanswer.trans hrequest)]
    exact ⟨rfl, hpaired⟩
  | some edit =>
    rw [applyFix_of_some hrequest] at hmem ⊢
    rw [applyFix_of_some (hanswer.trans hrequest)]
    obtain ⟨hcommit, hcommitted⟩ := hpaired.commit hconsistent fun fixed hfixed =>
      hmem fixed (congrArg (Except.map some) hfixed)
    exact ⟨congrArg (Except.map some) hcommit, hcommitted⟩

theorem fixPasses (h : Paired texts id s t) (passes : Nat) {done : FixAll}
    (hmem : ∀ n ≤ passes, ∀ made, (Service.fixPasses id n done s).1 = .ok made →
      ⟨made.text, made.version⟩ ∈ texts) :
    (Service.fixPasses id passes done t).1 = (Service.fixPasses id passes done s).1 ∧
      Paired texts id (Service.fixPasses id passes done s).2
        (Service.fixPasses id passes done t).2 := by
  induction passes generalizing done s t with
  | zero => exact ⟨rfl, h⟩
  | succ n ih =>
    have hoptions := h.alike.options
    cases hnext : done.result?.bind (nextFix? s.options done.text) with
    | none =>
      rw [fixPasses_of_none hnext, fixPasses_of_none (hoptions ▸ hnext)]
      exact ⟨rfl, h⟩
    | some found =>
      obtain ⟨code, edit⟩ := found
      have hlater : ∀ m ≤ n, ∀ made, (Service.fixPasses id (m + 1) done s).1 = .ok made →
          ⟨made.text, made.version⟩ ∈ texts := fun m hm => hmem (m + 1) (by omega)
      simp only [fixPasses_of_some hnext] at hlater
      rw [fixPasses_of_some hnext, fixPasses_of_some (hoptions ▸ hnext)]
      -- The first pass makes what is committed.
      obtain ⟨hcommit, hcommitted⟩ := h.commit hconsistent fun fixed hfixed =>
        hlater 0 (Nat.zero_le n) ⟨done.applied ++ [code], fixed.text, fixed.version, fixed.result?⟩
          (by rw [hfixed]; rfl)
      rw [hcommit]
      cases hfixed : (s.commit id edit).1 with
      | error e => exact ⟨rfl, hcommitted⟩
      | ok fixed =>
        rw [hfixed] at hlater
        exact ih hcommitted hlater

theorem fixAll (h : Paired texts id s t)
    (hmem : ∀ n ≤ maxFixes, ∀ made, (s.fixSome id n).1 = .ok made →
      ⟨made.text, made.version⟩ ∈ texts) :
    (t.fixAll id).1 = (s.fixAll id).1 ∧ Paired texts id (s.fixAll id).2 (t.fixAll id).2 := by
  unfold Service.fixAll
  unfold fixSome at hmem ⊢
  rw [h.document]
  cases hstored : s.document? id with
  | none => exact ⟨rfl, h⟩
  | some stored =>
    rw [hstored] at hmem
    dsimp only at hmem ⊢
    obtain ⟨hanswer, hpaired⟩ := h.validate hconsistent (h.left.vouched.stored hstored)
    rw [hanswer]
    exact hpaired.fixPasses hconsistent maxFixes hmem

/-! ## Time

The tasks of the document fall due in the same order in both states, whatever tasks of other documents
come between them. -/

theorem foldl_expire (h : Paired texts id s t) (tasks : List (DelayedTask Unit)) :
    Paired texts id (tasks.foldl (fun s task => s.expire task.key) s)
      ((tasks.filter (·.key = id)).foldl (fun s task => s.expire task.key) t) := by
  induction tasks generalizing s t with
  | nil => exact h
  | cons task rest ih =>
    by_cases hkey : task.key = id
    · rw [List.filter_cons_of_pos (by simpa using hkey), List.foldl_cons, List.foldl_cons, hkey]
      exact ih (h.expire hconsistent)
    · rw [List.filter_cons_of_neg (by simpa using hkey), List.foldl_cons]
      have hother : Paired texts id (s.perform (.expire task.key)) t := h.perform_other rfl (Ne.symm hkey)
      exact ih hother

theorem sleep (h : Paired texts id s t) (ms : Nat) : Paired texts id (s.sleep ms) (t.sleep ms) := by
  have hticked := h.tick ms
  have hself := hticked.symm.trans hticked
  have hdue : (t.debouncer.due ms).filter (·.key = id) = (s.debouncer.due ms).filter (·.key = id) := by
    rw [Debouncer.filter_due, Debouncer.filter_due, h.alike.tasks, h.alike.now]
  have hleft := hticked.foldl_expire hconsistent (s.debouncer.due ms)
  have hright := hself.foldl_expire hconsistent (t.debouncer.due ms)
  rw [hdue] at hright
  exact hleft.trans hright.symm

/-! ## One event -/

/-- An event that is about the document, or the passage of time. -/
theorem answer_perform (h : Paired texts id s t) (hreceipts : ∀ d ∈ e.receipts s id, d ∈ texts)
    (hopen : e ≠ .didClose id) (htouches : e.touches id = true) :
    t.answer e = s.answer e ∧ Paired texts id (s.perform e) (t.perform e) := by
  have hsubject : ∀ d, e.subject? = some d → d = id := by
    intro d hd
    rw [Event.touches, hd] at htouches
    exact of_decide_eq_true htouches
  cases e
  case sleep ms => exact ⟨rfl, h.sleep hconsistent ms⟩
  all_goals obtain rfl := hsubject _ rfl
  case didOpen d text version =>
    obtain ⟨hanswer, hpaired⟩ := h.validate hconsistent
      (hreceipts ⟨text, version⟩ (by simp [Event.receipts, Event.subject?]))
    exact ⟨congrArg Answer.validation hanswer, hpaired⟩
  case validate d text version =>
    obtain ⟨hanswer, hpaired⟩ := h.validate hconsistent
      (hreceipts ⟨text, version⟩ (by simp [Event.receipts, Event.subject?]))
    exact ⟨congrArg Answer.validation hanswer, hpaired⟩
  case didChange d text version =>
    exact ⟨rfl, h.didChange (hreceipts ⟨text, version⟩ (by simp [Event.receipts, Event.subject?]))⟩
  case fixApplied d text version =>
    obtain ⟨hanswer, hpaired⟩ := h.fixApplied hconsistent
      (hreceipts ⟨text, version⟩ (by simp [Event.receipts, Event.subject?]))
    exact ⟨congrArg Answer.validation hanswer, hpaired⟩
  case requestFix d code range =>
    obtain ⟨hanswer, hpaired⟩ := h.requestFix hconsistent code range
    exact ⟨congrArg Answer.edit hanswer, hpaired⟩
  case applyFix d code range =>
    have hmade : ∀ fixed, (s.applyFix d code range).1 = .ok (some fixed) →
        ⟨fixed.text, fixed.version⟩ ∈ texts := fun fixed hfixed =>
      hreceipts _ (by simp [Event.receipts, Event.subject?, hfixed])
    obtain ⟨hanswer, hpaired⟩ := h.applyFix hconsistent hmade
    exact ⟨congrArg Answer.fixed hanswer, hpaired⟩
  case fixAll d =>
    have hmade : ∀ n ≤ maxFixes, ∀ made, (s.fixSome d n).1 = .ok made →
        ⟨made.text, made.version⟩ ∈ texts := by
      intro n hn made hmade
      refine hreceipts _ ?_
      simp only [Event.receipts, Event.subject?, if_true, List.mem_filterMap, List.mem_range]
      exact ⟨n, by omega, by rw [hmade]⟩
    obtain ⟨hanswer, hpaired⟩ := h.fixAll hconsistent hmade
    exact ⟨congrArg Answer.fixedAll hanswer, hpaired⟩
  case didClose d => exact absurd rfl hopen
  case expire d => exact ⟨rfl, h.expire hconsistent⟩

end

/-- The past of the document in the first state accounts for both. -/
theorem after (h : Paired past.received id s t) (hconsistent : (past.after s id e).Consistent) :
    Paired (past.after s id e).received id (s.perform e)
      (if e.touches id then t.perform e else t) := by
  by_cases hclose : ∃ d, e = .didClose d
  · obtain ⟨d, rfl⟩ := hclose
    by_cases hid : d = id
    · subst hid
      simp only [Past.after, Event.touches, Event.subject?, Option.all_some, decide_true, if_true]
      exact h.didClose
    · simp only [Past.after, Event.touches, Event.subject?, Option.all_some, hid, decide_false,
        Bool.false_eq_true, if_false]
      exact h.perform_other rfl (Ne.symm hid)
  · have hopen : ∀ d, e ≠ .didClose d := fun d heq => hclose ⟨d, heq⟩
    rw [Past.after_of_not_closes hopen] at hconsistent ⊢
    have hmore := h.mono fun d hd => List.mem_append_left (e.receipts s id) hd
    cases htouches : e.touches id with
    | true =>
      rw [if_pos rfl]
      exact (hmore.answer_perform hconsistent (fun d hd => List.mem_append_right _ hd) (hopen id)
        htouches).2
    | false =>
      rw [if_neg Bool.false_ne_true]
      cases hsubject : e.subject? with
      | none => simp [Event.touches, hsubject] at htouches
      | some other =>
        have hne : id ≠ other := by
          rintro rfl
          simp [Event.touches, hsubject] at htouches
        exact hmore.perform_other hsubject hne

/-- What is left of a run without the events of other documents comes to a state that is alike for the
document. -/
theorem along (h : Paired past.received id s t) (events : List Event)
    (hconsistent : ∀ first, first <+: events → (past.along id s first).Consistent) :
    Paired (past.along id s events).received id (events.foldl perform s)
      ((events.filter (·.touches id)).foldl perform t) := by
  induction events generalizing past s t with
  | nil => exact h
  | cons e rest ih =>
    have hfirst : (past.after s id e).Consistent := hconsistent [e] (by simp)
    have hrest : ∀ first, first <+: rest →
        ((past.after s id e).along id (s.perform e) first).Consistent := fun first hprefix =>
      hconsistent (e :: first) (List.cons_prefix_cons.mpr ⟨rfl, hprefix⟩)
    have hpaired := ih (h.after hfirst) hrest
    cases htouches : e.touches id with
    | true =>
      rw [htouches, if_pos rfl] at hpaired
      rw [List.filter_cons_of_pos htouches]
      exact hpaired
    | false =>
      rw [htouches, if_neg Bool.false_ne_true] at hpaired
      rw [List.filter_cons_of_neg (by simp [htouches])]
      exact hpaired

end Paired

/-! ## Runs -/

end PolicyAudit
