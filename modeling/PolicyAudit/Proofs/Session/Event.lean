-- SUMMARY: What can happen to the service, and that it concerns one document at a time.
import PolicyAudit.Proofs.Session.Frame

/-! ## Events -/

namespace PolicyAudit

/-- What can happen to the service. -/
inductive Event where
  | didOpen (id text : String) (version : Nat)
  | validate (id text : String) (version : Nat)
  | didChange (id text : String) (version : Nat)
  | fixApplied (id text : String) (version : Nat)
  | requestFix (id code : String) (range : Range)
  | applyFix (id code : String) (range : Range)
  | fixAll (id : String)
  | didClose (id : String)
  | expire (id : String)
  | sleep (ms : Nat)

/-- The document that an event is about. Only the clock is about none. -/
def Event.subject? : Event → Option String
  | .didOpen id _ _ | .validate id _ _ | .didChange id _ _ | .fixApplied id _ _
  | .requestFix id _ _ | .applyFix id _ _ | .fixAll id | .didClose id | .expire id => some id
  | .sleep _ => none

namespace Service

variable {s s' : Service} {id other text code : String} {version : Nat} {range : Range}

/-- The state after an event. -/
def perform (s : Service) : Event → Service
  | .didOpen id text version => (s.didOpen id text version).2
  | .validate id text version => (s.validate id text version).2
  | .didChange id text version => s.didChange id text version
  | .fixApplied id text version => (s.fixApplied id text version).2
  | .requestFix id code range => (s.requestFix id code range).2
  | .applyFix id code range => (s.applyFix id code range).2
  | .fixAll id => (s.fixAll id).2
  | .didClose id => s.didClose id
  | .expire id => s.expire id
  | .sleep ms => s.sleep ms

/-! ## What the operations come down to

Asking for a fix validates the stored text, applying an edit is validating the new text, and fixing
everything does so again and again. -/

theorem validateStored_of_none (h : s.document? id = none) : s.validateStored id = s := by
  simp only [validateStored, h]

theorem validateStored_of_some {stored : Stored} (h : s.document? id = some stored) :
    s.validateStored id = (s.validate id stored.text stored.version).2 := by
  simp only [validateStored, h]

theorem didChange_of_current (h : s.isCurrent id version = true) (text : String) :
    s.didChange id text version = (s.store id ⟨text, version⟩).postpone id := by
  simp only [didChange, remember, h, if_true]

theorem didChange_of_old (h : s.isCurrent id version = false) (text : String) :
    s.didChange id text version = s := by
  simp only [didChange, remember, h, Bool.false_eq_true, if_false]

theorem document?_didChange (h : s.isCurrent id version = true) (text : String) :
    (s.didChange id text version).document? id = some ⟨text, version⟩ := by
  rw [didChange_of_current h]
  exact document?_store ..

/-- Nothing is left of a document that is closed. -/
theorem none_of_didClose (s : Service) (id : String) :
    (s.didClose id).document? id = none ∧ (s.didClose id).cache.peek? id = none ∧
      (s.didClose id).debouncer.isWaiting id = false ∧ (s.didClose id).board.shown? id = none :=
  ⟨Keyed.find?_erase_self .., ResultCache.peek?_evict_self .., Debouncer.isWaiting_cancel_self ..,
    Board.shown?_clear_self ..⟩

theorem snd_requestFix (s : Service) (id code : String) (range : Range) :
    (s.requestFix id code range).2 = s.validateStored id := by
  unfold requestFix validateStored
  cases s.document? id with
  | none => rfl
  | some stored =>
    dsimp only
    rcases s.validate id stored.text stored.version with ⟨_ | v, s⟩ <;> rfl

theorem editFor?_of_context {options : LintOptions} {kind : Kind} {ctx : Context} {issue : Issue}
    (hctx : Context.ofDocument? (.ofText text) = some ctx) :
    editFor? options text (some kind) issue = (⟨some kind⟩ : Validator).fix? ctx options issue := by
  rw [editFor?, Option.bind_eq_bind, Option.bind_some, hctx]
  rfl

theorem fst_requestFix_of_some {stored : Stored} (h : s.document? id = some stored) (code : String)
    (range : Range) :
    (s.requestFix id code range).1 =
      (s.validate id stored.text stored.version).1.bind fun v => (v.find? code range).bind
        (editFor? (s.validate id stored.text stored.version).2.options stored.text v.kind?) := by
  unfold requestFix
  rw [h]
  dsimp only
  rcases s.validate id stored.text stored.version with ⟨_ | v, s⟩ <;> rfl

theorem commit_of_apply {stored : Stored} {edit : Edit} (hstored : s.document? id = some stored)
    (htext : edit.apply stored.text = .ok text) :
    s.commit id edit =
      (.ok ⟨edit, text, nextVersion stored.version, (s.fixApplied id text (nextVersion stored.version)).1⟩,
        (s.fixApplied id text (nextVersion stored.version)).2) := by
  rw [commit, hstored]
  simp only [htext]

theorem commit_cases (s : Service) (id : String) (edit : Edit) :
    (∃ e, s.commit id edit = (.error e, s)) ∨
      ∃ stored text, s.document? id = some stored ∧ edit.apply stored.text = .ok text ∧
        s.commit id edit =
          (.ok ⟨edit, text, nextVersion stored.version, (s.fixApplied id text (nextVersion stored.version)).1⟩,
            (s.fixApplied id text (nextVersion stored.version)).2) := by
  cases hstored : s.document? id with
  | none => exact .inl ⟨_, by rw [commit, hstored]⟩
  | some stored =>
    cases happly : edit.apply stored.text with
    | error e => exact .inl ⟨e, by simp only [commit, hstored, happly]⟩
    | ok text => exact .inr ⟨stored, text, rfl, happly, commit_of_apply hstored happly⟩

theorem applyFix_of_none (h : (s.requestFix id code range).1 = none) :
    s.applyFix id code range = (.ok none, s.validateStored id) := by
  rw [← snd_requestFix s id code range]
  unfold applyFix
  rcases hrequest : s.requestFix id code range with ⟨_ | edit, t⟩
  · rfl
  · rw [hrequest] at h
    cases h

theorem applyFix_of_some {edit : Edit} (h : (s.requestFix id code range).1 = some edit) :
    s.applyFix id code range =
      (((s.validateStored id).commit id edit).1.map some, ((s.validateStored id).commit id edit).2) := by
  rw [← snd_requestFix s id code range]
  unfold applyFix
  rcases hrequest : s.requestFix id code range with ⟨_ | found, t⟩
  · rw [hrequest] at h
    cases h
  · rw [hrequest] at h
    obtain rfl := Option.some.inj h
    dsimp only
    rcases t.commit id found with ⟨_ | fixed, u⟩ <;> rfl

theorem applyFix_cases (s : Service) (id code : String) (range : Range) :
    s.applyFix id code range = (.ok none, s.validateStored id) ∨
      ∃ edit, s.applyFix id code range =
        (((s.validateStored id).commit id edit).1.map some,
          ((s.validateStored id).commit id edit).2) := by
  cases hrequest : (s.requestFix id code range).1 with
  | none => exact .inl (applyFix_of_none hrequest)
  | some edit => exact .inr ⟨edit, applyFix_of_some hrequest⟩

theorem fixPasses_of_none {done : FixAll}
    (h : done.result?.bind (nextFix? s.options done.text) = none) (passes : Nat) :
    fixPasses id passes done s = (.ok done, s) := by
  cases passes with
  | zero => rfl
  | succ passes => simp only [fixPasses, h]

theorem fixPasses_of_some {done : FixAll} {edit : Edit}
    (h : done.result?.bind (nextFix? s.options done.text) = some (code, edit)) (passes : Nat) :
    fixPasses id (passes + 1) done s =
      match (s.commit id edit).1 with
      | .error e => (.error e, (s.commit id edit).2)
      | .ok fixed => fixPasses id passes
          ⟨done.applied ++ [code], fixed.text, fixed.version, fixed.result?⟩ (s.commit id edit).2 := by
  simp only [fixPasses, h]
  rcases s.commit id edit with ⟨_ | fixed, t⟩ <;> rfl

/-- A pass ends fixing, or fails, or commits one edit and goes on. -/
theorem fixPasses_cases (id : String) (done : FixAll) (s : Service) :
    (∀ n, fixPasses id n done s = (.ok done, s)) ∨
      (∃ e, ∀ n, fixPasses id (n + 1) done s = (.error e, s)) ∨
      ∃ code stored text, s.document? id = some stored ∧
        ∀ n, fixPasses id (n + 1) done s = fixPasses id n
          ⟨done.applied ++ [code], text, nextVersion stored.version,
            (s.fixApplied id text (nextVersion stored.version)).1⟩
          (s.fixApplied id text (nextVersion stored.version)).2 := by
  cases hnext : done.result?.bind (nextFix? s.options done.text) with
  | none => exact .inl (fixPasses_of_none hnext)
  | some found =>
    obtain ⟨code, edit⟩ := found
    rcases commit_cases s id edit with ⟨e, hcommit⟩ | ⟨stored, text, hstored, -, hcommit⟩
    · refine .inr (.inl ⟨e, fun n => ?_⟩)
      rw [fixPasses_of_some hnext, hcommit]
    · refine .inr (.inr ⟨code, stored, text, hstored, fun n => ?_⟩)
      rw [fixPasses_of_some hnext, hcommit]

/-! ## The other documents -/

theorem spares_cancel (hne : other ≠ id) (s : Service) : Spares other s (s.cancel id) :=
  ⟨.refl _, rfl, rfl, rfl, Debouncer.isWaiting_cancel_of_ne hne, fun hr => hr⟩

theorem spares_tick (s : Service) (ms : Nat) :
    Spares id s { s with debouncer := s.debouncer.tick ms } :=
  ⟨.refl _, rfl, rfl, rfl, rfl, fun hr => hr⟩

theorem spares_validateStored (hne : other ≠ id) (s : Service) :
    Spares other s (s.validateStored id) := by
  cases hstored : s.document? id with
  | none => rw [validateStored_of_none hstored]; exact .refl other s
  | some stored => rw [validateStored_of_some hstored]; exact spares_validate hne

theorem spares_fixApplied (hne : other ≠ id) (s : Service) (text : String) (version : Nat) :
    Spares other s (s.fixApplied id text version).2 :=
  (spares_cancel hne s).trans (spares_validate hne)

theorem spares_postpone (hne : other ≠ id) (s : Service) : Spares other s (s.postpone id) :=
  ⟨.refl _, rfl, rfl, rfl, Debouncer.isWaiting_schedule_of_ne hne (), fun hr => hr⟩

theorem spares_didChange (hne : other ≠ id) (s : Service) (text : String) (version : Nat) :
    Spares other s (s.didChange id text version) := by
  cases hcurrent : s.isCurrent id version with
  | true =>
    rw [didChange_of_current hcurrent]
    exact (spares_store hne s ⟨text, version⟩).trans (spares_postpone hne _)
  | false =>
    rw [didChange_of_old hcurrent]
    exact .refl other s

theorem spares_commit (hne : other ≠ id) (s : Service) (edit : Edit) :
    Spares other s (s.commit id edit).2 := by
  rcases commit_cases s id edit with ⟨e, hcommit⟩ | ⟨stored, text, -, -, hcommit⟩
  · rw [hcommit]
    exact .refl other s
  · rw [hcommit]
    exact spares_fixApplied hne s text _

theorem spares_applyFix (hne : other ≠ id) (s : Service) (code : String) (range : Range) :
    Spares other s (s.applyFix id code range).2 := by
  have hstored := spares_validateStored hne s
  rcases applyFix_cases s id code range with happly | ⟨edit, happly⟩
  · rw [happly]
    exact hstored
  · rw [happly]
    exact hstored.trans (spares_commit hne _ edit)

theorem spares_fixPasses (hne : other ≠ id) (passes : Nat) (done : FixAll) (s : Service) :
    Spares other s (fixPasses id passes done s).2 := by
  induction passes generalizing done s with
  | zero => exact .refl other s
  | succ n ih =>
    rcases fixPasses_cases id done s with hend | ⟨e, herror⟩ | ⟨code, stored, text, -, hgo⟩
    · rw [hend]
      exact .refl other s
    · rw [herror]
      exact .refl other s
    · rw [hgo]
      exact (spares_fixApplied hne s text _).trans (ih ..)

theorem spares_fixAll (hne : other ≠ id) (s : Service) : Spares other s (s.fixAll id).2 := by
  unfold fixAll fixSome
  cases s.document? id with
  | none => exact .refl other s
  | some stored => exact (spares_validate hne).trans (spares_fixPasses hne ..)

theorem spares_didClose (hne : other ≠ id) (s : Service) : Spares other s (s.didClose id) where
  registry := .refl _
  options := rfl
  document := Keyed.find?_erase_of_ne (Ne.symm hne) _
  shown := Board.shown?_clear_of_ne hne
  waiting := Debouncer.isWaiting_cancel_of_ne hne
  cached := fun hr => by rwa [didClose, ResultCache.peek?_evict_of_ne hne] at hr

theorem spares_expire (hne : other ≠ id) (s : Service) : Spares other s (s.expire id) := by
  unfold expire
  split
  · exact (spares_cancel hne s).trans (spares_validateStored hne _)
  · exact .refl other s

/-- An event that is about one document spares all the others. -/
theorem spares_perform {e : Event} (hid : e.subject? = some id) (hne : other ≠ id) :
    Spares other s (s.perform e) := by
  cases e <;> simp only [Event.subject?, Option.some.injEq, reduceCtorEq] at hid
  all_goals subst hid
  case didOpen => exact spares_validate hne
  case validate => exact spares_validate hne
  case didChange => exact spares_didChange hne ..
  case fixApplied => exact spares_fixApplied hne ..
  case requestFix => rw [perform, snd_requestFix]; exact spares_validateStored hne s
  case applyFix => exact spares_applyFix hne ..
  case fixAll => exact spares_fixAll hne s
  case didClose => exact spares_didClose hne s
  case expire => exact spares_expire hne s

end Service

end PolicyAudit
