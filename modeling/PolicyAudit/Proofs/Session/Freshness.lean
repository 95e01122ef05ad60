-- SUMMARY: What is shown for a document at rest is the outcome of validating its stored text.
import PolicyAudit.Proofs.Session.Past

/-! ## Validating a document

Validating a version that is not out of date leaves the document checked: its text is in store, and
what is kept and shown is its validation. This holds of a version whose validation is in the cache,
as no version has two texts. -/

namespace PolicyAudit.Past

open Service

variable {past : Past} {s s' : Service} {id text code : String} {version : Nat} {stored : Stored}
variable {range : Range}

/-- The document has been validated since its stored text came. -/
def Settles (past : Past) (s : Service) (id : String) : Prop :=
  ∃ stored, s.document? id = some stored ∧ (past.check stored).Matches s id

theorem Settles.of_spares (h : past.Settles s id) (hspares : Spares id s s') :
    past.Settles s' id := by
  obtain ⟨stored, hstored, hmatches⟩ := h
  exact ⟨stored, hspares.document.trans hstored, hmatches.of_spares hspares⟩

theorem settles_validate (h : past.Matches s id) (hconsistent : past.Consistent)
    (hmem : ⟨text, version⟩ ∈ past.received) (hcurrent : s.isCurrent id version = true) :
    past.Settles (s.validate id text version).2 id := by
  by_cases hhit : ∃ v, s.cache.peek? id = some v ∧ v.version = version
  · -- The version in the cache is the one that was checked last, so this text is in store.
    obtain ⟨v, hcached, hversion⟩ := hhit
    obtain ⟨c, hchecked, hfresh⟩ := h.cached hcached
    obtain ⟨hreceived, d, hd, hle⟩ := h.checked hchecked
    have hc : c.version = version := (of_fresh?_eq_some hfresh).2.symm.trans hversion
    have hdversion : d.version = version := by
      have := version_le_of_isCurrent hd hcurrent
      omega
    have hdc : d = c := hconsistent d (h.stored hd) c hreceived (hdversion.trans hc.symm)
    have hmatches : (past.check d).Matches s id := by
      constructor
      case stored => exact h.stored
      case checked =>
        rintro _ ⟨⟩
        exact ⟨h.stored hd, d, hd, Nat.le_refl _⟩
      case settled =>
        rintro _ ⟨⟩
        exact h.settled (hdc ▸ hchecked)
      case cached =>
        intro r hr
        exact ⟨d, rfl, by rw [hdc, hfresh, ← hcached, hr]⟩
      case shown => rw [h.shown, hchecked, hdc]; rfl
      case waiting => exact fun _ => ⟨d, hd⟩
      case rest => exact fun _ _ => hd.symm
    have hspares := spares_validate_self text (.inr ⟨v, hcached, hversion⟩)
    exact Settles.of_spares ⟨d, hd, hmatches⟩ hspares
  · have hmiss : ∀ v, s.cache.peek? id = some v → v.version < version := by
      intro v hv
      obtain ⟨c, hchecked, hfresh⟩ := h.cached hv
      obtain ⟨-, d, hd, hle⟩ := h.checked hchecked
      have hvc := (of_fresh?_eq_some hfresh).2
      have hdle := version_le_of_isCurrent hd hcurrent
      have hne : v.version ≠ version := fun heq => hhit ⟨v, hv, heq⟩
      omega
    have hrenews := renews_validate text hcurrent hmiss
    exact ⟨_, hrenews.document, matches_of_renews hrenews hmem⟩

theorem settles_validateStored (h : past.Matches s id) (hconsistent : past.Consistent)
    (hstored : s.document? id = some stored) : past.Settles (s.validateStored id) id := by
  rw [validateStored_of_some hstored]
  exact settles_validate h hconsistent (h.stored hstored)
    (isCurrent_of_le hstored (Nat.le_refl _))

theorem settles_fixApplied (h : past.Matches s id) (hconsistent : past.Consistent)
    (hmem : ⟨text, version⟩ ∈ past.received) (hcurrent : s.isCurrent id version = true) :
    past.Settles (s.fixApplied id text version).2 id := by
  have hsettles := settles_validate h.cancel hconsistent hmem hcurrent
  exact hsettles

theorem Settles.cancel (h : past.Settles s id) : past.Settles (s.cancel id) id := by
  obtain ⟨stored, hstored, hmatches⟩ := h
  have hcancel := hmatches.cancel
  exact ⟨stored, hstored, hcancel.stored, hcancel.checked, hcancel.settled, hcancel.cached,
    hcancel.shown, hcancel.waiting, fun _ _ => hstored.symm⟩

/-- A fix makes the next version. Where the count starts again, that version is out of date, and the
text in store is still the one that was checked. -/
theorem Settles.fixApplied (h : past.Settles s id) (hconsistent : past.Consistent)
    (hmem : ⟨text, version⟩ ∈ past.received) : past.Settles (s.fixApplied id text version).2 id := by
  cases hcurrent : s.isCurrent id version with
  | true =>
    obtain ⟨d, -, hmatches⟩ := h
    have hsettles := settles_fixApplied hmatches hconsistent hmem hcurrent
    exact hsettles
  | false =>
    have hspares : Spares id (s.cancel id) (s.fixApplied id text version).2 :=
      spares_validate_self text (.inl hcurrent)
    exact h.cancel.of_spares hspares

theorem settles_applyFix (h : past.Matches s id) (hconsistent : past.Consistent)
    (hstored : s.document? id = some stored)
    (hmem : ∀ fixed, (s.applyFix id code range).1 = .ok (some fixed) →
      ⟨fixed.text, fixed.version⟩ ∈ past.received) :
    past.Settles (s.applyFix id code range).2 id := by
  have hsettles := settles_validateStored h hconsistent hstored
  rcases applyFix_cases s id code range with happly | ⟨edit, happly⟩
  · rw [happly]
    exact hsettles
  · rw [happly] at hmem ⊢
    rcases commit_cases (s.validateStored id) id edit with
      ⟨e, hcommit⟩ | ⟨d, text, hd, -, hcommit⟩
    · rw [hcommit]
      exact hsettles
    · rw [hcommit] at hmem ⊢
      exact hsettles.fixApplied hconsistent (hmem _ rfl)

theorem Settles.fixPasses (passes : Nat) {done : FixAll} (h : past.Settles s id)
    (hconsistent : past.Consistent)
    (hmem : ∀ n ≤ passes, ∀ made, (Service.fixPasses id n done s).1 = .ok made →
      ⟨made.text, made.version⟩ ∈ past.received) :
    past.Settles (Service.fixPasses id passes done s).2 id := by
  induction passes generalizing done s with
  | zero => exact h
  | succ n ih =>
    rcases fixPasses_cases id done s with hend | ⟨e, herror⟩ | ⟨code, stored, text, hstored, hgo⟩
    · rw [hend]
      exact h
    · rw [herror]
      exact h
    · rw [hgo]
      have hfirst := hmem 1 (by omega)
      rw [hgo 0] at hfirst
      refine ih (h.fixApplied hconsistent (hfirst _ rfl)) fun m hm made hmade => ?_
      refine hmem (m + 1) (by omega) made ?_
      rw [hgo]
      exact hmade

theorem settles_fixAll (h : past.Matches s id) (hconsistent : past.Consistent)
    (hstored : s.document? id = some stored)
    (hmem : ∀ n ≤ maxFixes, ∀ made, (s.fixSome id n).1 = .ok made →
      ⟨made.text, made.version⟩ ∈ past.received) :
    past.Settles (s.fixAll id).2 id := by
  have hsettles := settles_validateStored h hconsistent hstored
  rw [validateStored_of_some hstored] at hsettles
  simp only [fixAll, fixSome, hstored] at hmem ⊢
  exact hsettles.fixPasses maxFixes hconsistent hmem

theorem settles_expire (h : past.Matches s id) (hconsistent : past.Consistent)
    (hwaiting : s.debouncer.isWaiting id = true) : past.Settles (s.expire id) id := by
  obtain ⟨d, hd⟩ := h.waiting hwaiting
  rw [expire, if_pos hwaiting]
  have hsettles := settles_validateStored h.cancel hconsistent hd
  exact hsettles

theorem Settles.expire (h : past.Settles s id) (hconsistent : past.Consistent) (other : String) :
    past.Settles (s.expire other) id := by
  by_cases hid : id = other
  · subst hid
    cases hwaiting : s.debouncer.isWaiting id with
    | true =>
      obtain ⟨d, -, hmatches⟩ := h
      have hsettles := settles_expire hmatches hconsistent hwaiting
      exact hsettles
    | false =>
      rw [Service.expire, hwaiting]
      exact h
  · exact h.of_spares (spares_expire hid s)

theorem Settles.foldl_expire (h : past.Settles s id) (hconsistent : past.Consistent)
    (tasks : List (DelayedTask Unit)) :
    past.Settles (tasks.foldl (fun s task => s.expire task.key) s) id := by
  induction tasks generalizing s with
  | nil => exact h
  | cons task rest ih => exact ih (h.expire hconsistent task.key)

theorem settles_foldl_expire (h : past.Matches s id) (hconsistent : past.Consistent)
    (hwaiting : s.debouncer.isWaiting id = true) {tasks : List (DelayedTask Unit)}
    (hdue : tasks.any (·.key = id) = true) :
    past.Settles (tasks.foldl (fun s task => s.expire task.key) s) id := by
  induction tasks generalizing s with
  | nil => cases hdue
  | cons task rest ih =>
    by_cases hkey : id = task.key
    · rw [List.foldl_cons, ← hkey]
      exact (settles_expire h hconsistent hwaiting).foldl_expire hconsistent rest
    · have hspares := spares_expire hkey s
      have hrest : rest.any (·.key = id) = true := by
        simpa [Ne.symm hkey] using hdue
      exact ih (h.of_spares hspares) (hspares.waiting.trans hwaiting) hrest

theorem spares_foldl_expire {tasks : List (DelayedTask Unit)}
    (hdue : tasks.any (·.key = id) = false) (s : Service) :
    Spares id s (tasks.foldl (fun s task => s.expire task.key) s) := by
  induction tasks generalizing s with
  | nil => exact .refl id s
  | cons task rest ih =>
    simp only [List.any_cons, Bool.or_eq_false_iff, decide_eq_false_iff_not] at hdue
    exact (spares_expire (Ne.symm hdue.1) s).trans (ih hdue.2 _)

/-! ## One event -/

variable {e : Event}

theorem mem_receive (h : stored ∈ e.receipts s id) :
    stored ∈ (past.receive (e.receipts s id)).received := List.mem_append_right _ h

/-- An event that checks the document leaves it settled. -/
theorem settles_perform (h : past.Matches s id)
    (hconsistent : (past.receive (e.receipts s id)).Consistent)
    (hchecks : e.checks s id = true) :
    (past.receive (e.receipts s id)).Settles (s.perform e) id := by
  have hmatches := h.receive (e.receipts s id)
  cases e <;> simp only [Event.checks, Bool.and_eq_true, decide_eq_true_eq, Bool.false_eq_true,
    Option.isSome_iff_exists] at hchecks
  case didOpen d text version =>
    obtain ⟨rfl, hcurrent⟩ := hchecks
    refine settles_validate hmatches hconsistent (mem_receive ?_) hcurrent
    simp [Event.receipts, Event.subject?]
  case validate d text version =>
    obtain ⟨rfl, hcurrent⟩ := hchecks
    refine settles_validate hmatches hconsistent (mem_receive ?_) hcurrent
    simp [Event.receipts, Event.subject?]
  case fixApplied d text version =>
    obtain ⟨rfl, hcurrent⟩ := hchecks
    refine settles_fixApplied hmatches hconsistent (mem_receive ?_) hcurrent
    simp [Event.receipts, Event.subject?]
  case requestFix d code range =>
    obtain ⟨rfl, stored, hstored⟩ := hchecks
    rw [perform, snd_requestFix]
    exact settles_validateStored hmatches hconsistent hstored
  case applyFix d code range =>
    obtain ⟨rfl, stored, hstored⟩ := hchecks
    refine settles_applyFix hmatches hconsistent hstored fun fixed hfixed => mem_receive ?_
    simp [Event.receipts, Event.subject?, hfixed]
  case fixAll d =>
    obtain ⟨rfl, stored, hstored⟩ := hchecks
    refine settles_fixAll hmatches hconsistent hstored fun n hn made hmade => mem_receive ?_
    simp only [Event.receipts, Event.subject?, if_true, List.mem_filterMap, List.mem_range]
    exact ⟨n, by omega, by rw [hmade]⟩
  case expire d =>
    obtain ⟨rfl, hwaiting⟩ := hchecks
    exact settles_expire hmatches hconsistent hwaiting
  case sleep ms =>
    have hwaiting : s.debouncer.isWaiting id = true := Debouncer.isWaiting_of_any_due hchecks
    exact settles_foldl_expire (hmatches.of_spares (spares_tick s ms)) hconsistent hwaiting hchecks

/-- An event that does not check the document leaves what is known of it as it was. -/
theorem spares_perform_of_not_checks (hchecks : e.checks s id = false)
    (hclose : ∀ d, e ≠ .didClose d) (hchange : ∀ text version, e ≠ .didChange id text version)
    (hfix : ∀ text version, e ≠ .fixApplied id text version) : Spares id s (s.perform e) := by
  by_cases hid : ∃ d, e.subject? = some d ∧ id ≠ d
  · obtain ⟨d, hsubject, hne⟩ := hid
    exact spares_perform hsubject hne
  · cases e <;> simp only [Event.subject?, Option.some.injEq, exists_eq_left', ne_eq,
      Decidable.not_not, reduceCtorEq, false_and, exists_false, not_false_eq_true] at hid
    case didClose d => exact absurd rfl (hclose d)
    case didChange d text version => exact absurd (hid ▸ rfl) (hchange text version)
    case fixApplied d text version => exact absurd (hid ▸ rfl) (hfix text version)
    case sleep ms => exact (spares_tick s ms).trans (spares_foldl_expire hchecks _)
    all_goals
      subst hid
      simp only [Event.checks, decide_true, Bool.true_and, Option.isSome_eq_false_iff,
        Option.isNone_iff_eq_none] at hchecks
    case didOpen text version => exact spares_validate_self text (.inl hchecks)
    case validate text version => exact spares_validate_self text (.inl hchecks)
    case requestFix code range =>
      rw [perform, snd_requestFix, validateStored_of_none hchecks]
      exact .refl id s
    case applyFix code range =>
      rw [perform]
      rcases applyFix_cases s id code range with happly | ⟨edit, happly⟩
      · rw [happly, validateStored_of_none hchecks]
        exact .refl id s
      · rw [happly, validateStored_of_none hchecks]
        rcases commit_cases s id edit with ⟨e, hcommit⟩ | ⟨stored, text, hstored, -⟩
        · rw [hcommit]
          exact .refl id s
        · cases hchecks.symm.trans hstored
    case fixAll =>
      simp only [perform, fixAll, fixSome, hchecks]
      exact .refl id s
    case expire =>
      rw [perform, expire, hchecks]
      exact .refl id s

/-- A change that is not out of date is stored, and the document waits to be checked. -/
theorem matches_didChange (h : past.Matches s id) (hmem : ⟨text, version⟩ ∈ past.received) :
    past.Matches (s.didChange id text version) id := by
  cases hcurrent : s.isCurrent id version with
  | false =>
    rw [didChange_of_old hcurrent]
    exact h
  | true =>
    rw [didChange_of_current hcurrent]
    have hdocument : ((s.store id ⟨text, version⟩).postpone id).document? id =
        some ⟨text, version⟩ := Keyed.find?_insert_self ..
    have hwaiting : ((s.store id ⟨text, version⟩).postpone id).debouncer.isWaiting id = true :=
      Debouncer.isWaiting_schedule_self ..
    constructor
    case stored =>
      intro d hd
      obtain rfl := Option.some.inj (hdocument.symm.trans hd)
      exact hmem
    case checked =>
      intro c hc
      obtain ⟨hreceived, d, hd, hle⟩ := h.checked hc
      exact ⟨hreceived, _, hdocument, Nat.le_trans hle (version_le_of_isCurrent hd hcurrent)⟩
    case settled => exact h.settled
    case cached => exact h.cached
    case shown => exact h.shown
    case waiting => exact fun _ => ⟨_, hdocument⟩
    case rest =>
      intro hrest
      rw [hwaiting] at hrest
      cases hrest

/-- An edit for a version out of date does away with the task of the document, and that is all. -/
theorem matches_fixApplied_of_old (h : past.Matches s id) (hold : s.isCurrent id version = false) :
    Matches { past with dropped := past.dropped || s.debouncer.isWaiting id }
      (s.fixApplied id text version).2 id :=
  h.cancel.of_spares (spares_validate_self (s := s.cancel id) text (.inl hold))

theorem matches_didClose (s : Service) (id : String) : clear.Matches (s.didClose id) id := by
  have hdocument : (s.didClose id).document? id = none := Keyed.find?_erase_self ..
  constructor
  case stored => intro d hd; cases hdocument.symm.trans hd
  case checked => nofun
  case settled => nofun
  case cached => intro v hv; cases (ResultCache.peek?_evict_self s.cache id).symm.trans hv
  case shown => exact Board.shown?_clear_self ..
  case waiting =>
    intro hwaiting
    cases (Debouncer.isWaiting_cancel_self s.debouncer id).symm.trans hwaiting
  case rest => exact fun _ _ => hdocument.symm

theorem after_of_not_closes (hclose : ∀ d, e ≠ .didClose d) :
    past.after s id e =
      { received := past.received ++ e.receipts s id
        checked? := if e.checks s id then (s.perform e).document? id else past.checked?
        dropped := !e.checks s id && (past.dropped || e.drops s id) } := by
  cases e
  case didClose d => exact absurd rfl (hclose d)
  all_goals rfl

/-- What the state knows of a document goes on to be what its past says. -/
theorem Matches.after (h : past.Matches s id) (e : Event)
    (hconsistent : (past.after s id e).Consistent) :
    (past.after s id e).Matches (s.perform e) id := by
  by_cases hclose : ∃ d, e = .didClose d
  · obtain ⟨d, rfl⟩ := hclose
    simp only [Past.after]
    split
    · next hid =>
      subst hid
      exact matches_didClose s d
    · next hne => exact h.of_spares (spares_didClose (Ne.symm hne) s)
  · have hopen : ∀ d, e ≠ .didClose d := fun d heq => hclose ⟨d, heq⟩
    have hmatches := h.receive (e.receipts s id)
    rw [after_of_not_closes hopen] at hconsistent ⊢
    cases hchecks : e.checks s id with
    | true =>
      obtain ⟨stored, hstored, hsettled⟩ := settles_perform h hconsistent hchecks
      simp only [if_true, hstored, Bool.not_true, Bool.false_and]
      exact hsettled
    | false =>
      simp only [Bool.false_eq_true, if_false, Bool.not_false, Bool.true_and]
      by_cases hfix : ∃ text version, e = .fixApplied id text version
      · obtain ⟨text, version, rfl⟩ := hfix
        have hold : s.isCurrent id version = false := by
          simpa [Event.checks] using hchecks
        simp only [Event.drops, hold, decide_true, Bool.true_and, Bool.not_false, Bool.and_true]
        exact matches_fixApplied_of_old hmatches hold
      · have hdrops : e.drops s id = false := by
          cases e <;> simp only [Event.drops, Bool.and_eq_false_iff, decide_eq_false_iff_not]
          case fixApplied d text version =>
            exact .inl (.inl fun hid => hfix ⟨text, version, hid ▸ rfl⟩)
        rw [hdrops, Bool.or_false]
        by_cases hchange : ∃ text version, e = .didChange id text version
        · obtain ⟨text, version, rfl⟩ := hchange
          refine matches_didChange hmatches (mem_receive ?_)
          simp [Event.receipts, Event.subject?]
        · exact hmatches.of_spares (spares_perform_of_not_checks hchecks hopen
            (fun text version heq => hchange ⟨text, version, heq⟩)
            (fun text version heq => hfix ⟨text, version, heq⟩))

/-! ## Runs

Between two closes, a document at rest is shown what its stored text calls for. There is one
exception: an edit for a version out of date does away with the task of the document, although nothing
of the edit is stored. What is shown is then still that of the text checked before. -/

theorem matches_of_run {registry : Registry} {options : LintOptions} {delay capacity : Nat}
    (h : Run (.new registry options delay capacity) id s past) : past.Matches s id := by
  induction h with
  | start => exact matches_new registry options delay capacity id
  | step e hrun hconsistent ih => exact ih.after e hconsistent

theorem shown?_at_rest {registry : Registry} {options : LintOptions} {delay capacity : Nat}
    (hrun : Run (.new registry options delay capacity) id s past)
    (hstored : s.document? id = some stored) (hrest : s.debouncer.isWaiting id = false) :
    s.board.shown? id = past.checked?.bind (s.freshly? id) ∧
      (past.dropped = false →
        past.checked? = some stored ∧ s.board.shown? id = s.freshly? id stored) ∧
      (s.freshly? id stored = none ↔
        (Document.ofText stored.text).isClean = false ∨
          Validator.select? (.ofText stored.text) = none) := by
  have hmatches := matches_of_run hrun
  refine ⟨hmatches.shown, fun hdropped => ?_, ?_⟩
  · have hchecked : past.checked? = some stored := (hmatches.rest hrest hdropped).trans hstored
    refine ⟨hchecked, ?_⟩
    rw [hmatches.shown, hchecked]
    rfl
  · rw [freshly?, Option.map_eq_none_iff]
    exact fresh?_eq_none_iff

theorem shown?_at_rest_of_edits :
    (∃ s past stored, Run (.new (.new none) .default 500 256) "p" s past ∧
      s.document? "p" = some stored ∧ s.debouncer.isWaiting "p" = false ∧
      past.dropped = false ∧ s.board.shown? "p" = s.freshly? "p" stored) ∧
    ∃ s past stored, Run (.new (.new none) .default 500 256) "p" s past ∧
      s.document? "p" = some stored ∧ s.debouncer.isWaiting "p" = false ∧
      past.dropped = true ∧ s.board.shown? "p" = none ∧ s.freshly? "p" stored ≠ none := by
  have hstart : Run (.new (.new none) .default 500 256) "p" _ _ := .start
  constructor
  · have hopen := hstart.step (.didOpen "p" "" 1) (by decide +kernel)
    obtain ⟨-, hfresh, -⟩ := shown?_at_rest hopen (by rfl) (by decide +kernel)
    exact ⟨_, _, ⟨"", 1⟩, hopen, by decide +kernel, by decide +kernel, by decide +kernel,
      (hfresh (by decide +kernel)).2⟩
  · have hchange := hstart.step (.didChange "p" "\x7b\"nodeName\":1\x7d" 3) (by decide +kernel)
    have hedit := hchange.step (.fixApplied "p" "" 2) (by decide +kernel)
    obtain ⟨hshown, -, hnone⟩ := shown?_at_rest hedit (by rfl) (by decide +kernel)
    refine ⟨_, _, ⟨"\x7b\"nodeName\":1\x7d", 3⟩, hedit, by decide +kernel, by decide +kernel,
      by decide +kernel, hshown, ?_⟩
    rw [Ne, hnone]
    decide +kernel

end PolicyAudit.Past
