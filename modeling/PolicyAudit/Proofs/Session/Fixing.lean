-- SUMMARY: A fix fits the stored text, and one that is not to be had changes nothing.
import PolicyAudit.Proofs.Lint.Run
import PolicyAudit.Proofs.Session.Passes

/-! ## Edits inside a text -/

namespace PolicyAudit

open Service

variable {s : Service} {id other text code : String} {version : Nat} {range : Range} {edit : Edit}
variable {stored : Stored}

theorem Edit.Fits.stop_le {chars : List Char} (h : edit.Fits chars) :
    edit.stop ≤ Text.byteLength chars := by
  obtain ⟨⟨before, after⟩, hsplit⟩ := Option.isSome_iff_exists.mp h.stops
  obtain ⟨rfl, hlength⟩ := Text.splitAtByte_eq_some_iff.mp hsplit
  rw [Text.byteLength_append]
  omega

/-! ## Asking for a fix

The finding may come out of the cache and be of another text, but its fix is computed for the text in
store. -/

theorem Service.fits_requestFix (h : (s.requestFix id code range).1 = some edit) :
    ∃ stored, s.document? id = some stored ∧ edit.Fits stored.text.toList := by
  unfold requestFix at h
  split at h
  · cases h
  · next stored hstored =>
    split at h
    · cases h
    · obtain ⟨issue, -, hedit⟩ := Option.bind_eq_some_iff.mp h
      obtain ⟨kind, ctx, -, hctx, hfix⟩ := editFor?_eq_some hedit
      exact ⟨stored, hstored, Validator.fits_fix? (Context.doc_of_ofDocument? hctx) hfix⟩

theorem Service.document?_validateStored (s : Service) (id other : String) :
    (s.validateStored id).document? other = s.document? other := by
  by_cases hid : other = id
  · subst hid
    cases hstored : s.document? other with
    | none => rw [validateStored_of_none hstored, hstored]
    | some stored =>
      rw [validateStored_of_some hstored]
      rcases validate_self_cases s other stored.text stored.version with hspares | ⟨-, -, hrenewed⟩
      · rw [hspares.document, hstored]
      · rw [hrenewed, document?_renewed]
  · exact (spares_validateStored hid s).document

theorem Service.document?_requestFix (s : Service) (id code : String) (range : Range)
    (other : String) : (s.requestFix id code range).2.document? other = s.document? other := by
  rw [snd_requestFix]
  exact document?_validateStored s id other

/-! ## Applying a fix -/

/-- The edit of a fix goes into the stored text, which makes the next version. -/
theorem InStep.applyFix_of_some (h : InStep s id) (hstored : s.document? id = some stored)
    (hroom : stored.version + 1 < 0x10000000000000000)
    (hrequest : (s.requestFix id code range).1 = some edit) :
    ∃ fixed, (s.applyFix id code range).1 = .ok (some fixed) ∧ fixed.edit = edit ∧
      edit.apply stored.text = .ok fixed.text ∧ fixed.version = stored.version + 1 ∧
      (s.applyFix id code range).2.document? id = some ⟨fixed.text, fixed.version⟩ := by
  obtain ⟨d, hd, hfits⟩ := fits_requestFix hrequest
  obtain rfl := Option.some.inj (hstored.symm.trans hd)
  obtain ⟨text, htext⟩ := hfits.apply
  have hversion : nextVersion stored.version = stored.version + 1 := Nat.mod_eq_of_lt hroom
  -- Asking for the fix has validated the stored text, so no newer version is in the cache.
  have hhand := InHand.of_validate h hstored []
  rw [← validateStored_of_some hstored] at hhand
  have happlied := ((hhand.fixApplied text).2 []).stored
  rw [Service.applyFix_of_some hrequest, commit_of_apply hhand.stored htext, hversion]
  exact ⟨_, rfl, rfl, htext, rfl, happlied⟩

/-! ## Runs -/

/-- **Fixes fit.** The edit of a fix lies between boundaries of the text that it was computed for, whatever
the issue, so it can be applied. After any events, asking for a fix leaves all texts in store, and applying
one never fails: where there is an edit, the text with the edit is stored as the next version, and where
there is none, nothing is. -/
theorem Service.applyFix_of_events :
    (∀ text value, (Document.ofText text).value? = some value →
      ∀ (rule : Rule) (issue : Issue) (edit : Edit), rule.fix ⟨.ofText text, value⟩ issue = .ok (some edit) →
        edit.start ≤ edit.stop ∧ edit.stop ≤ Text.byteLength text.toList ∧
        Text.isBoundary text.toList edit.start = true ∧ Text.isBoundary text.toList edit.stop = true ∧
        ∃ edited, edit.apply text = .ok edited) ∧
    ∀ (registry : Registry) (options : LintOptions) (delay capacity : Nat) (events : List Event)
      (id code : String) (range : Range),
      let s := events.foldl perform (.new registry options delay capacity)
      (∀ stored, s.document? id = some stored → stored.version + 1 < 0x10000000000000000) →
      (∀ other, (s.requestFix id code range).2.document? other = s.document? other) ∧
      match (s.requestFix id code range).1 with
      | none => (s.applyFix id code range).1 = .ok none ∧
          ∀ other, (s.applyFix id code range).2.document? other = s.document? other
      | some edit => ∃ stored fixed, s.document? id = some stored ∧
          (s.applyFix id code range).1 = .ok (some fixed) ∧ fixed.edit = edit ∧
          edit.apply stored.text = .ok fixed.text ∧ fixed.version = stored.version + 1 ∧
          (s.applyFix id code range).2.document? id = some ⟨fixed.text, fixed.version⟩ := by
  constructor
  · intro text value _ rule issue edit hfix
    have hfits : edit.Fits text.toList := Rule.fits_fix rfl hfix
    exact ⟨hfits.ordered, hfits.stop_le, hfits.starts, hfits.stops, hfits.apply⟩
  · intro registry options delay capacity events id code range s hroom
    have hstep : InStep s id := (InStep.new registry options delay capacity id).foldl_perform events
    refine ⟨document?_requestFix s id code range, ?_⟩
    cases hrequest : (s.requestFix id code range).1 with
    | none =>
      dsimp only
      rw [applyFix_of_none hrequest]
      exact ⟨rfl, document?_validateStored s id⟩
    | some edit =>
      obtain ⟨stored, hstored, -⟩ := fits_requestFix hrequest
      obtain ⟨fixed, hfixed⟩ := hstep.applyFix_of_some hstored (hroom stored hstored) hrequest
      exact ⟨stored, fixed, hstored, hfixed⟩

/-- The text breaks off, and the data of the issue are those of another text. A tree without a scope is
open, and its fix is applied. -/
theorem Service.applyFix_of_events_of_leaf :
    (∃ value edit edited, (Document.ofText "\x7b\"é\": 1, ").value? = some value ∧
      (Document.ofText "\x7b\"é\": 1, ").isClean = false ∧
      Rule.assignmentScope.fix ⟨.ofText "\x7b\"é\": 1, ", value⟩
        (Rule.assignmentScope.issue Code.missingScope "" .zero (.object [("path", .array [])])) =
          .ok (some edit) ∧
      edit.apply "\x7b\"é\": 1, " = .ok edited) ∧
    let s := [Event.didChange "tree" "\x7b\"nodeName\": \"é\"\x7d" 1].foldl perform
      (.new (.new none) ⟨["schema-validation"], [], false, none⟩ 500 256)
    ∃ edit fixed, (s.requestFix "tree" Code.missingScope ⟨⟨0, 0⟩, ⟨0, 17⟩⟩).1 = some edit ∧
      (s.applyFix "tree" Code.missingScope ⟨⟨0, 0⟩, ⟨0, 17⟩⟩).1 = .ok (some fixed) ∧
      edit.apply "\x7b\"nodeName\": \"é\"\x7d" = .ok fixed.text ∧ fixed.version = 2 := by
  constructor
  · let issue := Rule.assignmentScope.issue Code.missingScope "" .zero (.object [("path", .array [])])
    have hfound : ((Document.ofText "\x7b\"é\": 1, ").value?.bind fun value =>
        (Rule.assignmentScope.fix ⟨.ofText "\x7b\"é\": 1, ", value⟩ issue).toOption.bind id).isSome =
          true := by decide +kernel
    obtain ⟨edit, hedit⟩ := Option.isSome_iff_exists.mp hfound
    obtain ⟨value, hvalue, hedit⟩ := Option.bind_eq_some_iff.mp hedit
    cases hfix : Rule.assignmentScope.fix ⟨.ofText "\x7b\"é\": 1, ", value⟩ issue with
    | error e =>
      rw [hfix] at hedit
      cases hedit
    | ok edit? =>
      rw [hfix] at hedit
      obtain rfl : edit? = some edit := hedit
      obtain ⟨-, -, -, -, edited, hedited⟩ := applyFix_of_events.1 _ value hvalue _ issue edit hfix
      exact ⟨value, edit, edited, hvalue, by decide +kernel, hfix, hedited⟩
  · intro s
    have hevents := applyFix_of_events.2 (.new none) ⟨["schema-validation"], [], false, none⟩ 500 256
      [.didChange "tree" "\x7b\"nodeName\": \"é\"\x7d" 1] "tree" Code.missingScope ⟨⟨0, 0⟩, ⟨0, 17⟩⟩
    have hstored : s.document? "tree" = some ⟨"\x7b\"nodeName\": \"é\"\x7d", 1⟩ := by decide +kernel
    have hfound : (s.requestFix "tree" Code.missingScope ⟨⟨0, 0⟩, ⟨0, 17⟩⟩).1.isSome = true := by
      decide +kernel
    obtain ⟨edit, hedit⟩ := Option.isSome_iff_exists.mp hfound
    obtain ⟨-, happlied⟩ := hevents fun d hd => by
      obtain rfl := Option.some.inj (hstored.symm.trans hd)
      decide
    rw [hedit] at happlied
    obtain ⟨d, fixed, hd, happly, -, htext, hversion, -⟩ := happlied
    obtain rfl := Option.some.inj (hstored.symm.trans hd)
    exact ⟨edit, fixed, hedit, happly, htext, hversion⟩

end PolicyAudit
