-- SUMMARY: Fixing everything goes by single fixes, keeps in step with the store, and stops where no fix is left.
import PolicyAudit.Proofs.Lint.Fitting
import PolicyAudit.Proofs.Session.Lockstep

/-! ## Validating again

A version that has just been validated is validated to the same outcome, whether from the cache or
afresh. -/

namespace PolicyAudit

open Service

variable {s t : Service} {id text : String} {version : Nat}

theorem Service.fresh?_renewed (s : Service) (id text : String) (version : Nat) :
    (s.renewed id text version).fresh? id ⟨text, version⟩ = s.fresh? id ⟨text, version⟩ := by
  have hregistry : (s.renewed id text version).registry = (s.validated id text version).registry :=
    registry_adopt
  have hoptions : (s.renewed id text version).options = s.options := options_adopt
  simp only [fresh?, hregistry, hoptions]
  exact (settles_validateText s.options id text version).same (.refl _)

theorem Service.Renews.fst_validate (h : Renews id ⟨text, version⟩ s t) :
    (t.validate id text version).1 = t.fresh? id ⟨text, version⟩ := by
  by_cases hhit : ∃ r, t.cache.peek? id = some r ∧ r.version = version
  · obtain ⟨r, hcached, hversion⟩ := hhit
    rw [validate_of_hit hcached hversion, h.cached hcached]
  · rw [validate_of_miss fun r hr hversion => hhit ⟨r, hr, hversion⟩]

/-- What is validated afresh. -/
theorem InStep.validate_of_miss (h : InStep s id) (hcurrent : s.isCurrent id version = true)
    (hmiss : ∀ r, s.cache.peek? id = some r → r.version ≠ version) (text : String) :
    (s.validate id text version).1 = s.fresh? id ⟨text, version⟩ ∧
      (s.validate id text version).2.document? id = some ⟨text, version⟩ ∧
      ((s.validate id text version).2.validate id text version).1 = s.fresh? id ⟨text, version⟩ := by
  have hrenews := renews_validate text hcurrent fun r hr => h.lt_of_miss hcurrent hr (hmiss r hr)
  refine ⟨by rw [Service.validate_of_miss hmiss], hrenews.document, ?_⟩
  rw [hrenews.fst_validate, Service.validate_of_miss hmiss, if_pos hcurrent]
  exact fresh?_renewed s id text version

theorem InStep.validate_again (h : InStep s id) (hcurrent : s.isCurrent id version = true)
    (text : String) :
    ((s.validate id text version).2.validate id text version).1 = (s.validate id text version).1 := by
  by_cases hhit : ∃ r, s.cache.peek? id = some r ∧ r.version = version
  · obtain ⟨r, hcached, hversion⟩ := hhit
    rw [validate_of_hit hcached hversion]
    have hagain : ({ s with cache := (s.cache.get id version).2 } : Service).cache.peek? id = some r := by
      rw [ResultCache.peek?_get, hcached]
    rw [validate_of_hit hagain hversion]
  · obtain ⟨hfirst, -, hsecond⟩ :=
      h.validate_of_miss hcurrent (fun r hr hversion => hhit ⟨r, hr, hversion⟩) text
    rw [hfirst, hsecond]

/-! ## Passes

A pass takes the fix of one finding of the validation at hand. -/

/-- An edit is the fix of a finding of a validation. -/
def Validation.Offers (v : Validation) (options : LintOptions) (text code : String) (edit : Edit) :
    Prop :=
  ∃ issue ∈ v.issues, issue.code = code ∧ ∃ kind ctx, v.kind? = some kind ∧
    Context.ofDocument? (.ofText text) = some ctx ∧
    (⟨some kind⟩ : Validator).fix? ctx options issue = some edit

/-- One pass of fixing a document. The edit makes the next version, which is validated at once. -/
inductive Pass (id : String) : Service × FixAll → Service × FixAll → Prop where
  | fix {s t : Service} {done : FixAll} {v : Validation} {code text : String} {edit : Edit}
      {result? : Option Validation} :
      done.result? = some v → v.Offers s.options done.text code edit →
      edit.apply done.text = .ok text →
      (validateText s.registry s.options id text (done.version + 1)).1 = result? →
      s.fixApplied id text (done.version + 1) = (result?, t) →
      Pass id (s, done) (t, ⟨done.applied ++ [code], text, done.version + 1, result?⟩)

/-- A number of passes in sequence. -/
inductive Passes (id : String) : Nat → Service × FixAll → Service × FixAll → Prop where
  | none (x : Service × FixAll) : Passes id 0 x x
  | step {n : Nat} {x y z : Service × FixAll} : Pass id x y → Passes id n y z → Passes id (n + 1) x z

/-- What fixing has at hand is what the service has: the text in store and its validation. -/
structure InHand (id : String) (s : Service) (done : FixAll) : Prop where
  inStep : InStep s id
  stored : s.document? id = some ⟨done.text, done.version⟩
  current : (s.validate id done.text done.version).1 = done.result?

variable {done next made : FixAll} {n : Nat} {options : LintOptions} {issue : Issue} {edit : Edit}
variable {code : String} {v : Validation}

theorem editFor?_eq_some {kind? : Option Kind} (h : editFor? options text kind? issue = some edit) :
    ∃ kind ctx, kind? = some kind ∧ Context.ofDocument? (.ofText text) = some ctx ∧
      (⟨some kind⟩ : Validator).fix? ctx options issue = some edit := by
  obtain ⟨kind, hkind, h⟩ := Option.bind_eq_some_iff.mp h
  obtain ⟨ctx, hctx, hfix⟩ := Option.bind_eq_some_iff.mp h
  exact ⟨kind, ctx, hkind, hctx, hfix⟩

/-- An issue that cannot be fixed has no edit. -/
theorem editFor?_of_not_canFix (h : (⟨v.kind?⟩ : Validator).canFix issue = false) :
    editFor? options text v.kind? issue = none := by
  rw [Option.eq_none_iff_forall_ne_some]
  intro edit hedit
  obtain ⟨kind, ctx, hkind, -, hfix⟩ := editFor?_eq_some hedit
  rw [hkind] at h
  unfold Validator.fix? at hfix
  unfold Validator.canFix at h
  split at hfix
  · cases hfix
  · next rule hrule =>
    rw [hrule] at h
    rw [if_neg fun hand => Bool.eq_false_iff.mp h hand.1] at hfix
    cases hfix

theorem offers_of_nextFix? (h : nextFix? options text v = some (code, edit)) :
    v.Offers options text code edit := by
  obtain ⟨⟨issue, canFix⟩, hmem, hfix⟩ := List.exists_of_findSome?_eq_some h
  obtain ⟨_, hissue, hpair⟩ := List.mem_map.mp hmem
  obtain ⟨rfl, rfl⟩ := Prod.mk.inj hpair
  dsimp only at hfix
  split at hfix
  · obtain ⟨edit, hedit, hpair⟩ := Option.map_eq_some_iff.mp hfix
    obtain ⟨rfl, rfl⟩ := Prod.mk.inj hpair
    exact ⟨_, hissue, rfl, editFor?_eq_some hedit⟩
  · cases hfix

theorem nextFix?_eq_none (h : nextFix? options text v = none) :
    ∀ issue ∈ v.issues, editFor? options text v.kind? issue = none := by
  intro issue hissue
  cases hcan : (⟨v.kind?⟩ : Validator).canFix issue with
  | false => exact editFor?_of_not_canFix hcan
  | true =>
    have hnone := List.findSome?_eq_none_iff.mp h _ (List.mem_map_of_mem hissue)
    dsimp only at hnone
    rwa [if_pos hcan, Option.map_eq_none_iff] at hnone

/-- The fix of a finding fits the text at hand, whatever validation the finding is of. -/
theorem Validation.Offers.exists_apply (h : v.Offers options text code edit) :
    ∃ edited, edit.apply text = .ok edited := by
  obtain ⟨issue, -, -, kind, ctx, -, hctx, hfix⟩ := h
  obtain ⟨value, -, rfl⟩ := Option.map_eq_some_iff.mp hctx
  exact (Validator.fits_fix? rfl hfix).apply

namespace InHand

/-- Validating a text in store puts it in hand. -/
theorem of_validate (h : InStep s id) (hstored : s.document? id = some ⟨text, version⟩)
    (applied : List String) :
    InHand id (s.validate id text version).2
      ⟨applied, text, version, (s.validate id text version).1⟩ where
  inStep := h.validate text version
  stored := by
    rcases validate_self_cases s id text version with hspares | ⟨-, -, hrenewed⟩
    · rw [hspares.document, hstored]
    · rw [hrenewed, document?_renewed]
  current := h.validate_again (isCurrent_of_le hstored (Nat.le_refl version)) text

/-- The version that a pass makes is not in the cache, so its text is stored and validated afresh. -/
theorem fixApplied (h : InHand id s done) (text : String) :
    (s.fixApplied id text (done.version + 1)).1 =
        (validateText s.registry s.options id text (done.version + 1)).1 ∧
      ∀ applied, InHand id (s.fixApplied id text (done.version + 1)).2
        ⟨applied, text, done.version + 1, (s.fixApplied id text (done.version + 1)).1⟩ := by
  have hstep := h.inStep.cancel
  have hcurrent : (s.cancel id).isCurrent id (done.version + 1) = true :=
    isCurrent_of_le h.stored (Nat.le_succ done.version)
  have hmiss : ∀ r, (s.cancel id).cache.peek? id = some r → r.version ≠ done.version + 1 := by
    intro r hr
    obtain ⟨⟨d, hd, hle⟩, -⟩ := h.inStep.cached hr
    obtain rfl := Option.some.inj (h.stored.symm.trans hd)
    exact Nat.ne_of_lt (Nat.lt_succ_of_le hle)
  obtain ⟨hfirst, hstored, hsecond⟩ := hstep.validate_of_miss hcurrent hmiss text
  exact ⟨hfirst, fun applied => ⟨hstep.validate text _, hstored, hsecond.trans hfirst.symm⟩⟩

/-- Fixing ends, or goes on after a pass. -/
theorem fixPasses_cases (h : InHand id s done) (hroom : done.version + 1 < 0x10000000000000000) :
    (done.result?.bind (nextFix? s.options done.text) = none ∧
        ∀ n, fixPasses id n done s = (.ok done, s)) ∨
      ∃ t next, Pass id (s, done) (t, next) ∧ InHand id t next ∧
        ∀ n, fixPasses id (n + 1) done s = fixPasses id n next t := by
  cases hnext : done.result?.bind (nextFix? s.options done.text) with
  | none => exact .inl ⟨rfl, fixPasses_of_none hnext⟩
  | some found =>
    obtain ⟨code, edit⟩ := found
    obtain ⟨v, hv, hfix⟩ := Option.bind_eq_some_iff.mp hnext
    have hoffers := offers_of_nextFix? hfix
    obtain ⟨text, happly⟩ := hoffers.exists_apply
    obtain ⟨hresult, hhand⟩ := h.fixApplied text
    have hversion : nextVersion done.version = done.version + 1 := Nat.mod_eq_of_lt hroom
    have hcommit : s.commit id edit = (.ok ⟨edit, text, done.version + 1,
        (s.fixApplied id text (done.version + 1)).1⟩, (s.fixApplied id text (done.version + 1)).2) := by
      rw [commit_of_apply h.stored happly, hversion]
    refine .inr ⟨(s.fixApplied id text (done.version + 1)).2, _,
      .fix hv hoffers happly hresult.symm rfl, hhand _, fun n => ?_⟩
    rw [fixPasses_of_some hnext, hcommit]

/-- Fixing comes to an end after some passes, at most as many as allowed. Where it stops before, no fix is
left. -/
theorem exists_passes (h : InHand id s done) (hroom : done.version + n < 0x10000000000000000) :
    ∃ k made t, k ≤ n ∧ fixPasses id n done s = (.ok made, t) ∧ Passes id k (s, done) (t, made) ∧
      InHand id t made ∧ (k < n → made.result?.bind (nextFix? t.options made.text) = none) := by
  induction n generalizing s done with
  | zero => exact ⟨0, done, s, Nat.le_refl 0, rfl, .none _, h, nofun⟩
  | succ n ih =>
    rcases h.fixPasses_cases (by omega) with ⟨hnone, hend⟩ | ⟨t, next, hpass, hnext, hgo⟩
    · exact ⟨0, done, s, Nat.zero_le _, hend _, .none _, h, fun _ => hnone⟩
    · have hversion : next.version = done.version + 1 := by cases hpass; rfl
      obtain ⟨k, made, u, hk, hmade, hpasses, hhand, hstop⟩ := ih hnext (by omega)
      refine ⟨k + 1, made, u, Nat.succ_le_succ hk, (hgo n).trans hmade, .step hpass hpasses, hhand, ?_⟩
      exact fun hlt => hstop (Nat.lt_of_succ_lt_succ hlt)

/-- Where no fix is left, fixing everything does nothing. -/
theorem fixAll_of_none (h : InHand id s done)
    (hnone : done.result?.bind (nextFix? s.options done.text) = none) :
    s.fixAll id = (.ok ⟨[], done.text, done.version, done.result?⟩,
      (s.validate id done.text done.version).2) := by
  have hoptions := options_validate s id done.text done.version
  simp only [fixAll, fixSome, h.stored, h.current, maxFixes, fixPasses, hoptions, hnone]

end InHand

namespace Passes

/-- Every pass applies one fix and makes one version. -/
theorem counts {x y : Service × FixAll} (h : Passes id n x y) :
    y.2.applied.length = x.2.applied.length + n ∧ y.2.version = x.2.version + n := by
  induction h with
  | none => exact ⟨rfl, rfl⟩
  | step hpass _ ih =>
    cases hpass
    obtain ⟨happlied, hversion⟩ := ih
    dsimp only at happlied hversion ⊢
    rw [List.length_append, List.length_singleton] at happlied
    omega

end Passes

/-! ## Fixing everything -/

/-- **Fixing everything.** After any events, a document that is not open cannot be fixed. An open one can:
fixing goes by at most so many single fixes of findings of the validation then at hand, counts a version for
each, and leaves the last text in store. Where it stops before it must, no finding has a fix, and fixing
everything once more does nothing. -/
theorem Service.fixAll_of_events (registry : Registry) (options : LintOptions) (delay capacity : Nat)
    (events : List Event) (id : String) :
    let s := events.foldl perform (.new registry options delay capacity)
    (s.document? id = none → s.fixAll id = (.error (.notFound s!"document '{id}'"), s)) ∧
    (∀ text version, s.document? id = some ⟨text, version⟩ →
      version + maxFixes < 0x10000000000000000 →
      ∃ made t, s.fixAll id = (.ok made, t) ∧ made.applied.length ≤ maxFixes ∧
        made.version = version + made.applied.length ∧
        Passes id made.applied.length
          ((s.validate id text version).2, ⟨[], text, version, (s.validate id text version).1⟩)
          (t, made) ∧
        t.document? id = some ⟨made.text, made.version⟩ ∧
        (made.applied.length < maxFixes →
          (∀ v, made.result? = some v → ∀ issue ∈ v.issues,
            editFor? options made.text v.kind? issue = none ∧
              ∀ kind ctx, v.kind? = some kind → Context.ofDocument? (.ofText made.text) = some ctx →
                (⟨some kind⟩ : Validator).fix? ctx options issue = none) ∧
          ∃ u, t.fixAll id = (.ok ⟨[], made.text, made.version, made.result?⟩, u) ∧
            u.document? id = some ⟨made.text, made.version⟩)) := by
  intro s
  refine ⟨fun hnone => ?_, fun text version hstored hroom => ?_⟩
  · simp only [fixAll, fixSome, hnone]
  · have hstep : InStep s id := (InStep.new registry options delay capacity id).foldl_perform events
    obtain ⟨k, made, t, hk, hmade, hpasses, hhand, hstop⟩ :=
      (InHand.of_validate hstep hstored []).exists_passes hroom
    obtain ⟨happlied, hversion⟩ := hpasses.counts
    obtain rfl : made.applied.length = k := by simpa using happlied
    have hfix : s.fixAll id = (.ok made, t) := by
      simpa only [fixAll, fixSome, hstored] using hmade
    refine ⟨made, t, hfix, hk, hversion, hpasses, hhand.stored, fun hlt => ?_⟩
    have hnone := hstop hlt
    have hoptions : t.options = options := by
      have hacts : (s.fixAll id).2.options = s.options := by
        rw [← enact_fixAllActs, options_enact]
      rw [hfix] at hacts
      exact hacts.trans (options_foldl_perform _ events)
    refine ⟨fun v hv issue hissue => ?_, _, hhand.fixAll_of_none hnone, ?_⟩
    · rw [hv, Option.bind_some, hoptions] at hnone
      have hedit := nextFix?_eq_none hnone issue hissue
      refine ⟨hedit, fun kind ctx hkind hctx => ?_⟩
      rwa [hkind, editFor?_of_context hctx] at hedit
    · exact (InHand.of_validate hhand.inStep hhand.stored []).stored

/-- The scope of a tree maps nothing and the name of its assignment is too long. One pass shortens the name, and
for the scope no fix is known. -/
theorem Service.fixAll_of_events_of_leaf :
    let text := "\x7b\"nodeName\":\"é\",\"scope\":1,\"assignment\":\x7b\"name\":\"abcdefghijklmnopqrstuvwxyz\"\x7d\x7d"
    let s := [Event.didOpen "tree" text 1].foldl perform
      (.new (.new none) ⟨["schema-validation"], [], false, none⟩ 500 256)
    s.fixAll "other" = (.error (.notFound "document 'other'"), s) ∧
    ∃ made t v, s.fixAll "tree" = (.ok made, t) ∧ made.applied = [Code.nameLength] ∧
      Passes "tree" 1 ((s.validate "tree" text 1).2, ⟨[], text, 1, (s.validate "tree" text 1).1⟩) (t, made) ∧
      t.document? "tree" = some ⟨made.text, 2⟩ ∧ made.result? = some v ∧
      v.issues.map (·.code) = [Code.invalidScope] ∧
      (∀ issue ∈ v.issues, ∀ kind ctx, v.kind? = some kind →
        Context.ofDocument? (.ofText made.text) = some ctx →
        (⟨some kind⟩ : Validator).fix? ctx ⟨["schema-validation"], [], false, none⟩ issue = none) ∧
      ∃ u, t.fixAll "tree" = (.ok ⟨[], made.text, 2, made.result?⟩, u) := by
  intro text s
  have hevents := fixAll_of_events (.new none) ⟨["schema-validation"], [], false, none⟩ 500 256
    [.didOpen "tree" text 1]
  refine ⟨(hevents "other").1 (by decide +kernel), ?_⟩
  obtain ⟨made, t, hfix, -, hversion, hpasses, hstored, hstop⟩ :=
    (hevents "tree").2 text 1 (by decide +kernel) (by decide)
  have hmade : (s.fixAll "tree").1.toOption.map (fun made =>
      (made.applied, made.result?.map fun v => v.issues.map (·.code))) =
        some ([Code.nameLength], some [Code.invalidScope]) := by decide +kernel
  rw [hfix] at hmade
  obtain ⟨happlied, hresult⟩ := Prod.mk.inj (Option.some.inj hmade)
  obtain ⟨v, hv, hcodes⟩ := Option.map_eq_some_iff.mp hresult
  rw [happlied] at hversion hpasses hstop
  obtain ⟨hleft, u, hagain, -⟩ := hstop (by decide)
  rw [hversion] at hstored hagain
  exact ⟨made, t, v, hfix, happlied, hpasses, hstored, hv, hcodes, fun issue hissue => (hleft v hv issue hissue).2,
    u, hagain⟩

end PolicyAudit
