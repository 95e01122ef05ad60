-- SUMMARY: Each finding bears the id of the rule that found it and one of that rule's codes.
import PolicyAudit.Lint.Validator

/-! ## Codes

A code belongs to one rule. -/

namespace PolicyAudit

/-- Whether some rule fixes findings of a code. -/
def Code.Fixable (code : String) : Prop := ∃ rule : Rule, code ∈ rule.fixableCodes

namespace Rule

variable {rule other : Rule} {code : String} {ctx : Context} {issue : Issue} {issues more : List Issue}

/-- The rule that a code belongs to. -/
def ofCode? (code : String) : Option Rule :=
  [schemaValidation, effectParameter, referenceIntegrity, nonEmptyCollection, nameLength,
    assignmentScope, exclusiveReference].find? (code ∈ ·.codes)

theorem ofCode?_eq (h : code ∈ rule.codes) : ofCode? code = some rule := by
  have hcodes : ∀ code ∈ rule.codes, ofCode? code = some rule := by cases rule <;> decide +kernel
  exact hcodes code h

theorem eq_of_mem_codes (h : code ∈ rule.codes) (hother : code ∈ other.codes) : rule = other :=
  Option.some.inj ((ofCode?_eq h).symm.trans (ofCode?_eq hother))

theorem mem_codes_of_fixable (h : code ∈ rule.fixableCodes) : code ∈ rule.codes := by
  have hsub : ∀ code ∈ rule.fixableCodes, code ∈ rule.codes := by cases rule <;> decide +kernel
  exact hsub code h

/-- Only the rule of a code fixes it. -/
theorem fixable_iff (h : code ∈ rule.codes) : Code.Fixable code ↔ code ∈ rule.fixableCodes := by
  constructor
  · rintro ⟨other, hother⟩
    rwa [eq_of_mem_codes h (mem_codes_of_fixable hother)]
  · exact fun hfix => ⟨rule, hfix⟩

/-! ## Findings -/

/-- A finding comes from a rule. -/
structure Owns (rule : Rule) (issue : Issue) : Prop where
  ruleId : issue.ruleId = rule.id
  code : issue.code ∈ rule.codes

/-- Each of some findings comes from a rule. -/
def OwnsAll (rule : Rule) (issues : List Issue) : Prop := ∀ issue ∈ issues, rule.Owns issue

theorem OwnsAll.nil (rule : Rule) : rule.OwnsAll [] := nofun

theorem OwnsAll.singleton (code : String) (hmem : code ∈ rule.codes) (hrule : issue.ruleId = rule.id)
    (hcode : issue.code = code) : rule.OwnsAll [issue] := by
  intro other hother
  rw [List.mem_singleton.mp hother]
  exact ⟨hrule, hcode ▸ hmem⟩

theorem OwnsAll.append (h : rule.OwnsAll issues) (hmore : rule.OwnsAll more) :
    rule.OwnsAll (issues ++ more) :=
  fun issue hissue => (List.mem_append.mp hissue).elim (h issue) (hmore issue)

theorem OwnsAll.flatMap {α : Type} {f : α → List Issue} (h : ∀ x, rule.OwnsAll (f x)) (xs : List α) :
    rule.OwnsAll (xs.flatMap f) := by
  intro issue hissue
  obtain ⟨x, -, hmem⟩ := List.mem_flatMap.mp hissue
  exact h x issue hmem

end Rule

open Rule

variable {ctx : Context}

theorem Structural.ownsAll_check {registry : Registry} {issues : List Issue}
    (h : (Structural.check ctx registry).1 = .ok issues) : schemaValidation.OwnsAll issues := by
  unfold Structural.check at h
  split at h
  · obtain rfl := Except.ok.inj h
    exact .singleton Code.noSchema (by decide) rfl rfl
  · split at h
    · cases h
    · obtain rfl := Except.ok.inj h
      intro issue hissue
      obtain ⟨discrepancy, -, rfl⟩ := List.mem_map.mp hissue
      exact ⟨rfl, List.mem_cons_self⟩

theorem Effect.ownsAll_check (ctx : Context) : effectParameter.OwnsAll (Effect.check ctx) := by
  unfold Effect.check
  split
  · exact .nil _
  · split
    · split
      · exact .nil _
      · exact .singleton Code.missingEffectParameter (by decide) rfl rfl
    · split
      · exact .nil _
      · split
        · exact .nil _
        · exact .singleton Code.fixedEffect (by decide) rfl rfl

namespace Reference

theorem ownsAll_nameIssues (ctx : Context) (index : Nat) (entry : Part) :
    referenceIntegrity.OwnsAll (nameIssues ctx index entry) := by
  unfold nameIssues
  dsimp only
  split
  · exact .singleton Code.invalidReference (by decide) rfl rfl
  · exact .nil _

theorem ownsAll_idIssues (ctx : Context) (seen : List String) (index : Nat) (entry : Part) :
    referenceIntegrity.OwnsAll (idIssues ctx seen index entry) := by
  unfold idIssues
  split
  · split
    · exact .singleton Code.duplicateReferenceId (by decide) rfl rfl
    · exact .nil _
  · exact .singleton Code.missingReferenceId (by decide) rfl rfl

theorem ownsAll_checkFrom (ctx : Context) (seen : List String) (index : Nat) (parts : List Part) :
    referenceIntegrity.OwnsAll (checkFrom ctx seen index parts) := by
  induction parts generalizing seen index with
  | nil => exact .nil _
  | cons entry rest ih =>
    have hentry := (ownsAll_nameIssues ctx index entry).append (ownsAll_idIssues ctx seen index entry)
    exact hentry.append (ih (see seen entry) (index + 1))

theorem ownsAll_checkNotEmpty (ctx : Context) : nonEmptyCollection.OwnsAll (checkNotEmpty ctx) := by
  unfold checkNotEmpty
  split
  · exact .nil _
  · split
    · exact .singleton Code.emptyDefinitions (by decide) rfl rfl
    · exact .nil _

end Reference

namespace Assignment

theorem ownsAll_nameIssues (ctx : Context) (part : Part) (name : String) :
    nameLength.OwnsAll (nameIssues ctx part name) := by
  unfold nameIssues
  dsimp only
  split
  · exact .nil _
  · exact .singleton Code.nameLength (by decide) rfl rfl

theorem ownsAll_checkNames (ctx : Context) : nameLength.OwnsAll (checkNames ctx) :=
  .flatMap (fun _ => .flatMap (fun _ => ownsAll_nameIssues ctx _ _) _) _

theorem ownsAll_placeIssues (ctx : Context) (environment : String) (part : Part) :
    assignmentScope.OwnsAll (placeIssues ctx environment part) := by
  unfold placeIssues
  split
  · split
    · exact .nil _
    · exact .singleton Code.invalidScope (by decide) rfl rfl
  · exact .singleton Code.invalidScope (by decide) rfl rfl

theorem ownsAll_missingScopeIssues (ctx : Context) (node : Node) :
    assignmentScope.OwnsAll (missingScopeIssues ctx node) := by
  unfold missingScopeIssues
  split
  · exact .singleton Code.missingScope (by decide) rfl rfl
  · exact .nil _

theorem ownsAll_ownScopeIssues (ctx : Context) (part : Part) :
    assignmentScope.OwnsAll (ownScopeIssues ctx part) := by
  unfold ownScopeIssues
  split
  · exact .nil _
  · split
    · exact .flatMap (fun _ => .flatMap (fun _ => ownsAll_placeIssues ctx _ _) _) _
    · exact .singleton Code.invalidScope (by decide) rfl rfl

theorem ownsAll_checkScopes (ctx : Context) : assignmentScope.OwnsAll (checkScopes ctx) :=
  .flatMap (fun node => (ownsAll_missingScopeIssues ctx node).append (ownsAll_ownScopeIssues ctx node.part)) _

theorem ownsAll_bothIssues (ctx : Context) (part : Part) :
    exclusiveReference.OwnsAll (bothIssues ctx part) := by
  unfold bothIssues
  split
  · exact .singleton Code.conflictingReferences (by decide) rfl rfl
  · exact .nil _

theorem ownsAll_referenceIssues (ctx : Context) (part : Part) :
    exclusiveReference.OwnsAll (referenceIssues ctx part) := by
  unfold referenceIssues
  dsimp only
  split
  · exact .singleton Code.conflictingReferences (by decide) rfl rfl
  · exact .nil _

theorem ownsAll_checkReferences (ctx : Context) : exclusiveReference.OwnsAll (checkReferences ctx) := by
  refine .flatMap (fun node : Node => ?_) _
  exact (ownsAll_bothIssues ctx node.part).append (.flatMap (ownsAll_referenceIssues ctx) _)

end Assignment

theorem Rule.ownsAll_check {rule : Rule} {registry : Registry} {issues : List Issue}
    (h : (rule.check ctx registry).1 = .ok issues) : rule.OwnsAll issues := by
  cases rule with
  | schemaValidation => exact Structural.ownsAll_check h
  | effectParameter => exact Except.ok.inj h ▸ Effect.ownsAll_check ctx
  | referenceIntegrity => exact Except.ok.inj h ▸ Reference.ownsAll_checkFrom ctx [] 0 _
  | nonEmptyCollection => exact Except.ok.inj h ▸ Reference.ownsAll_checkNotEmpty ctx
  | nameLength => exact Except.ok.inj h ▸ Assignment.ownsAll_checkNames ctx
  | assignmentScope => exact Except.ok.inj h ▸ Assignment.ownsAll_checkScopes ctx
  | exclusiveReference => exact Except.ok.inj h ▸ Assignment.ownsAll_checkReferences ctx

end PolicyAudit
