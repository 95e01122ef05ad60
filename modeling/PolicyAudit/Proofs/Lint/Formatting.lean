-- SUMMARY: The findings of a run depend on the value of a document, and only their ranges on how it is written.
import PolicyAudit.Proofs.Lint.Run

/-! ## Findings without ranges -/

namespace PolicyAudit

/-- A finding without its place in the text. -/
def Issue.withoutRange (issue : Issue) : Issue := { issue with range := .zero }

open Issue

/-- What a check finds depends on the value of a document, and only the ranges on how it is written. -/
def DependsOnValue (check : Context → List Issue) : Prop :=
  ∀ doc doc' value, (check ⟨doc, value⟩).map withoutRange = (check ⟨doc', value⟩).map withoutRange

namespace DependsOnValue

theorem append {check more : Context → List Issue} (h : DependsOnValue check) (hmore : DependsOnValue more) :
    DependsOnValue fun ctx => check ctx ++ more ctx := by
  intro doc doc' value
  rw [List.map_append, List.map_append, h doc doc', hmore doc doc']

theorem flatMap {α : Type} {check : α → Context → List Issue} (parts : Json → List α)
    (h : ∀ part, DependsOnValue (check part)) :
    DependsOnValue fun ctx => (parts ctx.value).flatMap fun part => check part ctx := by
  intro doc doc' value
  rw [List.map_flatMap, List.map_flatMap]
  exact congrArg (List.flatMap · (parts value)) (funext fun part => h part doc doc' value)

end DependsOnValue

/-! ## Checks -/

theorem Effect.dependsOnValue_check : DependsOnValue check := by
  intro doc doc' value
  unfold check
  dsimp only
  split
  · rfl
  · split
    · split <;> rfl
    · split
      · rfl
      · split <;> rfl

namespace Reference

theorem dependsOnValue_nameIssues (index : Nat) (entry : Part) :
    DependsOnValue fun ctx => nameIssues ctx index entry := by
  intro doc doc' value
  unfold nameIssues
  dsimp only
  split <;> rfl

theorem dependsOnValue_idIssues (seen : List String) (index : Nat) (entry : Part) :
    DependsOnValue fun ctx => idIssues ctx seen index entry := by
  intro doc doc' value
  unfold idIssues
  split
  · split <;> rfl
  · rfl

theorem dependsOnValue_checkFrom (seen : List String) (index : Nat) (parts : List Part) :
    DependsOnValue fun ctx => checkFrom ctx seen index parts := by
  induction parts generalizing seen index with
  | nil => exact fun _ _ _ => rfl
  | cons entry rest ih =>
    exact ((dependsOnValue_nameIssues index entry).append (dependsOnValue_idIssues seen index entry)).append
      (ih (see seen entry) (index + 1))

theorem dependsOnValue_check : DependsOnValue check := fun doc doc' value =>
  dependsOnValue_checkFrom [] 0 (entries value) doc doc' value

theorem dependsOnValue_checkNotEmpty : DependsOnValue checkNotEmpty := by
  intro doc doc' value
  unfold checkNotEmpty
  dsimp only
  split
  · rfl
  · split <;> rfl

end Reference

namespace Assignment

theorem dependsOnValue_nameIssues (part : Part) (name : String) :
    DependsOnValue fun ctx => nameIssues ctx part name := by
  intro doc doc' value
  unfold nameIssues
  dsimp only
  split <;> rfl

theorem dependsOnValue_checkNames : DependsOnValue checkNames :=
  .flatMap nodes fun node => .flatMap (fun _ => names node.part) fun named =>
    dependsOnValue_nameIssues named.1 named.2

theorem dependsOnValue_missingScopeIssues (node : Node) :
    DependsOnValue fun ctx => missingScopeIssues ctx node := by
  intro doc doc' value
  unfold missingScopeIssues
  split <;> rfl

theorem dependsOnValue_placeIssues (environment : String) (part : Part) :
    DependsOnValue fun ctx => placeIssues ctx environment part := by
  intro doc doc' value
  unfold placeIssues
  split
  · split <;> rfl
  · rfl

theorem dependsOnValue_ownScopeIssues (part : Part) : DependsOnValue fun ctx => ownScopeIssues ctx part := by
  intro doc doc' value
  unfold ownScopeIssues
  split
  · rfl
  · split
    · next environments _ =>
      exact DependsOnValue.flatMap (fun _ => environments)
        (fun entry => .flatMap (fun _ => scopePlaces entry.2) (dependsOnValue_placeIssues entry.1)) doc doc' value
    · rfl

theorem dependsOnValue_checkScopes : DependsOnValue checkScopes :=
  .flatMap nodes fun node =>
    (dependsOnValue_missingScopeIssues node).append (dependsOnValue_ownScopeIssues node.part)

theorem dependsOnValue_bothIssues (part : Part) : DependsOnValue fun ctx => bothIssues ctx part := by
  intro doc doc' value
  unfold bothIssues
  split <;> rfl

theorem dependsOnValue_referenceIssues (part : Part) : DependsOnValue fun ctx => referenceIssues ctx part := by
  intro doc doc' value
  unfold referenceIssues
  dsimp only
  split <;> rfl

theorem dependsOnValue_checkReferences : DependsOnValue checkReferences :=
  .flatMap nodes fun node => (dependsOnValue_bothIssues node.part).append
    (.flatMap (fun _ => references node.part) dependsOnValue_referenceIssues)

end Assignment

/-! ## Rules -/

variable {doc doc' : Document} {value : Json} {registry : Registry}

/-- The same outcome but for the ranges of findings, and the same registry. -/
def Rule.SameOutcome (a b : Except AuditError (List Issue) × Registry) : Prop :=
  b.1.map (List.map withoutRange) = a.1.map (List.map withoutRange) ∧ b.2 = a.2

theorem DependsOnValue.sameOutcome {check : Context → List Issue} (h : DependsOnValue check) :
    Rule.SameOutcome (.ok (check ⟨doc, value⟩), registry) (.ok (check ⟨doc', value⟩), registry) :=
  ⟨congrArg Except.ok (h doc' doc value), rfl⟩

theorem Structural.check_sameOutcome (doc doc' : Document) (value : Json) (registry : Registry) :
    Rule.SameOutcome (check ⟨doc, value⟩ registry) (check ⟨doc', value⟩ registry) := by
  unfold check
  dsimp only
  split
  · exact ⟨rfl, rfl⟩
  · split
    · exact ⟨rfl, rfl⟩
    · next report _ _ =>
      refine ⟨congrArg Except.ok ?_, rfl⟩
      rw [List.map_map, List.map_map]
      rfl

theorem Rule.check_sameOutcome (rule : Rule) (doc doc' : Document) (value : Json) (registry : Registry) :
    SameOutcome (rule.check ⟨doc, value⟩ registry) (rule.check ⟨doc', value⟩ registry) := by
  cases rule with
  | schemaValidation => exact Structural.check_sameOutcome doc doc' value registry
  | effectParameter => exact Effect.dependsOnValue_check.sameOutcome
  | referenceIntegrity => exact Reference.dependsOnValue_check.sameOutcome
  | nonEmptyCollection => exact Reference.dependsOnValue_checkNotEmpty.sameOutcome
  | nameLength => exact Assignment.dependsOnValue_checkNames.sameOutcome
  | assignmentScope => exact Assignment.dependsOnValue_checkScopes.sameOutcome
  | exclusiveReference => exact Assignment.dependsOnValue_checkReferences.sameOutcome

/-- A rule that fails on one of the documents fails on the other. -/
theorem Rule.SameOutcome.issues {a b : Except AuditError (List Issue) × Registry} (h : SameOutcome a b) :
    (b.1.toOption.getD []).map withoutRange = (a.1.toOption.getD []).map withoutRange := by
  obtain ⟨x, registry⟩ := a
  obtain ⟨y, registry'⟩ := b
  obtain ⟨hissues, -⟩ := h
  cases x with
  | error e =>
    cases y with
    | error e' => rfl
    | ok issues' => cases hissues
  | ok issues =>
    cases y with
    | error e' => cases hissues
    | ok issues' => exact Except.ok.inj hissues

/-! ## Runs -/

namespace Validator

variable {issues issues' : List Issue}

theorem map_adjust_withoutRange (options : LintOptions)
    (h : issues'.map withoutRange = issues.map withoutRange) :
    (issues'.map (adjust options)).map withoutRange = (issues.map (adjust options)).map withoutRange := by
  have hcomm (issues : List Issue) : (issues.map (adjust options)).map withoutRange =
      (issues.map withoutRange).map (adjust options) := by
    rw [List.map_map, List.map_map]
    rfl
  rw [hcomm, hcomm, h]

theorem findings_withoutRange (options : LintOptions) (doc doc' : Document) (value : Json) (rules : List Rule)
    (registry : Registry) :
    ((findings ⟨doc', value⟩ options rules registry).1.map withoutRange =
        (findings ⟨doc, value⟩ options rules registry).1.map withoutRange) ∧
      (findings ⟨doc', value⟩ options rules registry).2 = (findings ⟨doc, value⟩ options rules registry).2 := by
  induction rules generalizing registry with
  | nil => exact ⟨rfl, rfl⟩
  | cons rule rest ih =>
    cases hdisabled : options.isDisabled rule.id with
    | true =>
      rw [findings_cons_of_disabled hdisabled, findings_cons_of_disabled hdisabled]
      exact ih registry
    | false =>
      have hsame := rule.check_sameOutcome doc doc' value registry
      obtain ⟨hissues, hregistry⟩ := ih (rule.check ⟨doc, value⟩ registry).2
      rw [fst_findings_cons hdisabled, fst_findings_cons hdisabled, snd_findings_cons hdisabled,
        snd_findings_cons hdisabled, hsame.2]
      refine ⟨?_, hregistry⟩
      rw [List.map_append, List.map_append, hissues, map_adjust_withoutRange options hsame.issues]

/-- Where findings are cut depends on their severities alone. -/
theorem cut_map_withoutRange (limit errors : Nat) (issues : List Issue) :
    cut limit errors (issues.map withoutRange) =
      ((cut limit errors issues).1.map withoutRange, (cut limit errors issues).2) := by
  induction issues generalizing errors with
  | nil => rfl
  | cons issue rest ih =>
    have herror : issue.withoutRange.isError = issue.isError := rfl
    simp only [List.map_cons, cut, herror, ih]
    generalize (if issue.isError then errors + 1 else errors) = errors
    split <;> rfl

theorem limited_map_withoutRange (options : LintOptions) (issues : List Issue) :
    limited options (issues.map withoutRange) =
      ((limited options issues).1.map withoutRange, (limited options issues).2) := by
  unfold limited
  split
  · exact cut_map_withoutRange _ 0 issues
  · rfl

theorem any_isError_map_withoutRange (issues : List Issue) :
    (issues.map withoutRange).any isError = issues.any isError := by
  rw [List.any_map]
  rfl

/-- What a validation says of a document, but for the ranges of its findings, is about the value. -/
theorem validate_withoutRange (validator : Validator) (options : LintOptions) (doc doc' : Document)
    (value : Json) (registry : Registry) (id id' : String) (version version' : Nat) :
    let found := validator.validate ⟨doc, value⟩ options registry id version
    let found' := validator.validate ⟨doc', value⟩ options registry id' version'
    found'.1.issues.map withoutRange = found.1.issues.map withoutRange ∧
      found'.1.truncated = found.1.truncated ∧ found'.1.valid = found.1.valid ∧ found'.2 = found.2 := by
  obtain ⟨hissues, hregistry⟩ := findings_withoutRange options doc doc' value validator.rules registry
  have hlimited := congrArg (limited options) hissues
  rw [limited_map_withoutRange, limited_map_withoutRange] at hlimited
  obtain ⟨hkept, htruncated⟩ := Prod.mk.inj hlimited
  have hvalid := congrArg (List.any · isError) hkept
  rw [any_isError_map_withoutRange, any_isError_map_withoutRange] at hvalid
  exact ⟨hkept, htruncated, congrArg not hvalid, hregistry⟩

end Validator

end PolicyAudit
