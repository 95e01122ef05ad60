-- SUMMARY: The registry only grows, and what was computed with it once stays as it is.
import PolicyAudit.Lint.Check
import PolicyAudit.Session.Service

/-! ## Growth

A registry reads and compiles schemas when they are first needed. What has been read and compiled is
kept, so a later registry knows everything that an earlier one did. -/

namespace PolicyAudit

namespace Registry

variable {α β : Type} {r r' r'' : Registry}

/-- A registry that knows all that another one does. -/
structure GrowsInto (r r' : Registry) : Prop where
  folder : r'.folder? = r.folder?
  aliases : r'.aliases = r.aliases
  loaded : ∀ {id schema}, Keyed.find? id r.loaded = some schema →
    Keyed.find? id r'.loaded = some schema
  compiled : ∀ {id schema}, Keyed.find? id r.compiled = some schema →
    Keyed.find? id r'.compiled = some schema

theorem GrowsInto.refl (r : Registry) : r.GrowsInto r := ⟨rfl, rfl, id, id⟩

theorem GrowsInto.trans (h : r.GrowsInto r') (h' : r'.GrowsInto r'') : r.GrowsInto r'' where
  folder := h'.folder.trans h.folder
  aliases := h'.aliases.trans h.aliases
  loaded := fun hfind => h'.loaded (h.loaded hfind)
  compiled := fun hfind => h'.compiled (h.compiled hfind)

/-! ## Settled computations

A computation that uses a registry settles when it only adds to the registry, and comes to the same
result whenever it is done again later. -/

/-- The first run of `f` decides the result of every later one. -/
structure Settles (f : Registry → α × Registry) : Prop where
  grows : ∀ r : Registry, r.GrowsInto (f r).2
  same : ∀ {r r' : Registry}, (f r).2.GrowsInto r' → (f r').1 = (f r).1

theorem Settles.of_eq {f g : Registry → α × Registry} (hg : Settles g) (h : ∀ r, f r = g r) :
    Settles f := by
  rw [funext h]
  exact hg

theorem Settles.pure (a : α) : Settles fun r => (a, r) :=
  ⟨fun r => .refl r, fun _ => rfl⟩

theorem Settles.bind {f : Registry → α × Registry} {g : α → Registry → β × Registry}
    (hf : Settles f) (hg : ∀ a, Settles (g a)) : Settles fun r => g (f r).1 (f r).2 where
  grows r := (hf.grows r).trans ((hg (f r).1).grows (f r).2)
  same := by
    intro r r' hgrow
    have hfirst : (f r').1 = (f r).1 :=
      hf.same (((hg (f r).1).grows (f r).2).trans hgrow)
    simp only [hfirst]
    exact (hg (f r).1).same (hgrow.trans (hf.grows r'))

theorem Settles.map {f : Registry → α × Registry} (hf : Settles f) (g : α → β) :
    Settles fun r => (g (f r).1, (f r).2) :=
  hf.bind fun a => .pure (g a)

/-- A computation may go by what stays the same while the registry grows. -/
theorem Settles.choose {γ : Type} {κ : Registry → γ} {f : γ → Registry → α × Registry}
    (hκ : ∀ {r r' : Registry}, r.GrowsInto r' → κ r' = κ r) (hf : ∀ c, Settles (f c)) :
    Settles fun r => f (κ r) r where
  grows r := (hf (κ r)).grows r
  same := by
    intro r r' hgrow
    have hchoice : κ r' = κ r := hκ (((hf (κ r)).grows r).trans hgrow)
    simp only [hchoice]
    exact (hf (κ r)).same hgrow

/-! ## Reading and compiling -/

theorem resolve?_of_growsInto (h : r.GrowsInto r') (url : String) :
    r'.resolve? url = r.resolve? url := by
  simp only [resolve?, h.aliases]

theorem load_of_loaded {id : String} {schema : LoadedSchema}
    (h : Keyed.find? id r.loaded = some schema) : r.load id = (schema, r) := by
  simp only [load, h]

theorem compile_of_compiled {schema : LoadedSchema} {compiled : CompiledSchema}
    (h : Keyed.find? schema.id r.compiled = some compiled) :
    r.compile schema = (compiled, r) := by
  simp only [compile, h]

theorem find?_loaded_load (r : Registry) (id : String) :
    Keyed.find? id (r.load id).2.loaded = some (r.load id).1 := by
  cases hfind : Keyed.find? id r.loaded with
  | some schema => rw [load_of_loaded hfind]; exact hfind
  | none => simp only [load, hfind]; exact Keyed.find?_insert_self ..

theorem find?_compiled_compile (r : Registry) (schema : LoadedSchema) :
    Keyed.find? schema.id (r.compile schema).2.compiled = some (r.compile schema).1 := by
  cases hfind : Keyed.find? schema.id r.compiled with
  | some compiled => rw [compile_of_compiled hfind]; exact hfind
  | none => simp only [compile, hfind]; exact Keyed.find?_insert_self ..

/-- A new binding leaves the look-ups that found something as they were. -/
private theorem find?_insert_of_find? {name other : String} {value found : α} {entries : Keyed α}
    (hnew : Keyed.find? name entries = none) (h : Keyed.find? other entries = some found) :
    Keyed.find? other (Keyed.insert name value entries) = some found := by
  have hne : name ≠ other := by
    intro heq
    rw [heq, h] at hnew
    cases hnew
  rw [Keyed.find?_insert_of_ne hne, h]

theorem load_grows (r : Registry) (id : String) : r.GrowsInto (r.load id).2 := by
  cases hfind : Keyed.find? id r.loaded with
  | some schema => rw [load_of_loaded hfind]; exact .refl r
  | none =>
    simp only [load, hfind]
    exact ⟨rfl, rfl, fun h => find?_insert_of_find? hfind h, fun h => h⟩

theorem compile_grows (r : Registry) (schema : LoadedSchema) :
    r.GrowsInto (r.compile schema).2 := by
  cases hfind : Keyed.find? schema.id r.compiled with
  | some compiled => rw [compile_of_compiled hfind]; exact .refl r
  | none =>
    simp only [compile, hfind]
    exact ⟨rfl, rfl, fun h => h, fun h => find?_insert_of_find? hfind h⟩

theorem settles_load (id : String) : Settles fun r => r.load id where
  grows r := load_grows r id
  same := by
    intro r r' hgrow
    rw [load_of_loaded (hgrow.loaded (find?_loaded_load r id))]

theorem settles_compile (schema : LoadedSchema) : Settles fun r => r.compile schema where
  grows r := compile_grows r schema
  same := by
    intro r r' hgrow
    rw [compile_of_compiled (hgrow.compiled (find?_compiled_compile r schema))]

/-! ## Checking -/

theorem settles_check (id : String) (value : Json) : Settles fun r => r.check id value := by
  have hreport := (settles_load id).bind fun schema => (settles_compile schema).map fun compiled =>
    StructureReport.mk id (discrepancies compiled value) schema.isFallback
  exact hreport

theorem settles_validate (url : String) (value : Json) :
    Settles fun r => r.validate url value := by
  have hcase : ∀ id?, Settles fun r : Registry => match id? with
      | none => (Except.error (AuditError.notFound s!"schema '{url}'"), r)
      | some id => (Except.ok (r.check id value).1, (r.check id value).2) := by
    intro id?
    cases id? with
    | none => exact .pure _
    | some id => exact (settles_check id value).map Except.ok
  refine (Settles.choose (fun h => resolve?_of_growsInto h url) hcase).of_eq fun r => ?_
  unfold validate
  cases r.resolve? url <;> rfl

/-! ## What validating asks for

The rules use a registry in one way only: they resolve addresses and have values checked. What holds of
these two and is kept when one computation follows another holds of validating a text. -/

/-- A computation that only resolves addresses and has values checked. -/
inductive Asks : {α : Type} → (Registry → α × Registry) → Prop where
  | pure {α : Type} (a : α) : Asks fun r => (a, r)
  | bind {α β : Type} {f : Registry → α × Registry} {g : α → Registry → β × Registry} :
      Asks f → (∀ a, Asks (g a)) → Asks fun r => g (f r).1 (f r).2
  | resolve {α : Type} {g : (String → Option String) → Registry → α × Registry} :
      (∀ resolve?, Asks (g resolve?)) → Asks fun r => g r.resolve? r
  | validate (url : String) (value : Json) : Asks fun r => r.validate url value

theorem Asks.of_eq {f g : Registry → α × Registry} (hg : Asks g) (h : ∀ r, f r = g r) :
    Asks f := by
  rw [funext h]
  exact hg

theorem Asks.map {f : Registry → α × Registry} (hf : Asks f) (g : α → β) :
    Asks fun r => (g (f r).1, (f r).2) :=
  hf.bind fun a => .pure (g a)

theorem Asks.settles {f : Registry → α × Registry} (h : Asks f) : Settles f := by
  induction h with
  | pure a => exact .pure a
  | bind _ _ ihf ihg => exact ihf.bind ihg
  | resolve _ ih => exact .choose (fun hgrow => funext (resolve?_of_growsInto hgrow)) ih
  | validate url value => exact settles_validate url value

end Registry

/-! ## Rules and validators -/

open Registry (Asks Settles)

theorem Structural.asks_check (ctx : Context) : Asks fun r => Structural.check ctx r := by
  have hcase : ∀ id?, Asks fun r : Registry => match id? with
      | none => (Except.ok [noSchema ctx.doc], r)
      | some id => ((r.validate id ctx.value).1.map fun report : StructureReport =>
          report.errors.map (issueOf ctx.doc Rule.schemaValidation.id),
        (r.validate id ctx.value).2) := by
    intro id?
    cases id? with
    | none => exact .pure _
    | some id => exact (Asks.validate id ctx.value).map _
  have hchoice := Asks.resolve fun resolve? =>
    hcase (((ctx.value.text? .schema).bind resolve?).or ((Kind.guess? ctx.value).map Kind.schemaId))
  refine hchoice.of_eq fun r => ?_
  have hid : ((ctx.value.text? .schema).bind r.resolve?).or
      ((Kind.guess? ctx.value).map Kind.schemaId) = schemaId? r ctx.value := by
    unfold schemaId?
    cases (ctx.value.text? .schema).bind r.resolve? <;> rfl
  rw [hid]
  unfold Structural.check
  cases schemaId? r ctx.value with
  | none => rfl
  | some id =>
    dsimp only
    rcases r.validate id ctx.value with ⟨_ | _, _⟩ <;> rfl

theorem Rule.asks_check (rule : Rule) (ctx : Context) : Asks fun r => rule.check ctx r := by
  cases rule
  case schemaValidation => exact Structural.asks_check ctx
  all_goals exact .pure _

namespace Validator

theorem asks_findings (ctx : Context) (options : LintOptions) (rules : List Rule) :
    Asks fun r => findings ctx options rules r := by
  induction rules with
  | nil => exact .pure []
  | cons rule rest ih =>
    by_cases hdisabled : options.isDisabled rule.id = true
    · exact ih.of_eq fun r => by simp only [findings, hdisabled, Bool.or_true, if_true]
    · have hboth := (rule.asks_check ctx).bind fun outcome => ih.map fun more =>
        (outcome.toOption.getD []).map (adjust options) ++ more
      exact hboth.of_eq fun r => by
        simp only [findings, Rule.enabled, hdisabled, Bool.not_true, Bool.or_false, Bool.false_eq_true, if_false]

theorem asks_run (validator : Validator) (ctx : Context) (options : LintOptions) :
    Asks fun r => validator.run ctx options r :=
  (asks_findings ctx options validator.rules).map (limited options)

theorem asks_validate (validator : Validator) (ctx : Context) (options : LintOptions)
    (id : String) (version : Nat) :
    Asks fun r => validator.validate ctx options r id version := by
  have hrun := (validator.asks_run ctx options).map fun found =>
    Validation.mk id version validator.kind? found.1 found.2
  exact hrun

end Validator

namespace Service

theorem asks_validateText (options : LintOptions) (id text : String) (version : Nat) :
    Asks fun r => validateText r options id text version := by
  cases hclean : (Document.ofText text).isClean with
  | false =>
    refine (Asks.pure none).of_eq fun r => ?_
    simp only [validateText, hclean, Bool.false_eq_true, if_false]
  | true =>
    cases hselect : Validator.select? (.ofText text) with
    | none =>
      refine (Asks.pure none).of_eq fun r => ?_
      simp only [validateText, hclean, hselect, if_true]
    | some validator =>
      cases hctx : Context.ofDocument? (.ofText text) with
      | none =>
        refine (Asks.pure none).of_eq fun r => ?_
        simp only [validateText, hclean, hselect, hctx, if_true]
      | some ctx =>
        refine ((validator.asks_validate ctx options id version).map some).of_eq fun r => ?_
        simp only [validateText, hclean, hselect, hctx, if_true]

theorem settles_validateText (options : LintOptions) (id text : String) (version : Nat) :
    Settles fun r => validateText r options id text version :=
  (asks_validateText options id text version).settles

end Service

end PolicyAudit
