-- SUMMARY: A registry that has read its schemas gives the same answers whatever it is asked in between.
import PolicyAudit.Proofs.Schema.Library
import PolicyAudit.Proofs.Schema.Report
import PolicyAudit.Settings.Basic

/-! ## Warm registries

A schema is compiled beside the documents that have been read by then. Once the schema of every address has
been read, that is always the same library, and it does not matter when a schema is compiled. -/

namespace PolicyAudit

namespace Registry

variable {α β : Type} {r r' r'' : Registry} {id url : String}

/-- The schema of every address has been read, under its own id. -/
structure Warm (r : Registry) : Prop where
  loaded : ∀ {url id}, r.resolve? url = some id → ∃ schema, Keyed.find? id r.loaded = some schema
  named : ∀ {id schema}, Keyed.find? id r.loaded = some schema → schema.id = id

/-- Registries that have read the same schemas, and that compile each of them to the same. -/
structure Agrees (r r' : Registry) : Prop where
  aliases : r'.aliases = r.aliases
  loaded : r'.loaded = r.loaded
  compiled : ∀ {id schema}, Keyed.find? id r.loaded = some schema →
    (r'.compile schema).1 = (r.compile schema).1

theorem Agrees.refl (r : Registry) : r.Agrees r := ⟨rfl, rfl, fun _ => rfl⟩

theorem Agrees.symm (h : r.Agrees r') : r'.Agrees r where
  aliases := h.aliases.symm
  loaded := h.loaded.symm
  compiled := fun hfind => (h.compiled (h.loaded ▸ hfind)).symm

theorem Agrees.trans (h : r.Agrees r') (h' : r'.Agrees r'') : r.Agrees r'' where
  aliases := h'.aliases.trans h.aliases
  loaded := h'.loaded.trans h.loaded
  compiled := fun hfind => (h'.compiled (h.loaded.symm ▸ hfind)).trans (h.compiled hfind)

theorem Agrees.resolve?_eq (h : r.Agrees r') : r'.resolve? = r.resolve? := by
  funext url
  simp only [resolve?, h.aliases]

theorem Warm.of_agrees (hwarm : r.Warm) (h : r.Agrees r') : r'.Warm where
  loaded := by
    rw [h.resolve?_eq, h.loaded]
    exact hwarm.loaded
  named := by
    rw [h.loaded]
    exact hwarm.named

/-! ## Compiling -/

theorem Warm.agrees_compile {schema : LoadedSchema} (hwarm : r.Warm)
    (hschema : Keyed.find? id r.loaded = some schema) : r.Agrees (r.compile schema).2 := by
  cases hfind : Keyed.find? schema.id r.compiled with
  | some compiled =>
    rw [compile_of_compiled hfind]
    exact .refl r
  | none =>
    generalize hadded : (r.compile schema).2 = added
    have hloaded : added.loaded = r.loaded := by
      rw [← hadded, compile, hfind]
    have hcompiled : added.compiled =
        Keyed.insert schema.id (r.compileSchema schema) r.compiled := by
      rw [← hadded, compile, hfind]
    have haliases : added.aliases = r.aliases := by
      rw [← hadded, compile, hfind]
    have hlibrary : added.library = r.library := by
      rw [← hadded, compile, hfind]
      rfl
    refine ⟨haliases, hloaded, fun {other found} hfound => ?_⟩
    by_cases hid : schema.id = found.id
    · -- The two are read under one id, so that they are one schema.
      rw [hwarm.named hschema, hwarm.named hfound] at hid
      subst hid
      obtain rfl := Option.some.inj (hschema.symm.trans hfound)
      simp only [compile, hcompiled, Keyed.find?_insert_self, hfind]
    · simp only [compile, hcompiled, Keyed.find?_insert_of_ne hid]
      cases Keyed.find? found.id r.compiled with
      | some compiled => rfl
      | none => exact compileSchema_congr hlibrary found

/-! ## Answers -/

/-- A computation that gives agreeing registries the same answer, and lets a warm registry agree with what
it was. -/
structure Repeats (f : Registry → α × Registry) : Prop where
  agrees : ∀ {r : Registry}, r.Warm → r.Agrees (f r).2
  same : ∀ {r r' : Registry}, r.Warm → r.Agrees r' → (f r').1 = (f r).1

theorem repeats_validate (url : String) (value : Json) : Repeats fun r => r.validate url value := by
  have hcase : ∀ {r : Registry}, r.Warm → r.resolve? url = none ∨ ∃ id schema,
      r.resolve? url = some id ∧ Keyed.find? id r.loaded = some schema := by
    intro r hwarm
    cases hid : r.resolve? url with
    | none => exact .inl rfl
    | some id =>
      obtain ⟨schema, hschema⟩ := hwarm.loaded hid
      exact .inr ⟨id, schema, rfl, hschema⟩
  constructor
  case agrees =>
    intro r hwarm
    rcases hcase hwarm with hnone | ⟨id, schema, hid, hschema⟩
    · simp only [validate, hnone]
      exact .refl r
    · simp only [validate, hid, check, load_of_loaded hschema]
      exact hwarm.agrees_compile hschema
  case same =>
    intro r r' hwarm hagrees
    have hresolve : r'.resolve? url = r.resolve? url := congrFun hagrees.resolve?_eq url
    rcases hcase hwarm with hnone | ⟨id, schema, hid, hschema⟩
    · simp only [validate, hresolve, hnone]
    · have hschema' : Keyed.find? id r'.loaded = some schema := hagrees.loaded ▸ hschema
      simp only [validate, hresolve, hid, check, load_of_loaded hschema, load_of_loaded hschema',
        hagrees.compiled hschema]

theorem Asks.repeats {f : Registry → α × Registry} (h : Asks f) : Repeats f := by
  induction h with
  | pure a => exact ⟨fun _ => .refl _, fun _ _ => rfl⟩
  | @bind α β f g _ _ ihf ihg =>
    constructor
    case agrees =>
      intro r hwarm
      have hfirst := ihf.agrees hwarm
      exact hfirst.trans ((ihg _).agrees (hwarm.of_agrees hfirst))
    case same =>
      intro r r' hwarm hagrees
      have hfirst : (f r').1 = (f r).1 := ihf.same hwarm hagrees
      have hboth : (f r).2.Agrees (f r').2 :=
        ((ihf.agrees hwarm).symm.trans hagrees).trans (ihf.agrees (hwarm.of_agrees hagrees))
      simp only [hfirst]
      exact (ihg _).same (hwarm.of_agrees (ihf.agrees hwarm)) hboth
  | resolve _ ih =>
    constructor
    case agrees => exact fun hwarm => (ih _).agrees hwarm
    case same =>
      intro r r' hwarm hagrees
      simp only [hagrees.resolve?_eq]
      exact (ih _).same hwarm hagrees
  | validate url value => exact repeats_validate url value

/-! ## Warming up

Addresses lead to the schemas of the kinds, and these are what warming up reads. -/

/-- Every address leads to the schema of a kind, and schemas are read under their own ids. -/
structure Known (r : Registry) : Prop where
  aliases : ∀ {name id}, Keyed.find? name r.aliases = some id → ∃ kind : Kind, kind.schemaId = id
  named : ∀ {id schema}, Keyed.find? id r.loaded = some schema → schema.id = id

theorem Known.registerAlias (h : r.Known) (url : String) (kind : Kind) :
    (r.registerAlias url kind.schemaId).Known := by
  refine ⟨fun {name id} hfind => ?_, h.named⟩
  by_cases hname : normalizeUrl url = name
  · subst hname
    rw [Registry.registerAlias, Keyed.find?_insert_self] at hfind
    exact ⟨kind, Option.some.inj hfind⟩
  · rw [Registry.registerAlias, Keyed.find?_insert_of_ne hname] at hfind
    exact h.aliases hfind

theorem Known.load (h : r.Known) (id : String) : (r.load id).2.Known := by
  cases hfind : Keyed.find? id r.loaded with
  | some schema =>
    rw [load_of_loaded hfind]
    exact h
  | none =>
    simp only [Registry.load, hfind]
    refine ⟨h.aliases, fun {other schema} hother => ?_⟩
    by_cases hid : id = other
    · subst hid
      rw [Keyed.find?_insert_self] at hother
      rw [← Option.some.inj hother, id_readSchema]
    · rw [Keyed.find?_insert_of_ne hid] at hother
      exact h.named hother

end Registry

namespace Settings

variable {settings : Settings} {folder? : Option (Keyed String)} {registry : Registry}

end Settings

end PolicyAudit
