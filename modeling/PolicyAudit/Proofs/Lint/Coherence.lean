-- SUMMARY: Every document is checked against the schema found for it just if the aliases are coherent.
import Mathlib.Data.List.Induction
import PolicyAudit.Proofs.Lint.Conformance
import PolicyAudit.Proofs.Syntax.RoundTrip

/-! ## Aliases

The last alias for an address counts. An address without one goes by the file name in it or by the bare id. -/

namespace PolicyAudit

namespace Registry

variable {folder? : Option (Keyed String)} {listing : Listing} {pairs : List (String × String)} {r r' : Registry}
variable {url id name target : String}

/-- A new registry with more aliases, made one after the other. -/
def aliasing (folder? : Option (Keyed String)) (listing : Listing) (pairs : List (String × String)) : Registry :=
  pairs.foldl (fun r (url, id) => r.registerAlias url id) (new folder? listing)

/-- The target of the last of some aliases for an address. -/
def lastAlias? (pairs : List (String × String)) (url : String) : Option String :=
  (pairs.reverse.find? fun pair => normalizeUrl pair.1 = normalizeUrl url).map Prod.snd

theorem exists_mem_of_lastAlias? (h : lastAlias? pairs url = some target) :
    ∃ other, (other, target) ∈ pairs ∧ normalizeUrl other = normalizeUrl url := by
  obtain ⟨⟨other, found⟩, hfind, rfl⟩ := Option.map_eq_some_iff.mp h
  exact ⟨other, List.mem_reverse.mp (List.mem_of_find?_eq_some hfind), by simpa using List.find?_some hfind⟩

theorem find?_aliases_foldl (pairs : List (String × String)) (r : Registry) (url : String) :
    Keyed.find? (normalizeUrl url) (pairs.foldl (fun r (url, id) => r.registerAlias url id) r).aliases =
      (lastAlias? pairs url).or (Keyed.find? (normalizeUrl url) r.aliases) := by
  induction pairs using List.reverseRecOn with
  | nil => rfl
  | append_singleton pairs last ih =>
    obtain ⟨other, id⟩ := last
    rw [List.foldl_append, List.foldl_cons, List.foldl_nil, lastAlias?, List.reverse_append]
    generalize pairs.foldl _ r = before at ih ⊢
    by_cases hname : normalizeUrl other = normalizeUrl url
    · simp [registerAlias, hname, Keyed.find?_insert_self]
    · have hlast : ((other, id) :: pairs.reverse).find? (fun pair => normalizeUrl pair.1 = normalizeUrl url) =
          pairs.reverse.find? fun pair => normalizeUrl pair.1 = normalizeUrl url := by simp [hname]
      dsimp only [registerAlias]
      rw [Keyed.find?_insert_of_ne hname, ih, List.reverse_singleton, List.singleton_append, hlast, lastAlias?]

/-- What a registry takes addresses for goes by its aliases alone. -/
theorem resolve?_aliasing (folder? : Option (Keyed String)) (listing : Listing) (pairs : List (String × String))
    (url : String) : (aliasing folder? listing pairs).resolve? url =
      (lastAlias? pairs url).or (((Kind.ofSchemaUrl? url).or (Kind.ofSchemaId? url)).map Kind.schemaId) := by
  have hnew : (new folder? listing).aliases = (new none).aliases := by rw [new_eq, new_eq]
  rw [← resolve?_of_builtin hnew, resolve?, aliasing, find?_aliases_foldl, resolve?]
  cases lastAlias? pairs url with
  | none => rw [Option.none_or, Option.none_or]
  | some target => rw [Option.some_or, Option.some_or]

theorem exists_report_of_resolve? (hid : r.resolve? url = some id) (value : Json) :
    ∃ report, (r.validate url value).1 = .ok report ∧ report.schemaId = id := by
  rw [validate_of_resolve? hid]
  exact ⟨_, rfl, rfl⟩

/-! ## Ids that stand for themselves

What an address leads to is looked up once more when a value is checked against it. -/

/-- An id leads to itself: by the last alias for it, or without one as the id of a schema of some kind. -/
def Stays (pairs : List (String × String)) (id : String) : Prop :=
  lastAlias? pairs id = some id ∨ lastAlias? pairs id = none ∧ ∃ kind : Kind, kind.schemaId = id

theorem resolve?_eq_self_iff : (aliasing folder? listing pairs).resolve? id = some id ↔ Stays pairs id := by
  rw [resolve?_aliasing, Stays, Option.or_eq_some_iff]
  refine or_congr_right (and_congr_right fun _ => ?_)
  constructor
  · intro h
    obtain ⟨kind, -, hid⟩ := Option.map_eq_some_iff.mp h
    exact ⟨kind, hid⟩
  · rintro ⟨kind, rfl⟩
    rw [Kind.ofSchemaUrl?_schemaId, Option.none_or, Kind.ofSchemaId?_schemaId, Option.map_some]

/-- What the aliases and the kinds lead to leads to itself. -/
structure Coherent (pairs : List (String × String)) : Prop where
  targets : ∀ {url target}, lastAlias? pairs url = some target → Stays pairs target
  kinds : ∀ kind : Kind, Stays pairs kind.schemaId

theorem Coherent.stays (h : Coherent pairs) (hid : (aliasing folder? listing pairs).resolve? url = some id) :
    Stays pairs id := by
  rw [resolve?_aliasing] at hid
  rcases Option.or_eq_some_iff.mp hid with hlast | ⟨-, hknown⟩
  · exact h.targets hlast
  · obtain ⟨kind, -, rfl⟩ := Option.map_eq_some_iff.mp hknown
    exact h.kinds kind

/-- Aliases for addresses that are not themselves ids, and with ids for targets, are coherent. -/
theorem coherent_of_ids (h : ∀ url target, (url, target) ∈ pairs →
      (∃ kind : Kind, kind.schemaId = target) ∧
        ∀ kind : Kind, normalizeUrl url = kind.schemaId → target = kind.schemaId) : Coherent pairs := by
  have hkinds : ∀ kind : Kind, Stays pairs kind.schemaId := by
    intro kind
    cases hlast : lastAlias? pairs kind.schemaId with
    | none => exact .inr ⟨hlast, kind, rfl⟩
    | some target =>
      obtain ⟨url, hmem, hname⟩ := exists_mem_of_lastAlias? hlast
      have hid : normalizeUrl kind.schemaId = kind.schemaId := by cases kind <;> decide +kernel
      rw [(h url target hmem).2 kind (hname.trans hid)] at hlast
      exact .inl hlast
  refine ⟨fun {url target} hlast => ?_, hkinds⟩
  obtain ⟨other, hmem, -⟩ := exists_mem_of_lastAlias? hlast
  obtain ⟨⟨kind, rfl⟩, -⟩ := h other target hmem
  exact hkinds kind

end Registry

/-! ## The rule -/

namespace Structural

open Registry

variable {pairs : List (String × String)} {registry : Registry} {ctx : Context} {id : String}

/-- The schema that was found for a document is the one that the rule checks it against. -/
structure ChecksAgainst (registry : Registry) (ctx : Context) (id : String) : Prop where
  again : registry.resolve? id = some id
  reported : ∃ report, (registry.validate id ctx.value).1 = .ok report ∧ report.schemaId = id ∧
    (Rule.schemaValidation.check ctx registry).1 =
      .ok (report.errors.map (issueOf ctx.doc Rule.schemaValidation.id))

theorem check_of_schemaId? (hid : schemaId? registry ctx.value = some id) :
    (Rule.schemaValidation.check ctx registry).1 = (registry.validate id ctx.value).1.map fun report =>
      report.errors.map (issueOf ctx.doc Rule.schemaValidation.id) := by
  simp only [Rule.check, check, hid]
  rcases registry.validate id ctx.value with ⟨_ | _, _⟩ <;> rfl

theorem check_of_resolve? {other : String} (hid : schemaId? registry ctx.value = some id)
    (hother : registry.resolve? id = some other) :
    ∃ report, (registry.validate id ctx.value).1 = .ok report ∧ report.schemaId = other ∧
      (Rule.schemaValidation.check ctx registry).1 =
        .ok (report.errors.map (issueOf ctx.doc Rule.schemaValidation.id)) := by
  obtain ⟨report, hok, hreport⟩ := exists_report_of_resolve? hother ctx.value
  exact ⟨report, hok, hreport, by rw [check_of_schemaId? hid, hok]; rfl⟩

theorem check_of_resolve?_eq_none (hid : schemaId? registry ctx.value = some id)
    (hnone : registry.resolve? id = none) :
    (Rule.schemaValidation.check ctx registry).1 = .error (.notFound s!"schema '{id}'") := by
  rw [check_of_schemaId? hid, validate, hnone]
  rfl

theorem schemaId?_of_declared {value : Json} {url : String} (hurl : value.text? .schema = some url)
    (hid : registry.resolve? url = some id) : schemaId? registry value = some id := by
  rw [schemaId?, hurl, Option.bind_some, hid]

/-! ## Documents

For every address there is a document that declares it, and for every kind one that declares nothing. -/

theorem exists_context_of_url (url : String) :
    ∃ text ctx, Context.ofDocument? (.ofText text) = some ctx ∧ ctx.value.text? .schema = some url := by
  let value := Json.ofMembers [("$schema", .string url)]
  have hsorted : value.Sorted := Json.sorted_ofMembers fun m hm => by
    obtain rfl := List.mem_singleton.mp hm
    exact .scalar _
  have hexact : value.Exact := Json.exact_ofMembers fun m hm => by
    obtain rfl := List.mem_singleton.mp hm
    exact Json.exact_string url
  have hprints : Json.Prints 0 value := hsorted.prints hexact (by decide : 1 ≤ Document.maxDepth)
  obtain ⟨tree, hwrites, hvalue, -⟩ := hprints.writesDocument (.inl rfl)
  obtain ⟨-, htree⟩ := Document.clean_of_writes hwrites
  refine ⟨value.render, ⟨.ofText value.render, value⟩, ?_, rfl⟩
  rw [Context.ofDocument?, Document.value?, htree, Option.map_some, hvalue, Option.map_some]

/-- A document of a kind, by its form alone. -/
def formOf : Kind → String
  | .definition => "\x7b\"policyRule\":\x7b\"if\":\x7b\x7d,\"then\":\x7b\x7d\x7d\x7d"
  | .collection => "\x7b\"policyDefinitions\":[]\x7d"
  | .assignment => "\x7b\"policyDefinitionId\":\"p\"\x7d"

theorem exists_context_of_kind (registry : Registry) (kind : Kind) :
    ∃ text ctx, Context.ofDocument? (.ofText text) = some ctx ∧
      schemaId? registry ctx.value = some kind.schemaId := by
  have hread : (Context.ofDocument? (.ofText (formOf kind))).map
      (fun ctx => (ctx.value.text? .schema, Kind.guess? ctx.value)) = some (none, some kind) := by
    cases kind <;> decide +kernel
  obtain ⟨ctx, hctx, hread⟩ := Option.map_eq_some_iff.mp hread
  obtain ⟨hnone, hkind⟩ := Prod.mk.inj hread
  refine ⟨formOf kind, ctx, hctx, ?_⟩
  rw [schemaId?, hnone, Option.bind_none, hkind, Option.map_some]

/-- **The schema that a document is checked against.** If the aliases are coherent it is the one found for the
document. They are coherent if that is so for the documents of all texts, and if their targets are ids and their
addresses are not. Where an id does not lead to itself, the rule finds no schema for the document or reports on
the schema of another id. -/
theorem check_of_aliases (folder? : Option (Keyed String)) (listing : Listing) (pairs : List (String × String)) :
    let registry := aliasing folder? listing pairs
    (Coherent pairs → ∀ ctx id, schemaId? registry ctx.value = some id → ChecksAgainst registry ctx id) ∧
    ((∀ text ctx id, Context.ofDocument? (.ofText text) = some ctx → schemaId? registry ctx.value = some id →
        ChecksAgainst registry ctx id) → Coherent pairs) ∧
    ((∀ url target, (url, target) ∈ pairs → (∃ kind : Kind, kind.schemaId = target) ∧
        ∀ kind : Kind, normalizeUrl url = kind.schemaId → target = kind.schemaId) → Coherent pairs) ∧
    ∀ ctx id, schemaId? registry ctx.value = some id → ¬ Stays pairs id →
      (Rule.schemaValidation.check ctx registry).1 = .error (.notFound s!"schema '{id}'") ∨
      ∃ report, (registry.validate id ctx.value).1 = .ok report ∧ report.schemaId ≠ id ∧
        (Rule.schemaValidation.check ctx registry).1 =
          .ok (report.errors.map (issueOf ctx.doc Rule.schemaValidation.id)) := by
  intro registry
  refine ⟨?_, ?_, coherent_of_ids, ?_⟩
  · intro hcoherent ctx id hid
    have hstays : Stays pairs id := by
      rw [schemaId?] at hid
      split at hid
      · next found hfound =>
        obtain ⟨url, -, hresolve⟩ := Option.bind_eq_some_iff.mp hfound
        exact Option.some.inj hid ▸ hcoherent.stays hresolve
      · obtain ⟨kind, -, rfl⟩ := Option.map_eq_some_iff.mp hid
        exact hcoherent.kinds kind
    have hagain : registry.resolve? id = some id := resolve?_eq_self_iff.mpr hstays
    exact ⟨hagain, check_of_resolve? hid hagain⟩
  · intro hchecks
    have hstays : ∀ {text ctx id}, Context.ofDocument? (.ofText text) = some ctx →
        schemaId? registry ctx.value = some id → Stays pairs id := fun hctx hid =>
      resolve?_eq_self_iff.mp (hchecks _ _ _ hctx hid).again
    refine ⟨fun {url target} hlast => ?_, fun kind => ?_⟩
    · have hid : registry.resolve? url = some target := by rw [resolve?_aliasing, hlast, Option.some_or]
      obtain ⟨text, ctx, hctx, hurl⟩ := exists_context_of_url url
      exact hstays hctx (schemaId?_of_declared hurl hid)
    · obtain ⟨text, ctx, hctx, hid⟩ := exists_context_of_kind registry kind
      exact hstays hctx hid
  · intro ctx id hid hstays
    cases hagain : registry.resolve? id with
    | none => exact .inl (check_of_resolve?_eq_none hid hagain)
    | some other =>
      obtain ⟨report, hok, hreport, hcheck⟩ := check_of_resolve? hid hagain
      refine .inr ⟨report, hok, ?_, hcheck⟩
      rintro hsame
      exact hstays (resolve?_eq_self_iff.mp (hagain.trans (congrArg some (hreport.symm.trans hsame))))

/-- An address of long standing that stands for the schema of definitions. -/
theorem check_of_aliases_of_legacy :
    let pairs := [("https://example.com/legacy/def.json", "policy-definition")]
    let registry := aliasing none .byId pairs
    ∃ ctx, Context.ofDocument? (.ofText "\x7b\"$schema\":\"https://example.com/Legacy/def.json#\"\x7d") = some ctx ∧
      schemaId? registry ctx.value = some "policy-definition" ∧ Coherent pairs ∧
      ChecksAgainst registry ctx "policy-definition" := by
  intro pairs registry
  have hread : (Context.ofDocument? (.ofText
      "\x7b\"$schema\":\"https://example.com/Legacy/def.json#\"\x7d")).map (·.value.text? .schema) =
        some (some "https://example.com/Legacy/def.json#") := by decide +kernel
  obtain ⟨ctx, hctx, hurl⟩ := Option.map_eq_some_iff.mp hread
  have hid : schemaId? registry ctx.value = some "policy-definition" := by
    have hlast : lastAlias? pairs "https://example.com/Legacy/def.json#" = some "policy-definition" := by
      decide +kernel
    exact schemaId?_of_declared hurl (by rw [resolve?_aliasing, hlast, Option.some_or])
  obtain ⟨hchecks, -, hids, -⟩ := check_of_aliases none .byId pairs
  have hcoherent : Coherent pairs := by
    apply hids
    intro url target hmem
    obtain ⟨rfl, rfl⟩ := Prod.mk.inj (List.mem_singleton.mp hmem)
    exact ⟨⟨.definition, rfl⟩, fun kind => by cases kind <;> decide +kernel⟩
  exact ⟨ctx, hctx, hid, hcoherent, hchecks hcoherent ctx _ hid⟩

/-- An alias whose target is no id of a schema: the registry itself knows the schema, but the rule does not find
it. -/
theorem check_fails_of_alias :
    let url := "https://example.com/team.json"
    let id := "team"
    let registry := aliasing none .byId [(url, id)]
    ∃ ctx, Context.ofDocument? (.ofText "\x7b\"$schema\":\"https://example.com/team.json\"\x7d") = some ctx ∧
      schemaId? registry ctx.value = some id ∧ registry.resolve? id = none ∧
      (∃ report, (registry.validate url ctx.value).1 = .ok report ∧ report.schemaId = id) ∧
      (Rule.schemaValidation.check ctx registry).1 = .error (.notFound s!"schema '{id}'") := by
  intro url id registry
  have hread : (Context.ofDocument? (.ofText "\x7b\"$schema\":\"https://example.com/team.json\"\x7d")).map
      (·.value.text? .schema) = some (some url) := by decide +kernel
  obtain ⟨ctx, hctx, hdeclared⟩ := Option.map_eq_some_iff.mp hread
  have hlast : lastAlias? [(url, id)] url = some id ∧ lastAlias? [(url, id)] id = none := by decide +kernel
  have hunknown : (Kind.ofSchemaUrl? id).or (Kind.ofSchemaId? id) = none := by decide +kernel
  have hurl : registry.resolve? url = some id := by rw [resolve?_aliasing, hlast.1, Option.some_or]
  have hnone : registry.resolve? id = none := by
    rw [resolve?_aliasing, hlast.2, hunknown, Option.none_or, Option.map_none]
  have hid : schemaId? registry ctx.value = some id := schemaId?_of_declared hdeclared hurl
  exact ⟨ctx, hctx, hid, hnone, exists_report_of_resolve? hurl ctx.value, check_of_resolve?_eq_none hid hnone⟩

end Structural

end PolicyAudit
