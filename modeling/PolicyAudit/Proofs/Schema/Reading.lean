-- SUMMARY: A report goes by the schemas that had been read when its own one was first checked against.
import Mathlib.Data.List.Induction
import Mathlib.Data.List.TakeDrop
import Mathlib.Data.List.TakeWhile
import PolicyAudit.Proofs.Schema.Standalone
import PolicyAudit.Proofs.Schema.Warmth

/-! ## Calls

A registry is told to read a schema, to read all of them, or to check a value. It starts with its folder and
its aliases alone. -/

namespace PolicyAudit

namespace Registry

/-- What a registry is told. -/
inductive Call where
  | load (id : String)
  | warmUp
  | validate (url : String) (value : Json)

variable {start start' r r' : Registry} {schema : LoadedSchema} {calls calls' : List Call} {call : Call}
variable {id other url : String} {ids ids' : List String} {value : Json}

/-- A registry that has read nothing. -/
def fresh (folder? : Option (Keyed String)) (aliases : Keyed String) (listing : Listing) : Registry :=
  ⟨folder?, aliases, [], [], listing⟩

/-- The registry after a call. -/
def perform (r : Registry) : Call → Registry
  | .load id => (r.load id).2
  | .warmUp => r.warmUp
  | .validate url value => (r.validate url value).2

/-- A registry after some calls. -/
def after (r : Registry) (calls : List Call) : Registry := calls.foldl perform r

/-- A registry that has read schemas one after another. -/
def reading (r : Registry) (ids : List String) : Registry := ids.foldl (fun r id => (r.load id).2) r

/-- The ids of the schemas that a call reads. -/
def reads (r : Registry) : Call → List String
  | .load id => [id]
  | .warmUp => Kind.all.map Kind.schemaId
  | .validate url _ => (r.resolve? url).toList

/-- Whether a call checks a value against a schema. -/
def checks (r : Registry) (id : String) : Call → Bool
  | .validate url _ => r.resolve? url = some id
  | .load _ | .warmUp => false

/-- The ids of the schemas that are read until a schema is first checked against, its own among them. -/
def readBefore (r : Registry) (id : String) (calls : List Call) : List String :=
  (calls.takeWhile fun call => !r.checks id call).flatMap r.reads ++ [id]

/-- A schema compiled when just some schemas have been read. -/
def compiledAmong (r : Registry) (ids : List String) (id : String) : CompiledSchema :=
  (r.reading ids).compileSchema (r.readSchema id)

/-- The report on a value when just some schemas had been read as its own one was compiled. -/
def reportAmong (r : Registry) (ids : List String) (id : String) (value : Json) : StructureReport :=
  ⟨id, discrepancies (r.compiledAmong ids id) value, (r.readSchema id).isFallback⟩

/-! ## What has been read -/

theorem reading_snoc (r : Registry) (ids : List String) (id : String) :
    r.reading (ids ++ [id]) = ((r.reading ids).load id).2 := by
  rw [reading, List.foldl_append]
  rfl

theorem reading_append (r : Registry) (ids ids' : List String) :
    r.reading (ids ++ ids') = (r.reading ids).reading ids' := List.foldl_append

theorem warmUp_eq_reading (r : Registry) : r.warmUp = r.reading (Kind.all.map Kind.schemaId) := by
  rw [reading, List.foldl_map]
  rfl

theorem reading_grows (r : Registry) (ids : List String) : r.GrowsInto (r.reading ids) := by
  induction ids generalizing r with
  | nil => exact .refl r
  | cons id ids ih => exact (load_grows r id).trans (ih (r.load id).2)

theorem find?_loaded_load_of_ne (r : Registry) (h : id ≠ other) :
    Keyed.find? other (r.load id).2.loaded = Keyed.find? other r.loaded := by
  unfold Registry.load
  split
  · rfl
  · exact Keyed.find?_insert_of_ne h ..

theorem compiled_load (r : Registry) (id : String) : (r.load id).2.compiled = r.compiled := by
  unfold Registry.load
  split <;> rfl

theorem compiled_reading (r : Registry) (ids : List String) : (r.reading ids).compiled = r.compiled := by
  induction ids generalizing r with
  | nil => rfl
  | cons id ids ih => exact (ih (r.load id).2).trans (compiled_load r id)

theorem ascending_load (h : r.loaded.Ascending) (id : String) : (r.load id).2.loaded.Ascending := by
  unfold Registry.load
  split
  · exact h
  · exact h.insert id _

theorem ascending_reading (h : r.loaded.Ascending) (ids : List String) : (r.reading ids).loaded.Ascending := by
  induction ids generalizing r with
  | nil => exact h
  | cons id ids ih => exact ih (ascending_load h id)

/-- What has been read are the files of the folder under the ids that were asked for. -/
theorem find?_loaded_reading (hstart : start.loaded = []) (ids : List String) (id : String) :
    Keyed.find? id (start.reading ids).loaded = if id ∈ ids then some (start.readSchema id) else none := by
  induction ids using List.reverseRecOn with
  | nil => rw [reading, List.foldl_nil, hstart, Keyed.find?_nil, if_neg List.not_mem_nil]
  | append_singleton ids last ih =>
    rw [reading_snoc]
    by_cases hlast : last = id
    · subst hlast
      rw [find?_loaded_load, if_pos (List.mem_append_right _ (List.mem_singleton_self _))]
      cases hfind : Keyed.find? last (start.reading ids).loaded with
      | some schema =>
        rw [load_of_loaded hfind, ← hfind, ih]
        split
        · rfl
        · next hnot =>
          rw [ih, if_neg hnot] at hfind
          cases hfind
      | none =>
        rw [Registry.load, hfind]
        exact congrArg some (readSchema_congr (reading_grows start ids).folder last)
    · rw [find?_loaded_load_of_ne _ hlast, ih]
      simp [Ne.symm hlast]

theorem listing_load (r : Registry) (id : String) : (r.load id).2.listing = r.listing := by
  unfold Registry.load
  split <;> rfl

theorem listing_reading (r : Registry) (ids : List String) : (r.reading ids).listing = r.listing := by
  induction ids generalizing r with
  | nil => rfl
  | cons id ids ih => exact (ih (r.load id).2).trans (listing_load r id)

/-- Two registries with one folder that have read nothing. -/
structure StartsLike (start start' : Registry) : Prop where
  folder : start'.folder? = start.folder?
  none : start.loaded = []
  none' : start'.loaded = []

namespace StartsLike

/-- What has been read is what was asked for, in whatever order. -/
theorem loaded_reading (h : start.StartsLike start') (hids : ∀ id, id ∈ ids ↔ id ∈ ids') :
    (start'.reading ids').loaded = (start.reading ids).loaded := by
  have hascending : start.loaded.Ascending := h.none ▸ Keyed.ascending_nil
  have hascending' : start'.loaded.Ascending := h.none' ▸ Keyed.ascending_nil
  apply (ascending_reading hascending' ids').ext (ascending_reading hascending ids)
  intro id
  simp only [find?_loaded_reading h.none, find?_loaded_reading h.none', hids id, readSchema_congr h.folder]

/-- A schema is compiled to the same among the same schemas, if they are gone through in the same order or no
address is declared twice. -/
theorem compiledAmong (h : start.StartsLike start') (hids : ∀ id, id ∈ ids ↔ id ∈ ids')
    (hlisting : start'.listing = start.listing ∨ (start.reading ids).Unambiguous) (id : String) :
    start'.compiledAmong ids' id = start.compiledAmong ids id := by
  have hlibrary : (start'.reading ids').library = (start.reading ids).library := by
    apply library_congr (h.loaded_reading hids)
    rwa [listing_reading, listing_reading]
  rw [Registry.compiledAmong, Registry.compiledAmong, readSchema_congr h.folder]
  exact compileSchema_congr hlibrary _

end StartsLike

theorem find?_compiled_compile_of_ne (r : Registry) (h : schema.id ≠ other) :
    Keyed.find? other (r.compile schema).2.compiled = Keyed.find? other r.compiled := by
  unfold Registry.compile
  split
  · rfl
  · exact Keyed.find?_insert_of_ne h ..

/-- Two registries with one folder and one order that have read the same. -/
structure ReadsLike (r r' : Registry) : Prop where
  folder : r'.folder? = r.folder?
  loaded : r'.loaded = r.loaded
  listing : r'.listing = r.listing

namespace ReadsLike

theorem library_eq (h : r.ReadsLike r') : r'.library = r.library := library_congr h.loaded (.inl h.listing)

theorem load (h : r.ReadsLike r') (id : String) : (r.load id).2.ReadsLike (r'.load id).2 := by
  have hread := readSchema_congr h.folder id
  unfold Registry.load
  rw [h.loaded, hread]
  cases Keyed.find? id r.loaded with
  | some schema => exact h
  | none => exact ⟨h.folder, rfl, h.listing⟩

theorem reading (h : r.ReadsLike r') (ids : List String) : (r.reading ids).ReadsLike (r'.reading ids) := by
  induction ids generalizing r r' with
  | nil => exact h
  | cons id ids ih => exact ih (h.load id)

theorem compile (h : r.ReadsLike r') (schema : LoadedSchema) : r.ReadsLike (r'.compile schema).2 := by
  unfold Registry.compile
  split
  · exact h
  · exact ⟨h.folder, h.loaded, h.listing⟩

/-- A schema is read as it stands in the folder. -/
theorem fst_load (hstart : start.loaded = []) (h : (start.reading ids).ReadsLike r) (id : String) :
    (r.load id).1 = start.readSchema id := by
  have hnext := h.load id
  rw [← reading_snoc] at hnext
  have hfind := find?_loaded_load r id
  rw [hnext.loaded, find?_loaded_reading hstart,
    if_pos (List.mem_append_right _ (List.mem_singleton_self _))] at hfind
  exact (Option.some.inj hfind).symm

end ReadsLike

/-! ## What a registry recalls

A schema is compiled when it is first checked against, and that is what every later check uses. -/

theorem takeWhile_of_unchecked (h : calls.any (start.checks id) = false) :
    (calls.takeWhile fun call => !start.checks id call) = calls := by
  rw [List.takeWhile_eq_self_iff]
  intro call hcall
  rw [List.any_eq_false] at h
  simpa using h call hcall

theorem readBefore_of_unchecked (h : calls.any (start.checks id) = false) :
    start.readBefore id calls = calls.flatMap start.reads ++ [id] := by
  rw [readBefore, takeWhile_of_unchecked h]

theorem readBefore_snoc_of_checked (h : calls.any (start.checks id) = true) :
    start.readBefore id (calls ++ [call]) = start.readBefore id calls := by
  have hstops : (calls.takeWhile fun call => !start.checks id call).length ≠ calls.length := by
    intro hlength
    obtain ⟨checking, hmem, hchecks⟩ := List.any_eq_true.mp h
    have hself := (List.takeWhile_prefix fun call => !start.checks id call).eq_of_length hlength
    have hkept := List.takeWhile_eq_self_iff.mp hself checking hmem
    simp [hchecks] at hkept
  rw [readBefore, List.takeWhile_append, if_neg hstops, readBefore]

/-- A check against a schema comes after what has been read by then. -/
theorem readBefore_snoc_of_checks (h : start.checks id call = true) :
    start.readBefore id (calls ++ [call]) = start.readBefore id calls := by
  cases hchecked : calls.any (start.checks id) with
  | true => exact readBefore_snoc_of_checked hchecked
  | false =>
    have hself := takeWhile_of_unchecked hchecked
    rw [readBefore, readBefore, List.takeWhile_append, hself, if_pos rfl, List.takeWhile_cons_of_neg (by simp [h]),
      List.append_nil]

/-- What a schema is compiled to by the calls that have been made, if it has been checked against. -/
def recalled? (start : Registry) (calls : List Call) (id : String) : Option CompiledSchema :=
  if calls.any (start.checks id) then some (start.compiledAmong (start.readBefore id calls) id) else none

theorem recalled?_of_checks (h : start.checks id call = true) :
    start.recalled? (calls ++ [call]) id = some (start.compiledAmong (start.readBefore id calls) id) := by
  rw [recalled?, if_pos (by simp [h]), readBefore_snoc_of_checks h]

theorem recalled?_of_not_checks (h : start.checks id call = false) :
    start.recalled? (calls ++ [call]) id = start.recalled? calls id := by
  have hany : (calls ++ [call]).any (start.checks id) = calls.any (start.checks id) := by simp [h]
  rw [recalled?, recalled?, hany]
  split
  · next hchecked => rw [readBefore_snoc_of_checked hchecked]
  · rfl

/-- After some calls a registry has read what it was asked for, and each schema that has been checked
against is compiled as it was the first time. -/
structure Recalls (start : Registry) (calls : List Call) (r : Registry) : Prop where
  aliases : r.aliases = start.aliases
  read : (start.reading (calls.flatMap start.reads)).ReadsLike r
  compiled : ∀ id, Keyed.find? id r.compiled = start.recalled? calls id

namespace Recalls

theorem nil (hcompiled : start.compiled = []) : Recalls start [] start where
  aliases := rfl
  read := ⟨rfl, rfl, rfl⟩
  compiled := fun id => by
    rw [hcompiled]
    rfl

theorem resolve?_eq (h : Recalls start calls r) (url : String) : r.resolve? url = start.resolve? url := by
  simp only [resolve?, h.aliases]

/-- What a check finds compiled. -/
theorem fst_compile (hstart : start.loaded = []) (h : Recalls start calls r) (id : String) :
    ((r.load id).2.compile (r.load id).1).1 = start.compiledAmong (start.readBefore id calls) id := by
  rw [h.read.fst_load hstart id]
  have hid : (start.readSchema id).id = id := id_readSchema start id
  have hfind : Keyed.find? (start.readSchema id).id (r.load id).2.compiled = start.recalled? calls id := by
    rw [hid, compiled_load, h.compiled]
  cases hchecked : calls.any (start.checks id) with
  | true =>
    rw [recalled?, if_pos hchecked] at hfind
    rw [compile_of_compiled hfind]
  | false =>
    rw [recalled?, hchecked] at hfind
    have hread := h.read.load id
    rw [← reading_snoc, ← readBefore_of_unchecked hchecked] at hread
    rw [Registry.compile, hfind]
    exact compileSchema_congr hread.library_eq _

/-- One check. -/
theorem check (hstart : start.loaded = []) (h : Recalls start calls r) (hreads : start.reads call = [id])
    (hchecks : ∀ other, start.checks other call = true ↔ id = other) (value : Json) :
    Recalls start (calls ++ [call]) (r.check id value).2 := by
  have hread : (start.reading ((calls ++ [call]).flatMap start.reads)).ReadsLike (r.load id).2 := by
    rw [List.flatMap_append, List.flatMap_singleton, hreads, reading_snoc]
    exact h.read.load id
  refine ⟨?_, hread.compile (r.load id).1, fun other => ?_⟩
  · exact ((load_grows r id).trans (compile_grows _ (r.load id).1)).aliases.trans h.aliases
  · have hid : (r.load id).1.id = id := by rw [h.read.fst_load hstart id, id_readSchema]
    cases hother : start.checks other call with
    | true =>
      obtain rfl := (hchecks other).mp hother
      have hfind := find?_compiled_compile (r.load id).2 (r.load id).1
      rw [hid, h.fst_compile hstart] at hfind
      rw [recalled?_of_checks hother]
      exact hfind
    | false =>
      have hne : (r.load id).1.id ≠ other := by
        rw [hid]
        intro hsame
        rw [(hchecks other).mpr hsame] at hother
        cases hother
      rw [recalled?_of_not_checks hother, ← h.compiled other, ← compiled_load r id]
      exact find?_compiled_compile_of_ne _ hne

/-- A call that checks nothing. -/
theorem read_only (h : Recalls start calls r) (hreads : start.reads call = ids)
    (hchecks : ∀ other, start.checks other call = false) :
    Recalls start (calls ++ [call]) (r.reading ids) where
  aliases := (reading_grows r ids).aliases.trans h.aliases
  read := by
    rw [List.flatMap_append, List.flatMap_singleton, hreads, reading_append]
    exact h.read.reading ids
  compiled := fun other => by
    rw [compiled_reading, recalled?_of_not_checks (hchecks other), h.compiled]

theorem perform (hstart : start.loaded = []) (h : Recalls start calls r) (call : Call) :
    Recalls start (calls ++ [call]) (r.perform call) := by
  cases call with
  | load id =>
    have hreads : start.reads (.load id) = [id] := rfl
    exact h.read_only hreads fun _ => rfl
  | warmUp =>
    rw [Registry.perform, warmUp_eq_reading]
    exact h.read_only rfl fun _ => rfl
  | validate url value =>
    rw [Registry.perform]
    cases hid : r.resolve? url with
    | none =>
      have hnone := (h.resolve?_eq url).symm.trans hid
      have hskip : (r.validate url value).2 = r.reading [] := by
        rw [Registry.validate, hid]
        rfl
      rw [hskip]
      apply h.read_only
      · rw [Registry.reads, hnone]
        rfl
      · intro other
        simp [checks, hnone]
    | some id =>
      have hsome := (h.resolve?_eq url).symm.trans hid
      rw [validate_of_resolve? hid]
      apply h.check hstart _ _ value
      · rw [Registry.reads, hsome]
        rfl
      · intro other
        simp [checks, hsome]

theorem after (hloaded : start.loaded = []) (hcompiled : start.compiled = []) (calls : List Call) :
    Recalls start calls (start.after calls) := by
  induction calls using List.reverseRecOn with
  | nil => exact nil hcompiled
  | append_singleton calls call ih =>
    rw [Registry.after, List.foldl_append]
    exact ih.perform hloaded call

/-- A report is the one of the time when the schema was first checked against. -/
theorem fst_validate (hstart : start.loaded = []) (h : Recalls start calls r)
    (hid : start.resolve? url = some id) (value : Json) :
    (r.validate url value).1 = .ok (start.reportAmong (start.readBefore id calls) id value) := by
  rw [validate_of_resolve? ((h.resolve?_eq url).trans hid)]
  have hcompiled := h.fst_compile hstart id
  have hread := h.read.fst_load hstart id
  rw [Registry.check]
  dsimp only
  rw [hcompiled, hread]
  rfl

end Recalls

/-! ## Reports after calls

The calls before a check matter only through the schemas that had been read when its schema was first
checked against, and not even those matter to a schema that refers to none of the others. -/

/-- No reference of a document, with the name of its language or without it, leads to the address that a
schema of the folder declares. -/
def SelfContained (r : Registry) (document : Json) : Prop :=
  ∀ address, CompiledSchema.RefersTo document address ∨
      CompiledSchema.RefersTo (document.erase "$schema") address →
    ∀ id text, declared? (r.readSchema id).document = some text → text.toList ≠ address.whole.render

theorem SelfContained.independent {document : Json} (hstart : start.loaded = [])
    (h : start.SelfContained document) (ids : List String) : (start.reading ids).Independent document := by
  have hread : ∀ id schema, (id, schema) ∈ (start.reading ids).loaded → schema = start.readSchema id := by
    intro id schema hmem
    have hascending : start.loaded.Ascending := hstart ▸ List.Pairwise.nil
    have hfind := (ascending_reading hascending ids).find?_eq_some_of_mem hmem
    rw [find?_loaded_reading hstart] at hfind
    split at hfind
    · exact (Option.some.inj hfind).symm
    · cases hfind
  constructor
  · apply apart_library
    rintro address hrefers id schema text hmem htext
    obtain rfl := hread id schema hmem
    exact h address (.inl hrefers) id text htext
  · apply apart_library
    rintro address hrefers id schema text hmem htext
    obtain rfl := hread id schema hmem
    exact h address (.inr hrefers) id text htext

/-- Whatever is asked of two registries that start alike, but for the orders in which they go through their
schemas: an address leads to the same schema in both. The reports on a value are those of the times when the
schema was first checked against, so that they are the same just if the schema as it was compiled then finds the
same in the value. That is so when the same schemas had been read by then, with the orders the same or no address
declared by two of them, and always when the schema refers to none of the others. -/
theorem validate_of_calls (folder? : Option (Keyed String)) (aliases : Keyed String) (listing listing' : Listing)
    (calls calls' : List Call) (url : String) (value : Json) :
    let start := fresh folder? aliases listing
    let start' := fresh folder? aliases listing'
    let result := ((start.after calls).validate url value).1
    let result' := ((start'.after calls').validate url value).1
    (start.resolve? url = none →
      result = .error (.notFound s!"schema '{url}'") ∧ result' = .error (.notFound s!"schema '{url}'")) ∧
    ∀ id, start.resolve? url = some id →
      let before := start.readBefore id calls
      let before' := start'.readBefore id calls'
      result = .ok (start.reportAmong before id value) ∧ result' = .ok (start'.reportAmong before' id value) ∧
        (result = result' ↔ discrepancies (start.compiledAmong before id) value =
          discrepancies (start'.compiledAmong before' id) value) ∧
        ((∀ other, other ∈ before ↔ other ∈ before') →
          listing' = listing ∨ (start.reading before).Unambiguous → result = result') ∧
        (start.SelfContained (start.readSchema id).document → result = result') := by
  intro start start' result result'
  have hrecalls : ∀ calls, Recalls start calls (start.after calls) := Recalls.after rfl rfl
  have hrecalls' : ∀ calls, Recalls start' calls (start'.after calls) := Recalls.after rfl rfl
  have hlike : start.StartsLike start' := ⟨rfl, rfl, rfl⟩
  constructor
  · intro hnone
    constructor
    · dsimp only [result]
      rw [Registry.validate, (hrecalls calls).resolve?_eq, hnone]
    · have hnone' : start'.resolve? url = none := hnone
      dsimp only [result']
      rw [Registry.validate, (hrecalls' calls').resolve?_eq, hnone']
  · intro id hid before before'
    have hresult : result = .ok (start.reportAmong before id value) := (hrecalls calls).fst_validate rfl hid value
    have hresult' : result' = .ok (start'.reportAmong before' id value) :=
      (hrecalls' calls').fst_validate rfl hid value
    have hiff : result = result' ↔ discrepancies (start.compiledAmong before id) value =
        discrepancies (start'.compiledAmong before' id) value := by
      rw [hresult, hresult', Except.ok.injEq, reportAmong, reportAmong, StructureReport.mk.injEq]
      exact ⟨fun h => h.2.1, fun h => ⟨rfl, h, rfl⟩⟩
    refine ⟨hresult, hresult', hiff, fun hsame hlisting => hiff.mpr ?_, fun hself => hiff.mpr ?_⟩
    · rw [hlike.compiledAmong hsame hlisting]
    · have hself' : start'.SelfContained (start.readSchema id).document := hself
      have hread : start'.readSchema id = start.readSchema id := readSchema_congr hlike.folder id
      rw [compiledAmong, compiledAmong, hread,
        compileSchema_of_independent (hself.independent rfl before) (hself'.independent rfl before')]

/-- The same schemas are read in two orders of calls, and gone through in two orders, before a value is first checked
against the one that refers to another one. -/
theorem validate_of_calls_of_reordered :
    let folder? := some [("policy-assignment", "\x7b\"$id\": \"http://a/\", \"type\": \"object\"\x7d"),
      ("policy-definition", "\x7b\"$ref\": \"http://a/\"\x7d")]
    let calls := [Call.warmUp]
    let calls' := [Call.load "policy-set-definition", .warmUp, .validate "policy-definition" (.object [])]
    let result := (((fresh folder? [] .byId).after calls).validate "policy-definition" .null).1
    result.toOption.map StructureReport.valid = some false ∧
      result = (((fresh folder? [] .reversed).after calls').validate "policy-definition" .null).1 := by
  intro folder? calls calls' result
  obtain ⟨-, hreports⟩ := validate_of_calls folder? [] .byId .reversed calls calls' "policy-definition" .null
  have hid : (fresh folder? [] .byId).resolve? "policy-definition" = some "policy-definition" := by decide +kernel
  obtain ⟨-, -, -, hsame, -⟩ := hreports _ hid
  have hbefore : (fresh folder? [] .byId).readBefore "policy-definition" calls =
      ["policy-definition", "policy-set-definition", "policy-assignment", "policy-definition"] := by decide +kernel
  have hbefore' : (fresh folder? [] .reversed).readBefore "policy-definition" calls' =
      ["policy-set-definition", "policy-definition", "policy-set-definition", "policy-assignment",
        "policy-definition"] := by decide +kernel
  refine ⟨by decide +kernel, hsame (fun other => ?_) (.inr (by decide +kernel))⟩
  rw [hbefore, hbefore']
  simp only [List.mem_cons, List.not_mem_nil, or_false]
  grind

/-- A reference to a schema that has not been read yet is passed over, and it stays so. -/
theorem validate_misses_unread :
    let start := fresh (some [("policy-assignment", "\x7b\"$id\": \"http://a/\", \"type\": \"object\"\x7d"),
      ("policy-definition", "\x7b\"$ref\": \"http://a/\"\x7d")]) [] .byId
    let valid? := fun calls =>
      ((start.after calls).validate "policy-definition" .null).1.toOption.map StructureReport.valid
    valid? [] = some true ∧ valid? [.validate "policy-definition" .null, .warmUp] = some true ∧
      valid? [.warmUp] = some false := by
  decide +kernel

/-- Of two schemas that declare one address, a reference gets the one that is listed last. -/
example :
    let start := fresh (some [("policy-assignment", "\x7b\"$id\": \"http://a/\", \"type\": \"object\"\x7d"),
      ("policy-definition", "\x7b\"$ref\": \"http://a/\"\x7d"),
      ("policy-set-definition", "\x7b\"$id\": \"http://a/\"\x7d")]) []
    let valid? := fun listing =>
      (((start listing).after [.warmUp]).validate "policy-definition" .null).1.toOption.map StructureReport.valid
    valid? .byId = some true ∧ valid? .reversed = some false := by
  decide +kernel

end Registry

end PolicyAudit
