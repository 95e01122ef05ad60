-- SUMMARY: Which violations a report shows, and which it leaves out.
import PolicyAudit.Proofs.Schema.Growth

/-! ## Messages about unknown languages

A message is taken to be about the language of a schema by its words alone. Messages show parts of the
value, so those words may come from there. -/

namespace PolicyAudit

namespace Discrepancy

/-- A text has a verb that ends its word, and later on the same line a noun. -/
def Mentions (text : List Char) : Prop :=
  ∃ before verb gap noun after, text = before ++ (verb ++ (gap ++ (noun ++ after))) ∧
    (∃ word ∈ unknownWords, Text.ReadsAs word.toList verb) ∧
    endsWord (gap ++ noun) = true ∧ '\n' ∉ gap ∧ languageWords.Fits noun

private theorem endsWord_append {text : List Char} (h : text ≠ []) (after : List Char) :
    endsWord (text ++ after) = endsWord text := by
  cases text with
  | nil => cases h rfl
  | cons c text => rfl

private theorem verb_ne_nil {word : String} (hword : word ∈ unknownWords) :
    ¬ Text.ReadsAs word.toList [] := by
  have hnonempty : ∀ w ∈ unknownWords, w.toList ≠ [] := by decide
  intro h
  generalize htext : word.toList = chars at h
  cases h
  exact hnonempty word hword htext

private theorem noun_ne_nil {noun : List Char} (h : languageWords.Fits noun) : noun ≠ [] := by
  have hnonempty : ∀ words ∈ languageWords, ∀ w ∈ words, w.toList ≠ [] := by decide
  cases h with
  | @cons words _ word read more hword hread hmore =>
    intro hnil
    obtain ⟨rfl, -⟩ := List.append_eq_nil_iff.mp hnil
    generalize htext : word.toList = chars at hread
    cases hread
    exact hnonempty _ (List.mem_singleton.mpr rfl) word hword htext

theorem startsUnknownLanguage_iff {text : List Char} :
    startsUnknownLanguage text = true ↔
      ∃ verb gap noun after, text = verb ++ (gap ++ (noun ++ after)) ∧
        (∃ word ∈ unknownWords, Text.ReadsAs word.toList verb) ∧
        endsWord (gap ++ noun) = true ∧ '\n' ∉ gap ∧ languageWords.Fits noun := by
  have hends : ∀ {gap noun} (after : List Char), languageWords.Fits noun →
      endsWord (gap ++ (noun ++ after)) = endsWord (gap ++ noun) := by
    intro gap noun after hnoun
    rw [← List.append_assoc]
    exact endsWord_append (by simp [noun_ne_nil hnoun]) after
  simp only [startsUnknownLanguage, List.any_eq_true]
  constructor
  · rintro ⟨word, hword, h⟩
    split at h
    · next rest hstrip =>
      obtain ⟨verb, hverb, rfl⟩ := Text.stripWord?_eq_some_iff.mp hstrip
      simp only [Bool.and_eq_true] at h
      obtain ⟨gap, noun, after, hgap, hnoun, rfl⟩ := Text.Pattern.occursOnLine_iff.mp h.2
      rw [hends after hnoun] at h
      exact ⟨verb, gap, noun, after, rfl, ⟨word, hword, hverb⟩, h.1, hgap, hnoun⟩
    · cases h
  · rintro ⟨verb, gap, noun, after, rfl, ⟨word, hword, hverb⟩, hword', hgap, hnoun⟩
    have hstrip := Text.stripWord?_eq_some_iff.mpr
      ⟨verb, hverb, (rfl : verb ++ (gap ++ (noun ++ after)) = _)⟩
    have hoccurs := Text.Pattern.occursOnLine_iff.mpr
      ⟨gap, noun, after, hgap, hnoun, rfl⟩
    refine ⟨word, hword, ?_⟩
    simp only [hstrip, hends after hnoun, hword', hoccurs, Bool.and_self]

theorem mentionsUnknownLanguage_iff {text : List Char} :
    mentionsUnknownLanguage text = true ↔ Mentions text := by
  induction text with
  | nil =>
    simp only [mentionsUnknownLanguage, Bool.false_eq_true, false_iff]
    rintro ⟨before, verb, gap, noun, after, htext, ⟨word, hword, hverb⟩, -⟩
    obtain ⟨-, hrest⟩ := List.append_eq_nil_iff.mp htext.symm
    obtain ⟨rfl, -⟩ := List.append_eq_nil_iff.mp hrest
    exact verb_ne_nil hword hverb
  | cons c text ih =>
    simp only [mentionsUnknownLanguage, Bool.or_eq_true, ih, startsUnknownLanguage_iff]
    constructor
    · rintro (⟨verb, gap, noun, after, h⟩ | ⟨before, verb, gap, noun, after, rfl, h⟩)
      · exact ⟨[], verb, gap, noun, after, h⟩
      · exact ⟨c :: before, verb, gap, noun, after, rfl, h⟩
    · rintro ⟨before, verb, gap, noun, after, htext, h⟩
      cases before with
      | nil => exact .inl ⟨verb, gap, noun, after, htext, h⟩
      | cons b before =>
        obtain ⟨rfl, rfl⟩ := List.cons.inj htext
        exact .inr ⟨before, verb, gap, noun, after, rfl, h⟩

theorem isUnknownLanguage_iff {message : String} :
    isUnknownLanguage message = true ↔ Mentions message.toList := mentionsUnknownLanguage_iff

/-- What has such words has them also as a part of something longer. -/
theorem Mentions.append {text : List Char} (h : Mentions text) (before after : List Char) :
    Mentions (before ++ (text ++ after)) := by
  obtain ⟨before', verb, gap, noun, after', rfl, hverb, hends, hgap, hnoun⟩ := h
  exact ⟨before ++ before', verb, gap, noun, after' ++ after, by simp, hverb, hends, hgap, hnoun⟩

end Discrepancy

namespace ViolationCause

/-- The value that a message shows. -/
def shown? : ViolationCause → Option Json
  | wrongType value _ | notListed value _ | tooShort value _ | tooLong value _
  | noAlternative value | severalAlternatives value | noOption value | forbidden value
  | tooFew value _ | repeated value | tooSmall value _ | notGreater value _
  | misformatted value _ => some value
  | missing _ | unexpected _ => none

/-- A message shows the value at its start, or at its end where nothing is allowed. -/
theorem message_of_shown? {cause : ViolationCause} {value : Json} (h : cause.shown? = some value) :
    (∃ after, cause.message = value.render ++ after) ∨
      ∃ before, cause.message = before ++ value.render := by
  cases cause <;> simp only [shown?, Option.some.injEq, reduceCtorEq] at h
  all_goals
    subst h
    delta message
  case forbidden => exact .inr ⟨_, rfl⟩
  case noAlternative => exact .inl ⟨_, rfl⟩
  case severalAlternatives => exact .inl ⟨_, rfl⟩
  case noOption => exact .inl ⟨_, rfl⟩
  case repeated => exact .inl ⟨_, rfl⟩
  all_goals exact .inl ⟨_, String.append_assoc ..⟩

/-- What a value says can make a message look as if it were about the language of a schema. -/
theorem mentions_of_shown? {cause : ViolationCause} {value : Json}
    (h : cause.shown? = some value) (hvalue : Discrepancy.Mentions value.render.toList) :
    Discrepancy.Mentions cause.message.toList := by
  rcases message_of_shown? h with ⟨after, hmessage⟩ | ⟨before, hmessage⟩
  · rw [hmessage, String.toList_append]
    exact hvalue.append [] after.toList
  · rw [hmessage, String.toList_append]
    have hend := hvalue.append before.toList []
    rwa [List.append_nil] at hend

end ViolationCause

/-! ## New registries -/

namespace Registry

variable {folder? : Option (Keyed String)} {listing : Listing} {r : Registry} {id url : String}

/-- The addresses known from the start, in the form that addresses are compared in. -/
def knownAliases : Keyed String :=
  [("https://raw.githubusercontent.com/azure/enterprise-azure-policy-as-code/main/schemas/policy-assignment-schema.json",
      "policy-assignment"),
    ("https://raw.githubusercontent.com/azure/enterprise-azure-policy-as-code/main/schemas/policy-definition-schema.json",
      "policy-definition"),
    ("https://raw.githubusercontent.com/azure/enterprise-azure-policy-as-code/main/schemas/policy-set-definition-schema.json",
      "policy-set-definition"),
    ("https://schema.management.azure.com/schemas/2019-09-01/policyassignment.json", "policy-assignment"),
    ("https://schema.management.azure.com/schemas/2019-09-01/policydefinition.json", "policy-definition"),
    ("https://schema.management.azure.com/schemas/2019-09-01/policysetdefinition.json", "policy-set-definition")]

theorem normalize_builtinAliases : builtinAliases.map (fun pair => (normalizeUrl pair.1, pair.2)) =
    [1, 2, 0, 4, 5, 3].filterMap (knownAliases[·]?) := by
  simp only [normalizeUrl, Text.foldCase, String.toList_ofList]
  decide +kernel

theorem foldl_registerAlias (pairs : List (String × String)) (r : Registry) :
    let normal := pairs.map fun pair => (normalizeUrl pair.1, pair.2)
    pairs.foldl (fun r (url, id) => r.registerAlias url id) r =
      { r with aliases := normal.foldl (fun aliases pair => Keyed.insert pair.1 pair.2 aliases) r.aliases } := by
  induction pairs generalizing r with
  | nil => rfl
  | cons pair pairs ih => exact ih _

/-- A new registry knows some addresses and has read nothing. -/
theorem new_eq (folder? : Option (Keyed String)) (listing : Listing) :
    new folder? listing = ⟨folder?, knownAliases, [], [], listing⟩ := by
  have hinserted : ([1, 2, 0, 4, 5, 3].filterMap (knownAliases[·]?)).foldl
      (fun aliases pair => Keyed.insert pair.1 pair.2 aliases) [] = knownAliases := by decide +kernel
  rw [new, foldl_registerAlias, normalize_builtinAliases, hinserted]

/-! ## Schemas in force -/

/-- The registries that a folder of schemas and an order to go through them lead to. -/
inductive Reached (folder? : Option (Keyed String)) (listing : Listing) : Registry → Prop where
  | new : Reached folder? listing (.new folder? listing)
  | registerAlias {r : Registry} (url id : String) : Reached folder? listing r →
      Reached folder? listing (r.registerAlias url id)
  | load {r : Registry} (id : String) : Reached folder? listing r → Reached folder? listing (r.load id).2
  | validate {r : Registry} (url : String) (value : Json) : Reached folder? listing r →
      Reached folder? listing (r.validate url value).2

/-- What a registry has read and compiled comes from the files of its folder. -/
structure Faithful (folder? : Option (Keyed String)) (listing : Listing) (r : Registry) : Prop where
  folder : r.folder? = folder?
  loaded : ∀ {id schema}, Keyed.find? id r.loaded = some schema → schema = r.readSchema id
  compiled : ∀ {id schema}, Keyed.find? id r.compiled = some schema →
    ∃ earlier, Reached folder? listing earlier ∧ schema = earlier.compileSchema (earlier.readSchema id)

theorem readSchema_congr {r r' : Registry} (h : r'.folder? = r.folder?) (id : String) :
    r'.readSchema id = r.readSchema id := by
  simp only [readSchema, readDocument?, h]

theorem id_readSchema (r : Registry) (id : String) : (r.readSchema id).id = id := by
  unfold readSchema
  split <;> rfl

theorem folder?_load (r : Registry) (id : String) : (r.load id).2.folder? = r.folder? :=
  (load_grows r id).folder

theorem resolve?_registerAlias (r : Registry) (url id : String) :
    (r.registerAlias url id).resolve? url = some id := by
  simp only [resolve?, registerAlias, Keyed.find?_insert_self]

theorem faithful_new (folder? : Option (Keyed String)) (listing : Listing) :
    Faithful folder? listing (.new folder? listing) := by
  rw [new_eq]
  exact ⟨rfl, nofun, nofun⟩

theorem Faithful.load (h : Faithful folder? listing r) (id : String) :
    Faithful folder? listing (r.load id).2 ∧ (r.load id).1 = r.readSchema id := by
  cases hfind : Keyed.find? id r.loaded with
  | some schema =>
    rw [load_of_loaded hfind]
    exact ⟨h, h.loaded hfind⟩
  | none =>
    simp only [Registry.load, hfind]
    refine ⟨⟨h.folder, ?_, h.compiled⟩, trivial⟩
    intro other schema hother
    by_cases hid : id = other
    · subst hid
      rw [Keyed.find?_insert_self] at hother
      exact (Option.some.inj hother).symm
    · rw [Keyed.find?_insert_of_ne hid] at hother
      exact h.loaded hother

theorem Faithful.compile (h : Faithful folder? listing r) (hreached : Reached folder? listing r) (id : String) :
    Faithful folder? listing (r.compile (r.readSchema id)).2 := by
  cases hfind : Keyed.find? (r.readSchema id).id r.compiled with
  | some compiled =>
    rw [compile_of_compiled hfind]
    exact h
  | none =>
    simp only [Registry.compile, hfind]
    refine ⟨h.folder, h.loaded, ?_⟩
    intro other schema hother
    by_cases hid : (r.readSchema id).id = other
    · rw [hid, Keyed.find?_insert_self] at hother
      rw [id_readSchema] at hid
      subst hid
      exact ⟨r, hreached, (Option.some.inj hother).symm⟩
    · rw [Keyed.find?_insert_of_ne hid] at hother
      exact h.compiled hother

theorem Faithful.validate (h : Faithful folder? listing r) (hreached : Reached folder? listing r) (url : String)
    (value : Json) : Faithful folder? listing (r.validate url value).2 := by
  unfold Registry.validate
  cases r.resolve? url with
  | none => exact h
  | some id =>
    obtain ⟨hload, hschema⟩ := h.load id
    have hread : (r.load id).1 = (r.load id).2.readSchema id :=
      hschema.trans (readSchema_congr (folder?_load r id) id).symm
    have hcompile := hload.compile (hreached.load id) id
    rw [← hread] at hcompile
    exact hcompile

theorem Reached.faithful (h : Reached folder? listing r) : Faithful folder? listing r := by
  induction h with
  | new => exact faithful_new folder? listing
  | registerAlias url id _ ih => exact ⟨ih.folder, ih.loaded, ih.compiled⟩
  | load id _ ih => exact (ih.load id).1
  | validate url value hreached ih => exact ih.validate hreached url value

/-- The compiled schema that values are checked with comes from the document under its id. -/
theorem Reached.compiled (h : Reached folder? listing r) (id : String) :
    ∃ earlier, Reached folder? listing earlier ∧
      ((r.load id).2.compile (r.load id).1).1 = earlier.compileSchema (earlier.readSchema id) := by
  have hfaithful := (h.load id).faithful
  have hschema : (r.load id).1 = (r.load id).2.readSchema id :=
    (h.faithful.load id).2.trans (readSchema_congr (folder?_load r id) id).symm
  rw [hschema]
  have hcompiled := (hfaithful.compile (h.load id) id).compiled
    (find?_compiled_compile (r.load id).2 ((r.load id).2.readSchema id))
  rwa [id_readSchema] at hcompiled

/-! ## Reports

A report shows every violation whose message does not have the words, and so it calls a value valid
exactly if all its violations have them. -/

/-- What a value says hides a violation that shows it. -/
theorem not_mem_discrepancies_of_shown? {v : Violation} {shown : Json} (hshown : v.cause.shown? = some shown)
    (hwords : Discrepancy.Mentions shown.render.toList) (schema : CompiledSchema) (value : Json) :
    Discrepancy.ofViolation v ∉ discrepancies schema value := by
  intro hreported
  have hunknown : Discrepancy.isUnknownLanguage v.cause.message = true :=
    Discrepancy.isUnknownLanguage_iff.mpr (ViolationCause.mentions_of_shown? hshown hwords)
  have hkept := (List.mem_filter.mp hreported).2
  rw [Discrepancy.ofViolation, hunknown] at hkept
  cases hkept

theorem validate_of_resolve? (hid : r.resolve? url = some id) (value : Json) :
    r.validate url value = (.ok (r.check id value).1, (r.check id value).2) := by
  simp only [validate, hid]

theorem validate_of_reached (h : Reached folder? listing r) (hid : r.resolve? url = some id)
    (value : Json) :
    ∃ earlier report, Reached folder? listing earlier ∧ (r.validate url value).1 = .ok report ∧
      report.schemaId = id ∧ report.isFallback = (earlier.readSchema id).isFallback ∧
      let violations := (earlier.compileSchema (earlier.readSchema id)).violations value
      report.errors = (violations.map Discrepancy.ofViolation).filter
          (fun d => !Discrepancy.isUnknownLanguage d.message) ∧
        (report.errors = violations.map Discrepancy.ofViolation ↔
          ∀ v ∈ violations, ¬ Discrepancy.Mentions v.cause.message.toList) ∧
        (report.valid = true ↔
          ∀ v ∈ violations, Discrepancy.Mentions v.cause.message.toList) := by
  obtain ⟨earlier, hearlier, hcompiled⟩ := h.compiled id
  have hread : (r.load id).1 = earlier.readSchema id := by
    rw [(h.faithful.load id).2]
    exact readSchema_congr (h.faithful.folder.trans hearlier.faithful.folder.symm) id
  have hcheck : (r.validate url value).1 = .ok (r.check id value).1 := by
    rw [validate_of_resolve? hid]
  have herrors : (r.check id value).1.errors =
      discrepancies (earlier.compileSchema (earlier.readSchema id)) value :=
    congrArg (discrepancies · value) hcompiled
  refine ⟨earlier, _, hearlier, hcheck, rfl, congrArg LoadedSchema.isFallback hread, herrors, ?_, ?_⟩
  · rw [herrors, discrepancies, List.filter_eq_self]
    simp only [List.forall_mem_map, Bool.not_eq_true', Discrepancy.ofViolation,
      ← Discrepancy.isUnknownLanguage_iff, Bool.not_eq_true]
  · rw [StructureReport.valid, herrors, discrepancies, List.isEmpty_iff, List.filter_eq_nil_iff]
    simp only [List.forall_mem_map, Bool.not_eq_true', Discrepancy.ofViolation,
      ← Discrepancy.isUnknownLanguage_iff, Bool.not_eq_false]

theorem validate_of_reached_hides :
    ∃ report, (((Registry.new none).registerAlias "p" "policy-definition").validate "p"
        (.string "unknown specification")).1 = .ok report ∧ report.valid = true ∧
      (∃ earlier, Reached none .byId earlier ∧
        ∀ v ∈ (earlier.compileSchema (earlier.readSchema "policy-definition")).violations
          (.string "unknown specification"), Discrepancy.Mentions v.cause.message.toList) ∧
      ((Registry.new none).compileSchema ((Registry.new none).readSchema "policy-definition")
        |>.violations (.string "unknown specification")) ≠ [] := by
  have hresolve := resolve?_registerAlias (.new none) "p" "policy-definition"
  have hnew : Reached none .byId (.new none) := .new
  have hreached := hnew.registerAlias "p" "policy-definition"
  obtain ⟨earlier, report, hearlier, hok, -, -, -, -, hvalid⟩ :=
    validate_of_reached hreached hresolve (.string "unknown specification")
  have hcheck := congrArg Prod.fst
    (validate_of_resolve? hresolve (.string "unknown specification"))
  have hnone : report.valid = true := by
    rw [Except.ok.inj (hok.symm.trans hcheck)]
    decide +kernel
  exact ⟨report, hok, hnone, ⟨earlier, hearlier, hvalid.mp hnone⟩, by decide +kernel⟩

end Registry

end PolicyAudit
