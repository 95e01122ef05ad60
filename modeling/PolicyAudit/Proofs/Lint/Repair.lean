-- SUMMARY: Where the value of one node is repaired, the rules report one thing less, and nothing else changes.
import PolicyAudit.Proofs.Lint.Marks
import PolicyAudit.Proofs.Syntax.Quoting

/-! ## Repaired nodes -/

namespace PolicyAudit

theorem Json.eq_string_of_string? {value : Json} {text : String} (h : value.string? = some text) :
    value = .string text := by
  unfold string? at h
  split at h
  · rw [Option.some.inj h]
  · cases h

namespace Assignment

variable {value value' root' : Json} {node : Node} {part found holder : Part} {path : Path} {ctx ctx' : Context}
variable {mark : String × Option Path} {inherited : Bool}

/-- The paths of the nodes of a document, each with those of the names on it. -/
def outline (value : Json) : List (Path × List Path) :=
  (nodes value).map fun node => (node.part.path, (names node.part).map (·.1.path))

/-- Another value repairs a node: it may take the place of the node's value, and the rules then report the
mark no more. One member changes, which is no sign of the kind. -/
structure Node.Repairs (node : Node) (value' : Json) (mark : String × Option Path) : Prop where
  admits : node.Admits value'
  alike : ∃ name, Json.AlikeBut name node.part.value value' ∧
    ∀ field ∈ Kind.signFields, name ∉ field.spellings
  places : (names ⟨node.part.path, value'⟩).map (·.1.path) = (names node.part).map (·.1.path)
  loses : ∀ ctx ctx',
    Loses mark (marks nameCheck ctx node) (marks nameCheck ctx' (node.withValue value')) ∧
        marks scopeCheck ctx' (node.withValue value') = marks scopeCheck ctx node ∨
      marks nameCheck ctx' (node.withValue value') = marks nameCheck ctx node ∧
        Loses mark (marks scopeCheck ctx node) (marks scopeCheck ctx' (node.withValue value'))
  references : ∀ ctx ctx',
    marks referenceCheck ctx' (node.withValue value') = marks referenceCheck ctx node

namespace Node.Repairs

/-- The document loses what its node loses. -/
theorem report_loses (h : node.Repairs value' mark) (hnode : node ∈ nodes ctx.value)
    (hputs : Json.Puts value' node.part.path ctx.value ctx'.value) : Loses mark (report ctx) (report ctx') := by
  rw [report_eq, report_eq, steady_referenceCheck.flatMap_eq hnode hputs h.admits (h.references ctx ctx')]
  rcases h.loses ctx ctx' with ⟨hnames, hscopes⟩ | ⟨hnames, hscopes⟩
  · rw [steady_scopeCheck.flatMap_eq hnode hputs h.admits hscopes]
    exact (steady_nameCheck.flatMap_loses hnode hputs h.admits hnames).append [] _
  · rw [steady_nameCheck.flatMap_eq hnode hputs h.admits hnames]
    exact (steady_scopeCheck.flatMap_loses hnode hputs h.admits hscopes).append _ _

theorem outline_eq (h : node.Repairs value' mark) (hnode : node ∈ nodes value)
    (hputs : Json.Puts value' node.part.path value root') : outline root' = outline value := by
  let row (node : Node) := [(node.part.path, (names node.part).map (·.1.path))]
  have hrow : ∀ a b, Node.Alike a b → row b = row a := fun a b hab => by
    have hnames := names_of_fields (hab.field .assignment (by decide)) (hab.field .entries (by decide))
    simp only [row, hab.path, hnames]
  have hkept : row (node.withValue value') = row node := by
    simp only [row, Node.withValue, h.places]
  obtain ⟨before, after, hold, hnew⟩ := flatMap_nodesFrom hrow hnode rfl hputs h.admits
  rw [hkept, ← hold] at hnew
  rw [outline, outline, List.map_eq_flatMap, List.map_eq_flatMap]
  exact hnew

/-- Seen from the top of the document one member changes, and that is no sign of the kind either. -/
theorem kind_eq (h : node.Repairs value' mark) (hnode : node ∈ nodes value)
    (hputs : Json.Puts value' node.part.path value root') (hname : value.hasField .nodeName = true) :
    Kind.of? root' = Kind.of? value := by
  have hvalue : value.isObject = true := isObject_of_mem_nodesFrom hnode
  obtain ⟨name, halike, hsign⟩ := h.alike
  rw [nodes, nodesFrom_of_isObject false hvalue] at hnode
  rcases List.mem_cons.mp hnode with rfl | hbelow
  · cases hputs with
    | here => exact Kind.of?_of_alikeBut halike hsign (h.admits.isObject.trans hvalue.symm) hname
  · obtain ⟨child, hchild, hmem⟩ := List.mem_flatMap.mp hbelow
    obtain ⟨rest, hrest⟩ := path_of_mem_nodesFrom hmem
    obtain ⟨name, hchildren, -, -, -, halike, hroot, -⟩ := Part.fieldItems_of_puts hchild hputs hrest
    refine Kind.of?_of_alikeBut halike (fun field hfield => ?_) (hroot.trans hvalue.symm) hname
    have hne : ∀ field ∈ Kind.signFields, Field.children ≠ field := by decide
    exact Field.not_mem_spellings hchildren (hne field hfield)

end Node.Repairs

/-- A scope covers the node that has it. -/
theorem covered_of_hasField (h : node ∈ nodesFrom inherited part)
    (hscope : node.part.value.hasField .scope = true) : node.covered = true := by
  fun_induction nodesFrom inherited part with
  | case1 inherited part hobject covered ih =>
    rcases List.mem_cons.mp h with rfl | hbelow
    · simp [covered, hscope]
    · obtain ⟨⟨child, hchild⟩, -, hmem⟩ := List.mem_flatMap.mp hbelow
      exact ih child hchild hmem
  | case2 => cases h

theorem field?_scope_of_bare (hnode : node ∈ nodesFrom inherited part) (hbare : node.covered = false) :
    node.part.value.field? .scope = none := by
  cases hscope : node.part.value.hasField .scope with
  | false => simpa [Json.hasField] using hscope
  | true => cases hbare.symm.trans (covered_of_hasField hnode hscope)

/-! ## Names cut off -/

theorem exists_of_name? {text : String} (h : name? holder = some (found, text)) :
    ∃ key name assignment, holder.value.spelling? .assignment = some (key, assignment) ∧
      assignment.spelling? .name = some (name, .string text) ∧
      found = ⟨holder.path ++ [.name key, .name name], .string text⟩ := by
  obtain ⟨_, hassignment, h⟩ := Option.bind_eq_some_iff.mp h
  obtain ⟨⟨key, assignment⟩, hkey, rfl⟩ := Option.map_eq_some_iff.mp hassignment
  obtain ⟨_, hfound, h⟩ := Option.bind_eq_some_iff.mp h
  obtain ⟨⟨name, inner⟩, hname, rfl⟩ := Option.map_eq_some_iff.mp hfound
  obtain ⟨_, htext, h⟩ := Option.bind_eq_some_iff.mp h
  obtain ⟨rfl, rfl⟩ := Prod.mk.inj (Option.some.inj h)
  obtain rfl := Json.eq_string_of_string? htext
  exact ⟨key, name, assignment, hkey, hname, by simp⟩

theorem name?_of_spelling? {key name text : String} {assignment : Json}
    (hkey : holder.value.spelling? .assignment = some (key, assignment))
    (hname : assignment.spelling? .name = some (name, .string text)) :
    name? holder = some (⟨holder.path ++ [.name key, .name name], .string text⟩, text) := by
  simp [name?, Part.field?, hkey, hname, Json.string?]

variable {text new : String}

/-- The part that holds an assignment, with another name on it. -/
theorem name?_of_puts (h : name? holder = some (found, text))
    (hputs : Json.Puts (.string new) path holder.value value') (hpath : holder.path ++ path = found.path) :
    ∃ key ∈ Field.assignment.spellings, Json.AlikeBut key holder.value value' ∧ value'.isObject = true ∧
      name? ⟨holder.path, value'⟩ = some (⟨found.path, .string new⟩, new) := by
  obtain ⟨key, name, assignment, hkey, hname, rfl⟩ := exists_of_name? h
  obtain rfl : path = [.name key, .name name] := List.append_cancel_left hpath
  obtain ⟨assignment', hkey', hbelow, halike⟩ := hputs.exists_of_spelling? hkey
  obtain ⟨_, hname', hput, -⟩ := hbelow.exists_of_spelling? hname
  cases hput with
  | here =>
    have hnew : name? ⟨holder.path, value'⟩ = some (⟨holder.path ++ [.name key, .name name], .string new⟩, new) :=
      name?_of_spelling? hkey' hname'
    exact ⟨key, Json.mem_spellings_of_spelling? hkey, halike, Json.isObject_of_spelling? hkey', hnew⟩

/-- The names on a node, and its entries as references, before and after one of the names is replaced. -/
theorem names_of_puts (h : (found, text) ∈ names part)
    (hputs : Json.Puts (.string new) path part.value value') (hpath : part.path ++ path = found.path) :
    ∃ field ∈ [Field.assignment, .entries], ∃ key ∈ field.spellings, Json.AlikeBut key part.value value' ∧
      value'.isObject = true ∧
      (∃ before after, names part = before ++ (found, text) :: after ∧
        names ⟨part.path, value'⟩ = before ++ (⟨found.path, .string new⟩, new) :: after) ∧
      ((⟨part.path, value'⟩ : Part).field? .entries).isSome = (part.field? .entries).isSome ∧
      ∀ ctx ctx',
        ((((⟨part.path, value'⟩ : Part).field? .entries).map Part.items).getD []).flatMap
            (fun item => (referenceIssues ctx' item).map Issue.mark) =
          (((part.field? .entries).map Part.items).getD []).flatMap
            (fun item => (referenceIssues ctx item).map Issue.mark) := by
  obtain ⟨holder, hholder, hname⟩ := List.mem_filterMap.mp h
  rcases List.mem_cons.mp hholder with rfl | hentry
  · obtain ⟨key, hkey, halike, hobject, hnew⟩ := name?_of_puts hname hputs hpath
    have hentries : (⟨holder.path, value'⟩ : Part).field? .entries = holder.field? .entries :=
      Part.field?_of_alikeBut halike hkey (by decide)
    refine ⟨.assignment, by decide, key, hkey, halike, hobject,
      ⟨[], (((holder.field? .entries).map Part.items).getD []).filterMap name?, ?_, ?_⟩, by rw [hentries], ?_⟩
    · rw [names, holders, List.filterMap_cons_some hname, List.nil_append]
    · rw [names, holders, List.filterMap_cons_some hnew, hentries, List.nil_append]
    · intro ctx ctx'
      rw [hentries]
      congr 1
      funext item
      exact mark_referenceIssues rfl fun _ _ => rfl
  · obtain ⟨key, name, _, -, -, hfound⟩ := exists_of_name? hname
    have hrest : found.path = holder.path ++ [.name key, .name name] := by rw [hfound]
    obtain ⟨key, hkey, inner, before, after, halike, hobject, hinner, hold, hnew⟩ :=
      Part.fieldItems_of_puts hentry hputs (hpath.trans hrest)
    obtain ⟨key', hkey', halike', -, hname'⟩ := name?_of_puts hname hinner hrest.symm
    have hassignment : name? ⟨part.path, value'⟩ = name? part := by
      rw [name?, name?, Part.field?_of_alikeBut halike hkey (by decide)]
    refine ⟨.entries, by decide, key, hkey, halike, hobject,
      ⟨(part :: before).filterMap name?, after.filterMap name?, ?_, ?_⟩, ?_, ?_⟩
    · rw [names, holders, hold, ← List.cons_append, List.filterMap_append, List.filterMap_cons_some hname]
    · rw [names, holders, hnew, ← List.cons_append, List.filterMap_append, List.filterMap_cons_some hname',
        List.filterMap_cons, List.filterMap_cons, hassignment]
    · rw [Part.isSome_of_fieldItems hold, Part.isSome_of_fieldItems hnew]
    · intro ctx ctx'
      have hsame (item : Part) :
          (referenceIssues ctx' item).map Issue.mark = (referenceIssues ctx item).map Issue.mark :=
        mark_referenceIssues rfl fun _ _ => rfl
      have hholder : (referenceIssues ctx ⟨holder.path, inner⟩).map Issue.mark =
          (referenceIssues ctx holder).map Issue.mark := by
        have hne : ∀ way ∈ Kind.referenceFields, Field.assignment ≠ way.2 := by decide
        exact mark_referenceIssues rfl fun way hway => halike'.field?_eq_of_ne hkey' (hne way hway)
      simp only [hold, hnew, List.flatMap_append, List.flatMap_cons, hsame, hholder]

/-- A name that is cut off repairs its node. -/
theorem Node.repairs_of_name (hnode : node ∈ nodes value) (hname : (found, text) ∈ names node.part)
    (hlong : maxNameLength < text.length) (hshort : new.length ≤ maxNameLength)
    (hputs : Json.Puts (.string new) path node.part.value value')
    (hpath : node.part.path ++ path = found.path) :
    node.Repairs value' (Code.at Code.nameLength found.path) := by
  obtain ⟨field, hfield, key, hkey, halike, hobject, ⟨before, after, hold, hnew⟩, hboth, hitems⟩ :=
    names_of_puts hname hputs hpath
  have hsame (other : Field) (hne : other ∉ [Field.assignment, .entries]) :
      (⟨node.part.path, value'⟩ : Part).field? other = node.part.field? other :=
    Part.field?_of_alikeBut halike hkey fun heq => hne (heq ▸ hfield)
  have hscope : value'.hasField .scope = node.part.value.hasField .scope := by
    have hne : field ≠ .scope := fun heq => absurd (heq ▸ hfield) (by decide)
    rw [Json.hasField, halike.field?_eq_of_ne hkey hne, ← Json.hasField]
  have hchildren : value'.spelling? .children = node.part.value.spelling? .children := by
    have hne : field ≠ .children := fun heq => absurd (heq ▸ hfield) (by decide)
    exact halike.spelling?_eq (Field.not_mem_spellings hkey hne)
  have hcovered : (node.withValue value').covered = node.covered := by
    rw [withValue, hscope]
    cases hhas : node.part.value.hasField .scope with
    | false => simp
    | true => simp [covered_of_hasField hnode hhas]
  have hleaf : (node.withValue value').leaf = node.leaf := by
    rw [Node.leaf, withValue, children_of_spelling? hchildren, ← Node.leaf]
  refine ⟨⟨hobject, hchildren, fun h => hscope.trans h, fun _ => hscope⟩, ⟨key, halike, ?_⟩, ?_, ?_, ?_⟩
  · intro sign hsign
    have hne : ∀ sign ∈ Kind.signFields, sign ∉ [Field.assignment, .entries] := by decide
    exact Field.not_mem_spellings hkey fun heq => hne sign hsign (heq ▸ hfield)
  · simp only [hold, hnew, List.map_append, List.map_cons]
  · intro ctx ctx'
    let report (named : Part × String) := (nameIssues ctx named.1 named.2).map Issue.mark
    refine .inl ⟨⟨before.flatMap report, after.flatMap report, ?_, ?_⟩, ?_⟩
    · rw [marks_nameCheck_eq, hold, List.flatMap_append, List.flatMap_cons, mark_nameIssues_of_lt hlong]
      rfl
    · simp only [marks_nameCheck_eq, withValue, hnew, List.flatMap_append, List.flatMap_cons,
        nameIssues_of_le hshort, List.map_nil, List.nil_append, mark_nameIssues ctx ctx', report]
    · exact marks_scopeCheck rfl hcovered hleaf (hsame .scope (by decide))
  · exact fun ctx ctx' => marks_referenceCheck (hsame .entry (by decide)) hboth (hitems ctx ctx')

/-! ## Scopes added -/

/-- A value that holds the path to be completed, alone or in a list. -/
def IsPlaceholder (value : Json) : Prop := value = placeholderPath ∨ value = .array [placeholderPath]

theorem isScopePath_placeholderPath (environment : String) (ctx : Context) (path : Path) :
    placeIssues ctx environment ⟨path, placeholderPath⟩ = [] := by
  have hpath : isScopePath "/providers/Microsoft.Management/managementGroups/<management-group-id>" = true := by
    decide +kernel
  rw [placeIssues, placeholderPath, Json.string?]
  exact if_pos hpath

/-- Nothing is found about a scope of placeholders. -/
theorem ownScopeIssues_of_placeholders {key : String} {members : List (String × Json)}
    (hscope : part.value.spelling? .scope = some (key, .object members))
    (hmembers : ∀ member ∈ members, IsPlaceholder member.2) (ctx : Context) : ownScopeIssues ctx part = [] := by
  have hfield : part.field? .scope = some ⟨part.path ++ [.name key], .object members⟩ := by
    rw [Part.field?, hscope, Option.map_some]
  rw [ownScopeIssues, hfield]
  refine List.flatMap_eq_nil_iff.mpr fun place hplace => ?_
  obtain ⟨⟨name, inner⟩, hmember, rfl⟩ := List.mem_map.mp hplace
  refine List.flatMap_eq_nil_iff.mpr fun item hitem => ?_
  rcases hmembers _ hmember with hinner | hinner
  · obtain rfl : inner = placeholderPath := hinner
    rw [List.mem_singleton.mp hitem]
    exact isScopePath_placeholderPath ..
  · obtain rfl : inner = .array [placeholderPath] := hinner
    rw [List.mem_singleton.mp hitem]
    exact isScopePath_placeholderPath ..

/-- A scope of placeholders repairs a leaf that no scope covers. -/
theorem Node.repairs_of_scope {members : List (String × Json)} (hnode : node ∈ nodes value)
    (hleaf : node.leaf = true) (hcovered : node.covered = false)
    (halike : Json.AlikeBut "scope" node.part.value value') (hnew : value'.get? "scope" = some (.object members))
    (hmembers : ∀ member ∈ members, IsPlaceholder member.2) :
    node.Repairs value' (Code.at Code.missingScope node.part.path) := by
  have hkey : "scope" ∈ Field.scope.spellings := by decide
  have hnone : node.part.value.field? .scope = none := field?_scope_of_bare hnode hcovered
  have hspelling := halike.spelling?_of_added hnone hkey hnew
  have hhas : value'.hasField .scope = true := by
    rw [Json.hasField, Json.field?, hspelling]
    rfl
  have hsame (other : Field) (hne : Field.scope ≠ other) :
      (⟨node.part.path, value'⟩ : Part).field? other = node.part.field? other :=
    Part.field?_of_alikeBut halike hkey hne
  have hnames : names ⟨node.part.path, value'⟩ = names node.part :=
    names_of_fields (hsame .assignment (by decide)) (hsame .entries (by decide))
  refine ⟨⟨Json.isObject_of_get? hnew, ?_, fun _ => hhas, fun h => ?_⟩, ⟨"scope", halike, by decide⟩, ?_, ?_, ?_⟩
  · exact halike.spelling?_eq (Field.not_mem_spellings hkey (by decide))
  · cases hleaf.symm.trans h
  · rw [hnames]
  · intro ctx ctx'
    refine .inr ⟨marks_nameCheck hnames, ⟨[], [], ?_, ?_⟩⟩
    · have hown : ownScopeIssues ctx node.part = [] := by
        have hfield : node.part.field? .scope = none := by
          simpa [Part.field?, Json.field?] using hnone
        rw [ownScopeIssues, hfield]
      rw [marks, scopeCheck, hown, missingScopeIssues, hleaf, hcovered]
      rfl
    · have hown : ownScopeIssues ctx' ⟨node.part.path, value'⟩ = [] :=
        ownScopeIssues_of_placeholders hspelling hmembers ctx'
      rw [marks, scopeCheck, withValue, hown, missingScopeIssues, hhas, Bool.or_true, Bool.not_true, Bool.and_false]
      rfl
  · exact fun ctx ctx' => marks_referenceCheck_of_fields (hsame .entry (by decide)) (hsame .entries (by decide))

end Assignment

end PolicyAudit
