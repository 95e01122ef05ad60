-- SUMMARY: What the rules for trees of assignments report, by codes and paths, and what of it depends on one node.
import PolicyAudit.Proofs.Lint.Nodes

/-! ## One thing less -/

namespace PolicyAudit

/-- One list is the other without one of its elements. -/
def Loses {α : Type} (a : α) (l l' : List α) : Prop :=
  ∃ before after, l = before ++ a :: after ∧ l' = before ++ after

namespace Loses

variable {α : Type} {a : α} {l l' : List α}

theorem append (h : Loses a l l') (before after : List α) :
    Loses a (before ++ (l ++ after)) (before ++ (l' ++ after)) := by
  obtain ⟨front, back, rfl, rfl⟩ := h
  exact ⟨before ++ front, back ++ after, by simp, by simp⟩

theorem countP_add_one (h : Loses a l l') {p : α → Bool} (ha : p a = true) :
    l'.countP p + 1 = l.countP p := by
  obtain ⟨front, back, rfl, rfl⟩ := h
  rw [List.countP_append, List.countP_append, List.countP_cons_of_pos ha, Nat.add_assoc]

theorem filter_eq (h : Loses a l l') {p : α → Bool} (ha : p a = false) : l'.filter p = l.filter p := by
  obtain ⟨front, back, rfl, rfl⟩ := h
  rw [List.filter_append, List.filter_append, List.filter_cons_of_neg (by simp [ha])]

end Loses

/-! ## Marks -/

/-- What a finding reports, and about which part: its code and its path. -/
def Issue.mark (issue : Issue) : String × Option Path := (issue.code, issue.path?)

/-- The mark of a finding with a code at a path. -/
def Code.at (code : String) (path : Path) : String × Option Path := (code, Path.ofJson? path.toJson)

theorem Issue.path?_of_data {issue : Issue} {path : Path} {more : List (String × Json)}
    (h : issue.data = .ofMembers (("path", path.toJson) :: more)) :
    issue.path? = Path.ofJson? path.toJson := by
  rw [path?, h, Json.get?_ofMembers, Keyed.find?_cons, if_pos rfl, Option.bind_some]

namespace Assignment

/-! ## Checks of one node -/

/-- The findings about the names on a node. -/
def nameCheck (ctx : Context) (node : Node) : List Issue :=
  (names node.part).flatMap fun (part, name) => nameIssues ctx part name

/-- The findings about the scope of a node. -/
def scopeCheck (ctx : Context) (node : Node) : List Issue :=
  missingScopeIssues ctx node ++ ownScopeIssues ctx node.part

/-- The findings about the references on a node. -/
def referenceCheck (ctx : Context) (node : Node) : List Issue :=
  bothIssues ctx node.part ++ (references node.part).flatMap (referenceIssues ctx)

/-- What a check reports of a node, by codes and paths. -/
def marks (check : Context → Node → List Issue) (ctx : Context) (node : Node) : List (String × Option Path) :=
  (check ctx node).map Issue.mark

/-- What the checks report of a document, by codes and paths. -/
def report (ctx : Context) : List (String × Option Path) :=
  (checkNames ctx ++ (checkScopes ctx ++ checkReferences ctx)).map Issue.mark

theorem report_eq (ctx : Context) :
    report ctx = (nodes ctx.value).flatMap (marks nameCheck ctx) ++
      ((nodes ctx.value).flatMap (marks scopeCheck ctx) ++
        (nodes ctx.value).flatMap (marks referenceCheck ctx)) := by
  have hcheck (check : Context → Node → List Issue) :
      ((nodes ctx.value).flatMap (check ctx)).map Issue.mark = (nodes ctx.value).flatMap (marks check ctx) :=
    List.map_flatMap
  rw [report, List.map_append, List.map_append, ← hcheck, ← hcheck, ← hcheck]
  rfl

variable {ctx ctx' : Context} {node node' : Node} {part part' : Part}

theorem names_of_fields (hassignment : part'.field? .assignment = part.field? .assignment)
    (hentries : part'.field? .entries = part.field? .entries) : names part' = names part := by
  have hname : name? part' = name? part := by simp only [name?, hassignment]
  rw [names, names, holders, holders, List.filterMap_cons, List.filterMap_cons, hname, hentries]

theorem nameIssues_of_le {name : String} (h : name.length ≤ maxNameLength) (ctx : Context) (part : Part) :
    nameIssues ctx part name = [] := if_pos h

theorem mark_nameIssues_of_lt {name : String} (h : maxNameLength < name.length) (ctx : Context) (part : Part) :
    (nameIssues ctx part name).map Issue.mark = [Code.at Code.nameLength part.path] := by
  unfold nameIssues
  dsimp only
  rw [if_neg (Nat.not_le.mpr h)]
  rfl

theorem mark_nameIssues (ctx ctx' : Context) (part : Part) (name : String) :
    (nameIssues ctx' part name).map Issue.mark = (nameIssues ctx part name).map Issue.mark := by
  rcases Nat.lt_or_ge maxNameLength name.length with h | h
  · rw [mark_nameIssues_of_lt h, mark_nameIssues_of_lt h]
  · rw [nameIssues_of_le h, nameIssues_of_le h]

theorem marks_nameCheck_eq (ctx : Context) (node : Node) : marks nameCheck ctx node =
    (names node.part).flatMap fun named => (nameIssues ctx named.1 named.2).map Issue.mark := List.map_flatMap

theorem marks_nameCheck (h : names node'.part = names node.part) :
    marks nameCheck ctx' node' = marks nameCheck ctx node := by
  simp only [marks_nameCheck_eq, h, mark_nameIssues ctx ctx']

theorem mark_missingScopeIssues (ctx ctx' : Context) (hpath : node'.part.path = node.part.path)
    (hcovered : node'.covered = node.covered) (hleaf : node'.leaf = node.leaf) :
    (missingScopeIssues ctx' node').map Issue.mark = (missingScopeIssues ctx node).map Issue.mark := by
  simp only [missingScopeIssues, hcovered, hleaf]
  split
  · simp only [List.map_cons, List.map_nil, Issue.mark, hpath]
    rfl
  · rfl

theorem mark_ownScopeIssues (ctx ctx' : Context) (hscope : part'.field? .scope = part.field? .scope) :
    (ownScopeIssues ctx' part').map Issue.mark = (ownScopeIssues ctx part).map Issue.mark := by
  unfold ownScopeIssues
  rw [hscope]
  split
  · rfl
  · split
    · simp only [List.map_flatMap]
      congr 1
      funext entry
      obtain ⟨environment, part⟩ := entry
      congr 1
      funext place
      unfold placeIssues
      split
      · split <;> rfl
      · rfl
    · rfl

theorem marks_scopeCheck (hpath : node'.part.path = node.part.path) (hcovered : node'.covered = node.covered)
    (hleaf : node'.leaf = node.leaf) (hscope : node'.part.field? .scope = node.part.field? .scope) :
    marks scopeCheck ctx' node' = marks scopeCheck ctx node := by
  rw [marks, marks, scopeCheck, scopeCheck, List.map_append, List.map_append,
    mark_missingScopeIssues ctx ctx' hpath hcovered hleaf, mark_ownScopeIssues ctx ctx' hscope]

/-- What is reported of a reference depends on the ways in which it names a policy. -/
theorem mark_referenceIssues (hpath : part'.path = part.path)
    (hfields : ∀ way ∈ Kind.referenceFields, part'.value.field? way.2 = part.value.field? way.2) :
    (referenceIssues ctx' part').map Issue.mark = (referenceIssues ctx part).map Issue.mark := by
  have hfilled : ∀ way ∈ Kind.referenceFields,
      (part'.value.filledText? way.2).isSome = (part.value.filledText? way.2).isSome := by
    intro way hway
    simp only [Json.filledText?, Json.text?, hfields way hway]
  have hnamed := List.filter_congr hfilled
  unfold referenceIssues
  rw [hnamed]
  dsimp only
  split
  · simp only [List.map_cons, List.map_nil, Issue.mark, hpath]
    rfl
  · rfl

theorem marks_referenceCheck (hentry : node'.part.field? .entry = node.part.field? .entry)
    (hboth : (node'.part.field? .entries).isSome = (node.part.field? .entries).isSome)
    (hitems : ((((node'.part.field? .entries).map Part.items).getD []).flatMap fun item =>
        (referenceIssues ctx' item).map Issue.mark) =
      ((((node.part.field? .entries).map Part.items).getD []).flatMap fun item =>
        (referenceIssues ctx item).map Issue.mark)) :
    marks referenceCheck ctx' node' = marks referenceCheck ctx node := by
  simp only [marks, referenceCheck, references, hentry, List.map_append, List.map_flatMap, List.flatMap_append,
    hitems]
  congr 1
  · unfold bothIssues
    rw [hentry]
    cases hold : node.part.field? .entries with
    | none =>
      rw [hold, Option.isSome_none, Option.isSome_eq_false_iff, Option.isNone_iff_eq_none] at hboth
      rw [hboth]
      cases node.part.field? .entry <;> rfl
    | some entries =>
      rw [hold, Option.isSome_some, Option.isSome_iff_exists] at hboth
      obtain ⟨entries', hentries'⟩ := hboth
      rw [hentries']
      cases node.part.field? .entry <;> rfl
  · congr 2
    funext item
    exact mark_referenceIssues rfl fun _ _ => rfl

theorem marks_referenceCheck_of_fields (hentry : node'.part.field? .entry = node.part.field? .entry)
    (hentries : node'.part.field? .entries = node.part.field? .entries) :
    marks referenceCheck ctx' node' = marks referenceCheck ctx node := by
  refine marks_referenceCheck hentry (by rw [hentries]) ?_
  rw [hentries]
  congr 1
  funext item
  exact mark_referenceIssues rfl fun _ _ => rfl

/-! ## Checks of a document -/

/-- A check reports the same of alike nodes, whatever the document around them. -/
def Steady (check : Context → Node → List Issue) : Prop :=
  ∀ ctx ctx' node node', Node.Alike node node' → marks check ctx' node' = marks check ctx node

theorem Node.Alike.refl (node : Node) : Alike node node := ⟨rfl, rfl, rfl, fun _ _ => rfl⟩

theorem steady_nameCheck : Steady nameCheck := fun _ _ _ _ h =>
  marks_nameCheck (names_of_fields (h.field .assignment (by decide)) (h.field .entries (by decide)))

theorem steady_scopeCheck : Steady scopeCheck := fun _ _ _ _ h =>
  marks_scopeCheck h.path h.covered h.leaf (h.field .scope (by decide))

theorem steady_referenceCheck : Steady referenceCheck := fun _ _ _ _ h =>
  marks_referenceCheck_of_fields (h.field .entry (by decide)) (h.field .entries (by decide))

variable {check : Context → Node → List Issue} {value' : Json}

/-- Where the value of one node changes, a check reports the same but for that node. -/
theorem Steady.flatMap_nodes (hcheck : Steady check) (hnode : node ∈ nodes ctx.value)
    (hputs : Json.Puts value' node.part.path ctx.value ctx'.value) (hadmits : node.Admits value') :
    ∃ before after,
      (nodes ctx.value).flatMap (marks check ctx) = before ++ (marks check ctx node ++ after) ∧
      (nodes ctx'.value).flatMap (marks check ctx') =
        before ++ (marks check ctx' (node.withValue value') ++ after) := by
  have hsame : marks check ctx' = marks check ctx := by
    funext other
    exact hcheck ctx ctx' other other (.refl other)
  rw [hsame]
  exact flatMap_nodesFrom (hcheck ctx ctx) hnode rfl hputs hadmits

theorem Steady.flatMap_eq (hcheck : Steady check) (hnode : node ∈ nodes ctx.value)
    (hputs : Json.Puts value' node.part.path ctx.value ctx'.value) (hadmits : node.Admits value')
    (h : marks check ctx' (node.withValue value') = marks check ctx node) :
    (nodes ctx'.value).flatMap (marks check ctx') = (nodes ctx.value).flatMap (marks check ctx) := by
  obtain ⟨before, after, hold, hnew⟩ := hcheck.flatMap_nodes hnode hputs hadmits
  rw [hold, hnew, h]

theorem Steady.flatMap_loses {mark : String × Option Path} (hcheck : Steady check)
    (hnode : node ∈ nodes ctx.value) (hputs : Json.Puts value' node.part.path ctx.value ctx'.value)
    (hadmits : node.Admits value')
    (h : Loses mark (marks check ctx node) (marks check ctx' (node.withValue value'))) :
    Loses mark ((nodes ctx.value).flatMap (marks check ctx)) ((nodes ctx'.value).flatMap (marks check ctx')) := by
  obtain ⟨before, after, hold, hnew⟩ := hcheck.flatMap_nodes hnode hputs hadmits
  rw [hold, hnew]
  exact h.append before after

end Assignment

end PolicyAudit
