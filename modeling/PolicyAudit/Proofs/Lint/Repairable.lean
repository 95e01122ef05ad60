-- SUMMARY: Each fix of a clean tree of assignments takes one finding away and leaves such a tree.
import PolicyAudit.Proofs.Lint.Choice
import PolicyAudit.Proofs.Lint.Editing
import PolicyAudit.Proofs.Lint.Repair
import PolicyAudit.Proofs.Lint.Run
import PolicyAudit.Proofs.Syntax.Shape

/-! ## The edits of the fixes -/

namespace PolicyAudit

open Assignment

variable {tree tree' sub new : Tree} {text edited : String} {edit : Edit} {ctx : Context} {issue : Issue}
variable {node : Node} {found : Part} {value' : Json} {mark : String × Option Path} {options : LintOptions}

theorem Assignment.fixName_of_at? {path : Path} {name : String} (hissue : issue.path? = some path)
    (hsub : ctx.doc.at? path = some sub) (hname : sub.string? = some name) : fixName ctx issue =
      .ok (some (Edit.replaceValue ctx.doc sub (.string (String.ofList (name.toList.take maxNameLength))))) := by
  simp only [fixName, Context.requirePath, hissue, hsub, Option.bind_some, hname, Option.map_some]

theorem Assignment.fixScope_of_at? {path : Path} (hissue : issue.path? = some path)
    (hsub : ctx.doc.at? path = some sub) : fixScope ctx issue =
      (Edit.insertMember ctx.doc sub "scope" (placeholderScope ctx.value)).map some := by
  simp only [fixScope, Context.requirePath, hissue, hsub]

/-! ## Repairable documents

The scope that a fix writes reaches three containers deeper than its node, which therefore must not stand
too deep. -/

theorem Json.hasField_of_get? {value found : Json} {field : Field} {name : String}
    (hname : name ∈ field.spellings) (h : value.get? name = some found) : value.hasField field = true := by
  rw [hasField, field?, Option.isSome_map, spelling?, List.findSome?_isSome_iff]
  exact ⟨name, hname, by rw [h]; rfl⟩

theorem Json.get?_of_field?_eq_none {value : Json} {field : Field} {name : String} (h : value.field? field = none)
    (hname : name ∈ field.spellings) : value.get? name = none := by
  refine Option.eq_none_iff_forall_ne_some.mpr fun found hfound => ?_
  have hfield := hasField_of_get? hname hfound
  rw [hasField, h] at hfield
  cases hfield

/-- A whole object has the field that a key of it is for. -/
theorem Tree.HasPlainKey.hasField {field : Field} (h : tree.HasPlainKey field) (hwhole : tree.Whole) :
    tree.toJson.hasField field = true := by
  obtain ⟨name, hname, hmem⟩ := h
  obtain ⟨member, hmember, heq⟩ := List.mem_map.mp hmem
  obtain ⟨rfl, -⟩ := Prod.mk.inj heq
  cases hwhole with
  | @object span members hvalues =>
    have hsome : (members.find? (·.name = member.name)).isSome = true :=
      List.find?_isSome.mpr ⟨member, hmember, decide_eq_true rfl⟩
    obtain ⟨first, hfirst⟩ := Option.isSome_iff_exists.mp hsome
    obtain ⟨sub, hsub⟩ := Option.ne_none_iff_exists'.mp (hvalues first (List.mem_of_find?_eq_some hfirst))
    have hget : (Tree.object span members).toJson.get? member.name = some sub.toJson := by
      rw [Tree.toJson_object, Json.get?_ofMembers]
      exact Tree.find?_entries_of_first hfirst hsub
    exact Json.hasField_of_get? hname hget
  | array => cases hmember
  | scalar => cases hmember

/-- A text is a document that can be repaired: a tree of assignments whose kind shows in a key. No node stands
too deep, and the paths that findings may name are read back as they were written. -/
structure Repairable (tree : Tree) (text : String) : Prop where
  writes : WritesDocument tree text.toList
  kind : Kind.of? tree.toJson = some .assignment
  key : tree.HasPlainKey .nodeName
  shallow : ∀ row ∈ outline tree.toJson, row.1.length ≤ 125
  readable : ∀ row ∈ outline tree.toJson, ∀ path ∈ row.1 :: row.2, Path.ofJson? path.toJson = some path

namespace Repairable

theorem isClean (h : Repairable tree text) : (Document.ofText text).isClean = true :=
  (Document.clean_of_writes h.writes).1

theorem tree?_eq (h : Repairable tree text) : (Document.ofText text).tree? = some tree :=
  (Document.clean_of_writes h.writes).2

theorem value?_eq (h : Repairable tree text) : (Document.ofText text).value? = some tree.toJson := by
  rw [Document.value?, h.tree?_eq, Option.map_some]

theorem context_eq (h : Repairable tree text) :
    Context.ofDocument? (.ofText text) = some ⟨.ofText text, tree.toJson⟩ := by
  rw [Context.ofDocument?, h.value?_eq, Option.map_some]

theorem at?_eq (h : Repairable tree text) (path : Path) : (Document.ofText text).at? path = tree.at? path := by
  rw [Document.at?, h.tree?_eq, Option.bind_some]

theorem whole (h : Repairable tree text) : tree.Whole := Document.whole_of_isClean h.isClean h.tree?_eq

theorem select?_eq (h : Repairable tree text) :
    Validator.select? (.ofText text) = some ⟨some .assignment⟩ := by
  obtain ⟨name, hname, hinside⟩ := h.writes.infix_of_hasPlainKey h.key
  have hmarks : ∀ name ∈ Field.nodeName.spellings, Kind.assignment.Marks name := by decide +kernel
  have hmark : Kind.assignment.Marks text := Kind.Marks.of_infix (hmarks name hname) hinside
  rw [Validator.select?_eq h.isClean h.value?_eq, h.kind, Option.bind_some,
    if_pos (Validator.mightAccept_iff.mpr hmark)]

/-- A clean tree of assignments can be repaired where it is not nested too deep. Paths in it are short, as it
has fewer elements than bytes. -/
theorem of_isClean (hclean : (Document.ofText text).isClean = true)
    (htree : (Document.ofText text).tree? = some tree) (hkind : Kind.of? tree.toJson = some .assignment)
    (hkey : tree.SpellsKey .nodeName text.toList) (hnesting : tree.nesting ≤ 125)
    (hsize : Text.byteLength text.toList < 0x10000000000000000) : Repairable tree text where
  writes := Document.writes_of_clean hclean htree
  kind := hkind
  key := hkey.hasPlainKey
  shallow := by
    intro row hrow
    obtain ⟨node, hnode, rfl⟩ := List.mem_map.mp hrow
    obtain ⟨sub, hsub, -⟩ := (Document.whole_of_isClean hclean htree).exists_at? (standsIn_nodes _ node hnode)
    have hdepth := Tree.nesting_at? hsub
    dsimp only
    omega
  readable := by
    intro row hrow path hpath
    have hread {part : Part} (hpart : part.StandsIn tree.toJson) :
        Path.ofJson? part.path.toJson = some part.path := by
      obtain ⟨sub, hsub, -⟩ := (Document.whole_of_isClean hclean htree).exists_at? hpart
      exact Document.ofJson?_path htree hsub hsize
    obtain ⟨node, hnode, rfl⟩ := List.mem_map.mp hrow
    have hstands := standsIn_nodes _ node hnode
    rcases List.mem_cons.mp hpath with rfl | hnames
    · exact hread hstands
    · obtain ⟨⟨found, name⟩, hmem, rfl⟩ := List.mem_map.mp hnames
      exact hread (standsIn_names hstands hmem).1

theorem length_path_le (h : Repairable tree text) (hnode : node ∈ nodes tree.toJson) :
    node.part.path.length ≤ 125 := h.shallow _ (List.mem_map_of_mem hnode)

theorem ofJson?_node (h : Repairable tree text) (hnode : node ∈ nodes tree.toJson) :
    Path.ofJson? node.part.path.toJson = some node.part.path :=
  h.readable _ (List.mem_map_of_mem hnode) _ List.mem_cons_self

theorem ofJson?_name {name : String} (h : Repairable tree text) (hnode : node ∈ nodes tree.toJson)
    (hname : (found, name) ∈ names node.part) : Path.ofJson? found.path.toJson = some found.path :=
  h.readable _ (List.mem_map_of_mem hnode) _ (List.mem_cons_of_mem _ (List.mem_map_of_mem (f := (·.1.path)) hname))

/-- What the rules report of the tree in a text, by codes and paths. -/
def reported (tree : Tree) (text : String) : List (String × Option Path) := report ⟨.ofText text, tree.toJson⟩

/-- A repaired node makes a repairable document, of which one thing less is reported. -/
theorem of_repairs (h : Repairable tree text) (hnode : node ∈ nodes tree.toJson)
    (hrepairs : node.Repairs value' mark)
    (hputs : Json.Puts value' node.part.path tree.toJson tree'.toJson)
    (hwrites : WritesDocument tree' edited.toList) (hkey : tree'.HasPlainKey .nodeName) :
    Repairable tree' edited ∧ Loses mark (reported tree text) (reported tree' edited) := by
  have houtline := hrepairs.outline_eq hnode hputs
  refine ⟨⟨hwrites, ?_, hkey, ?_, ?_⟩, hrepairs.report_loses hnode hputs⟩
  · rw [hrepairs.kind_eq hnode hputs (h.key.hasField h.whole), h.kind]
  · rw [houtline]
    exact h.shallow
  · rw [houtline]
    exact h.readable

/-! ## Cutting a name off -/

theorem ne_nil_of_mem_names {part : Part} {name : String} (h : (found, name) ∈ names part) : found.path ≠ [] := by
  obtain ⟨holder, -, hname⟩ := List.mem_filterMap.mp h
  obtain ⟨key, -, rest, hpath⟩ := path_of_name? hname
  simp [hpath]

/-- A name that is too long has a fix, and that leaves a repairable document without the finding. -/
theorem exists_fixName {name : String} (h : Repairable tree text) (hnode : node ∈ nodes tree.toJson)
    (hname : (found, name) ∈ names node.part) (hlong : maxNameLength < name.length)
    (hissue : issue.path? = Path.ofJson? found.path.toJson) :
    ∃ edit, fixName ⟨.ofText text, tree.toJson⟩ issue = .ok (some edit) ∧
      ∀ edited, edit.apply text = .ok edited → ∃ tree', Repairable tree' edited ∧
        Loses (Code.at Code.nameLength found.path) (reported tree text) (reported tree' edited) := by
  obtain ⟨hstands, htext⟩ := standsIn_names (standsIn_nodes _ node hnode) hname
  obtain ⟨sub, hsub, hvalue⟩ := h.whole.exists_at? hstands
  have hstring : sub.string? = some name := by
    rw [← Tree.string?_toJson, hvalue, htext]
  let new := String.ofList (name.toList.take maxNameLength)
  have hshort : new.length ≤ maxNameLength := by
    simp only [new, String.length_ofList, List.length_take]
    exact Nat.min_le_left ..
  refine ⟨Edit.replaceValue (.ofText text) sub (.string new), ?_, fun edited happly => ?_⟩
  · exact fixName_of_at? (hissue.trans (h.ofJson?_name hnode hname)) ((h.at?_eq _).trans hsub) hstring
  · obtain ⟨tree', _, hnew, hwrites, -, hheads, hputs⟩ :=
      h.writes.rewrite hsub (P := fun new' => new'.toJson = .string new) (fun outer mid rest _ hmid =>
        Edit.rewrites_replaceValue hmid (Json.prints_string new hmid.depth_le)) happly
    obtain ⟨path, hpath, -⟩ := below_of_mem_names hname
    rw [hnew, hpath] at hputs
    obtain ⟨value', houter, hinner⟩ := hputs.exists_between (standsIn_nodes _ node hnode)
    have hrepairs := Node.repairs_of_name hnode hname hlong hshort hinner hpath.symm
    refine ⟨tree', h.of_repairs hnode hrepairs houter hwrites ?_⟩
    rw [Tree.HasPlainKey, hheads (ne_nil_of_mem_names hname)]
    exact h.key

end Repairable

/-! ## Adding a scope -/

namespace Assignment

/-- The scope that a fix writes has the environments of a scope in the document, in their order. -/
theorem exists_placeholderScope {value : Json} (h : value.Sorted) :
    ∃ members, placeholderScope value = .object members ∧ Keyed.Ascending members ∧
      ∀ member ∈ members, IsPlaceholder member.2 := by
  have hlike (paths : Json) :
      IsPlaceholder (if paths.isArray then .array [placeholderPath] else placeholderPath) := by
    split
    · exact .inr rfl
    · exact .inl rfl
  unfold placeholderScope
  dsimp only
  split
  · next first rest hscopes =>
    obtain ⟨node, hnode, hscope⟩ := List.mem_filterMap.mp (List.mem_of_mem_head? hscopes)
    obtain ⟨scope, hfield, hmembers⟩ := Option.bind_eq_some_iff.mp hscope
    obtain ⟨⟨name, _⟩, hspelling, rfl⟩ := Option.map_eq_some_iff.mp hfield
    have hfound := Part.child?_of_get? (Json.spelling?_eq_some_iff.mp hspelling).1
    have hsorted := (h.at? (standsIn_nodes value node hnode)).child? hfound
    have hnames : Keyed.Ascending (first :: rest) := (hsorted.of_members? hmembers).1
    refine ⟨_, rfl, List.pairwise_map.mpr hnames, fun member hmember => ?_⟩
    obtain ⟨⟨environment, paths⟩, -, rfl⟩ := List.mem_map.mp hmember
    exact hlike paths
  · refine ⟨_, rfl, List.pairwise_singleton .., fun member hmember => ?_⟩
    rw [List.mem_singleton.mp hmember]
    exact .inr rfl

theorem plain_of_isPlaceholder {value : Json} (h : IsPlaceholder value) :
    value.Sorted ∧ value.Exact ∧ value.reach ≤ 1 := by
  rcases h with rfl | rfl
  · exact ⟨.scalar _, Json.exact_string _, Nat.zero_le 1⟩
  · exact ⟨.array (by simp [placeholderPath]), .array (by simpa [placeholderPath] using Json.exact_string _),
      Nat.le_refl 1⟩

theorem plain_placeholderScope {value : Json} (h : value.Sorted) :
    (placeholderScope value).Sorted ∧ (placeholderScope value).Exact ∧ (placeholderScope value).reach ≤ 2 := by
  obtain ⟨members, hscope, hnames, hmembers⟩ := exists_placeholderScope h
  rw [hscope]
  refine ⟨.object hnames fun member hmember => (plain_of_isPlaceholder (hmembers member hmember)).1,
    .object fun member hmember => (plain_of_isPlaceholder (hmembers member hmember)).2.1,
    Json.reach_object_le fun member hmember => ?_⟩
  have hreach := (plain_of_isPlaceholder (hmembers member hmember)).2.2
  omega

end Assignment

namespace Repairable

/-- A leaf that no scope covers has a fix, and that leaves a repairable document without the finding. -/
theorem exists_fixScope (h : Repairable tree text) (hnode : node ∈ nodes tree.toJson) (hleaf : node.leaf = true)
    (hcovered : node.covered = false) (hissue : issue.path? = Path.ofJson? node.part.path.toJson) :
    ∃ edit, fixScope ⟨.ofText text, tree.toJson⟩ issue = .ok (some edit) ∧
      ∀ edited, edit.apply text = .ok edited → ∃ tree', Repairable tree' edited ∧
        Loses (Code.at Code.missingScope node.part.path) (reported tree text) (reported tree' edited) := by
  obtain ⟨sub, hsub, hvalue⟩ := h.whole.exists_at? (standsIn_nodes _ node hnode)
  have hobject : sub.isObject = true := by
    rw [← Tree.isObject_toJson, hvalue]
    exact isObject_of_mem_nodes hnode
  obtain ⟨edit, hedit⟩ := Edit.exists_insertMember (.ofText text) "scope" (placeholderScope tree.toJson) hobject
  have hdepth := h.length_path_le hnode
  obtain ⟨members, hscope, -, hmembers⟩ := exists_placeholderScope tree.sorted_toJson
  obtain ⟨hsorted, hexact, hreach⟩ := plain_placeholderScope tree.sorted_toJson
  have hprints : Json.Prints (node.part.path.length + 1) (placeholderScope tree.toJson) :=
    hsorted.prints hexact (by rw [Document.maxDepth]; omega)
  refine ⟨edit, ?_, fun edited happly => ?_⟩
  · rw [fixScope_of_at? (hissue.trans (h.ofJson?_node hnode)) ((h.at?_eq _).trans hsub), hedit]
    rfl
  · obtain ⟨tree', new, hadds, hwrites, hroot, hheads, hputs⟩ :=
      h.writes.rewrite hsub (P := fun new => Writes.Adds sub.members "scope" (.object members) new.members)
        (fun outer mid rest htext hmid => hscope ▸ Edit.rewrites_insertMember hmid htext hprints hedit) happly
    have hget := hadds.get?_toJson hobject
    rw [hvalue] at hget
    have hnone : node.part.value.get? "scope" = none :=
      Json.get?_of_field?_eq_none (field?_scope_of_bare hnode hcovered) (by decide)
    have hnew : new.toJson.get? "scope" = some (.object members) := by
      rw [hget, hnone, if_pos rfl, Option.none_or]
    have halike : Json.AlikeBut "scope" node.part.value new.toJson := by
      intro other hother
      rw [hget, if_neg hother.symm, Option.or_none]
    have hrepairs := Node.repairs_of_scope hnode hleaf hcovered halike hnew hmembers
    refine ⟨tree', h.of_repairs hnode hrepairs hputs hwrites ?_⟩
    obtain ⟨name, hname, hmem⟩ := h.key
    refine ⟨name, hname, ?_⟩
    by_cases htop : node.part.path = []
    · obtain rfl := hroot htop
      rw [htop, Tree.at?_nil] at hsub
      obtain rfl := Option.some.inj hsub
      exact hadds.2.subset hmem
    · rw [hheads htop]
      exact hmem

end Repairable

end PolicyAudit
