-- SUMMARY: What the findings point at is found in the tree and in the value, as the same part.
import PolicyAudit.Proofs.Lint.Pointing

/-! ## Listed paths

A path in the data of a finding is read back as it was, as long as its positions fit 64 bits. -/

namespace PolicyAudit

theorem Key.ofJson?_nat {index : Nat} (h : index < 0x10000000000000000) :
    Key.ofJson? (.nat index) = some (.index index) := by
  have hfits : (0 : Int) ≤ index ∧ (index : Int) < 0x10000000000000000 := by omega
  simp only [Key.ofJson?, Json.nat?, if_pos hfits, Option.map_some, Int.toNat_natCast]

theorem Path.mapM_map_ofJson? {path : Path} {f : Key → Json}
    (h : ∀ key ∈ path, Key.ofJson? (f key) = some key) :
    (path.map f).mapM Key.ofJson? = some path := by
  induction path with
  | nil => rfl
  | cons key path ih =>
    have hrest := ih fun other hother => h other (List.mem_cons_of_mem key hother)
    rw [List.map_cons, List.mapM_cons, hrest, h key List.mem_cons_self]
    rfl

theorem Path.ofJson?_toJson {path : Path}
    (h : ∀ index, .index index ∈ path → index < 0x10000000000000000) :
    Path.ofJson? path.toJson = some path := by
  refine mapM_map_ofJson? fun key hkey => ?_
  cases key with
  | name name => rfl
  | index index => exact Key.ofJson?_nat (h index hkey)

theorem Path.eq_of_mapM_map {path path' : Path} {f : Key → Json}
    (h : ∀ key found, Key.ofJson? (f key) = some found → found = key)
    (hread : (path.map f).mapM Key.ofJson? = some path') : path' = path := by
  induction path generalizing path' with
  | nil => exact (Option.some.inj hread).symm
  | cons key path ih =>
    rw [List.map_cons, List.mapM_cons] at hread
    obtain ⟨found, hkey, hread⟩ := Option.bind_eq_some_iff.mp hread
    obtain ⟨rest, hrest, hpath⟩ := Option.bind_eq_some_iff.mp hread
    rw [← Option.some.inj hpath, h key found hkey, ih hrest]

/-- A listed path that is read back at all is read back as it was. -/
theorem Path.eq_of_ofJson?_toJson {path path' : Path} (h : ofJson? path.toJson = some path') : path' = path := by
  refine eq_of_mapM_map (fun key found hkey => ?_) h
  cases key with
  | name name => exact (Option.some.inj hkey).symm
  | index index =>
    simp only [Key.ofJson?, Json.nat?] at hkey
    split at hkey
    · simpa using hkey.symm
    · cases hkey

/-! ## Positions

Each element of an array takes up a byte at least, so that there are no more of them than bytes. -/

/-- The positions on the way to a part of a tree are smaller than the text. -/
theorem SyntaxNode.All.index_lt {text : List Char} {tree sub : Tree} {path : Path} {index : Nat}
    (h : (SyntaxNode.value tree).All (Placed text)) (hsub : tree.at? path = some sub)
    (hindex : .index index ∈ path) : index < Text.byteLength text := by
  obtain ⟨before, after, rfl⟩ := List.append_of_mem hindex
  rw [Tree.at?_append] at hsub
  obtain ⟨list, hlist, hbelow⟩ := Option.bind_eq_some_iff.mp hsub
  rw [Tree.at?_cons] at hbelow
  obtain ⟨item, hitem, -⟩ := Option.bind_eq_some_iff.mp hbelow
  have hall := h.at? hlist
  cases list with
  | array span items =>
    have hlength : index < items.length := (List.getElem?_eq_some_iff.mp hitem).1
    have hplaced := hall.self
    have hroom := hplaced.parts.length_le fun node hnode => (hall.of_mem_children hnode).self.nonempty
    have hwithin := hplaced.within
    simp only [children, List.length_map] at hroom
    omega
  | object span members => cases hitem
  | scalar span value => cases hitem

/-- The bytes of a text are counted in 64 bits, and so are the positions on the way to a part. -/
theorem Document.ofJson?_path {text : String} {tree sub : Tree} {path : Path}
    (htree : (ofText text).tree? = some tree) (hsub : tree.at? path = some sub)
    (hsize : Text.byteLength text.toList < 0x10000000000000000) : Path.ofJson? path.toJson = some path :=
  Path.ofJson?_toJson fun _ hindex => Nat.lt_trans ((all_placed_of_ofText htree).index_lt hsub hindex) hsize

theorem Tree.string?_toJson (tree : Tree) : tree.toJson.string? = tree.string? := by
  cases tree with
  | object span members => rw [toJson_object]; rfl
  | array span items => rw [toJson_array]; rfl
  | scalar span value => cases value <;> rfl

/-! ## The rules -/

variable {text : String} {ctx : Context} {rule : Rule}

/-- A rule other than the schema rule gives findings that point at parts. -/
theorem Rule.points_check (hrule : rule ≠ .schemaValidation) (registry : Registry)
    (hapart : ∀ part : Part, part.StandsIn ctx.value → part.value.NamesApart) :
    ∃ issues, (rule.check ctx registry).1 = .ok issues ∧ ctx.Points issues := by
  cases rule with
  | schemaValidation => exact absurd rfl hrule
  | effectParameter => exact ⟨_, rfl, Effect.points_check ctx⟩
  | referenceIntegrity => exact ⟨_, rfl, Reference.points_check ctx⟩
  | nonEmptyCollection => exact ⟨_, rfl, Reference.points_checkNotEmpty ctx⟩
  | nameLength => exact ⟨_, rfl, Assignment.points_checkNames ctx⟩
  | assignmentScope => exact ⟨_, rfl, Assignment.points_checkScopes ctx hapart⟩
  | exclusiveReference => exact ⟨_, rfl, Assignment.points_checkReferences ctx⟩

/-- **Places of findings.** In a document that was read without a fault, the data of each finding hold a
path that is read back as it was written, that leads in the tree and in the value to the same part, and
whose range is that of the finding. What the data quote is the text there. -/
theorem Rule.check_points_of_isClean (hclean : (Document.ofText text).isClean = true) :
    ∃ ctx, Context.ofDocument? (.ofText text) = some ctx ∧
      ∀ rule : Rule, rule ≠ .schemaValidation → ∀ registry, ∃ issues,
        (rule.check ctx registry).1 = .ok issues ∧ ∀ issue ∈ issues, ∃ path tree,
          issue.data.get? "path" = some path.toJson ∧
          (Text.byteLength text.toList < 0x10000000000000000 → issue.path? = some path) ∧
          (Document.ofText text).at? path = some tree ∧
          (Document.ofText text).valueAt? path = some tree.toJson ∧
          issue.range = (Document.ofText text).rangeOf tree.span ∧
          ∀ name ∈ Issue.quoting, ∀ quoted, issue.text? name = some quoted →
            tree.string? = some quoted := by
  obtain ⟨-, tree, htree⟩ := Document.isClean_iff.mp hclean
  have hwhole := Document.whole_of_isClean hclean htree
  let ctx : Context := ⟨.ofText text, tree.toJson⟩
  have hctx : Context.ofDocument? (.ofText text) = some ctx := by
    rw [Context.ofDocument?, Document.value?, htree, Option.map_some, Option.map_some]
  refine ⟨ctx, hctx, fun rule hrule registry => ?_⟩
  have hapart : ∀ part : Part, part.StandsIn ctx.value → part.value.NamesApart := by
    intro part hpart
    obtain ⟨sub, -, hsub⟩ := hwhole.exists_at? hpart
    exact hsub ▸ sub.namesApart_toJson
  obtain ⟨issues, hcheck, hpoints⟩ := Rule.points_check hrule registry hapart
  refine ⟨issues, hcheck, fun issue hissue => ?_⟩
  obtain ⟨part, hpart⟩ := hpoints issue hissue
  obtain ⟨sub, hsub, hvalue⟩ := hwhole.exists_at? hpart.stands
  have hat : (Document.ofText text).at? part.path = some sub := by
    rw [Document.at?, htree]
    exact hsub
  refine ⟨part.path, sub, hpart.path, fun hsize => ?_, hat, Document.valueAt?_of_at? hat, ?_, ?_⟩
  · have hplaced := Document.all_placed_of_ofText htree
    rw [Issue.path?, hpart.path, Option.bind_some]
    exact Path.ofJson?_toJson fun index hindex => Nat.lt_trans (hplaced.index_lt hsub hindex) hsize
  · rw [hpart.range, Document.rangeAt, hat]
  · intro name hname quoted hquoted
    rw [← Tree.string?_toJson, hvalue]
    exact hpart.quotes name hname quoted hquoted

/-- The scope of a child maps nothing. Its list has the second spelling, and its name is written twice. -/
theorem Rule.check_points_of_child :
    ∃ ctx issues issue path tree,
      Context.ofDocument? (.ofText "\x7b\"Children\":[\x7b\"scope\":1,\"scope\":2\x7d]\x7d") = some ctx ∧
      (assignmentScope.check ctx (.new none)).1 = .ok issues ∧ issue ∈ issues ∧
      issue.path? = some path ∧
      (Document.ofText "\x7b\"Children\":[\x7b\"scope\":1,\"scope\":2\x7d]\x7d").at? path = some tree ∧
      issue.range =
        (Document.ofText "\x7b\"Children\":[\x7b\"scope\":1,\"scope\":2\x7d]\x7d").rangeOf tree.span := by
  have hclean : (Document.ofText "\x7b\"Children\":[\x7b\"scope\":1,\"scope\":2\x7d]\x7d").isClean = true := by
    decide +kernel
  obtain ⟨ctx, hctx, hrules⟩ := check_points_of_isClean hclean
  obtain ⟨issues, hcheck, hpoints⟩ := hrules .assignmentScope (by decide) (.new none)
  have hfound : (Context.ofDocument? (.ofText "\x7b\"Children\":[\x7b\"scope\":1,\"scope\":2\x7d]\x7d")).all
      (fun ctx => (Assignment.checkScopes ctx).isEmpty) = false := by decide +kernel
  cases hcheck
  rw [hctx, Option.all_some, List.isEmpty_eq_false_iff_exists_mem] at hfound
  obtain ⟨issue, hissue⟩ := hfound
  obtain ⟨path, tree, -, hpath, htree, -, hrange, -⟩ := hpoints issue hissue
  exact ⟨ctx, _, issue, path, tree, hctx, rfl, hissue, hpath (by decide +kernel), htree, hrange⟩

end PolicyAudit
