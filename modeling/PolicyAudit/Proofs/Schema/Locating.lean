-- SUMMARY: Where the violations of a schema stand, and where they are shown.
import PolicyAudit.Proofs.Json.Pointer
import PolicyAudit.Proofs.Lint.Resolution
import PolicyAudit.Proofs.Schema.Report

/-! ## Places of violations

A check goes from an object to a member and from an array to an element, and takes the key with it. So
each violation has the path of a part of the value. -/

namespace PolicyAudit

namespace Schema

variable {check : Schema → Place → Json → List Violation} {place : Place} {value root : Json}
  {keyword : Keyword Schema} {v : Violation}

/-- A part of a value that a condition goes on with: the value itself, or what a key leads to. -/
inductive Enters (place : Place) (value : Json) : Place → Json → Prop where
  | same {next : Place} : next.path = place.path → Enters place value next value
  | child {key : Key} {inner : Json} {next : Place} : value.child? key = some inner →
      next.path = place.path ++ [key] → Enters place value next inner

private theorem child?_of_mem {name : String} {inner : Json} (hapart : value.NamesApart)
    (h : (name, inner) ∈ value.members?.getD []) : value.child? (.name name) = some inner := by
  cases hmembers : value.members? with
  | none => simp [hmembers] at h
  | some members =>
    rw [hmembers, Option.getD_some] at h
    refine Part.child?_of_get? ?_
    rw [Json.get?, hmembers]
    exact hapart members hmembers name inner h

private theorem child?_of_getElem? {index : Nat} {inner : Json}
    (h : (value.items?.getD [])[index]? = some inner) :
    value.child? (.index index) = some inner := by
  cases value with
  | array items => exact h
  | object members => cases h
  | scalar scalar => cases h

/-- A violation of a condition is one of the value, or one that a check of a part has found. -/
theorem mem_checkKeyword (hapart : value.NamesApart)
    (h : v ∈ checkKeyword check place value keyword) :
    v.path = place.path ∨
      ∃ schema next inner, Enters place value next inner ∧ v ∈ check schema next inner := by
  cases keyword with
  | additional listed others =>
    obtain ⟨⟨name, member⟩, hmem, hv⟩ := List.mem_flatMap.mp h
    have hchild := child?_of_mem hapart hmem
    dsimp only at hv
    split at hv
    · exact .inr ⟨_, _, _, .child hchild rfl, hv⟩
    · exact .inr ⟨_, _, _, .child hchild rfl, hv⟩
  | closed listed =>
    rcases List.mem_append.mp h with hlisted | hstranger
    · obtain ⟨⟨name, member⟩, hmem, hv⟩ := List.mem_flatMap.mp hlisted
      dsimp only at hv
      split at hv
      · exact .inr ⟨_, _, _, .child (child?_of_mem hapart hmem) rfl, hv⟩
      · cases hv
    · split at hstranger
      · cases hstranger
      · obtain rfl := List.mem_singleton.mp hstranger
        exact .inl rfl
  | allOf schemas =>
    obtain ⟨found, hfound, hv⟩ := List.mem_flatten.mp h
    obtain ⟨i, hi, rfl⟩ := List.mem_mapIdx.mp hfound
    exact .inr ⟨_, (place.under "allOf").at? i, value, .same rfl, hv⟩
  | items each =>
    obtain ⟨found, hfound, hv⟩ := List.mem_flatten.mp h
    obtain ⟨i, hi, rfl⟩ := List.mem_mapIdx.mp hfound
    have hchild := child?_of_getElem? (List.getElem?_eq_getElem hi)
    exact .inr ⟨_, _, _, .child hchild rfl, hv⟩
  | tuple schemas =>
    obtain ⟨found, hfound, hv⟩ := List.mem_flatten.mp h
    obtain ⟨i, hi, rfl⟩ := List.mem_mapIdx.mp hfound
    have hitem : (value.items?.getD [])[i]? = some (schemas.zip (value.items?.getD []))[i].2 := by
      rw [List.getElem_zip]
      exact List.getElem?_eq_getElem _
    exact .inr ⟨_, _, _, .child (child?_of_getElem? hitem) rfl, hv⟩
  | properties members =>
    obtain ⟨⟨name, schema⟩, hmem, hv⟩ := List.mem_flatMap.mp h
    dsimp only at hv
    split at hv
    · next member hget => exact .inr ⟨_, _, _, .child (Part.child?_of_get? hget) rfl, hv⟩
    · cases hv
  | required names =>
    left
    simp only [checkKeyword] at h
    split at h
    · obtain ⟨name, -, hv⟩ := List.mem_filterMap.mp h
      split at hv
      · cases hv
      · exact Option.some.inj hv ▸ rfl
    · cases h
  | _ =>
    -- The other conditions are about the value alone.
    left
    simp only [checkKeyword] at h
    grind [Place.violation, Place.under]

/-- What a check finds in a part of a value stands in the value. -/
theorem at?_of_mem_checkWithin {targets : Targets} {steps : Nat} {schema : Schema}
    (hapart : ∀ path part, root.at? path = some part → part.NamesApart)
    (hplace : root.at? place.path = some value)
    (hv : v ∈ checkWithin targets steps schema place value) :
    ∃ part, root.at? v.path = some part := by
  induction steps generalizing schema place value with
  | zero => cases hv
  | succ steps ih =>
    cases schema with
    | constant allows =>
      cases allows with
      | true => cases hv
      | false =>
        obtain rfl := List.mem_singleton.mp hv
        exact ⟨value, hplace⟩
    | reference target =>
      simp only [checkWithin] at hv
      split at hv
      · refine ih ?_ hv
        exact hplace
      · cases hv
    | conditions keywords =>
      obtain ⟨keyword, -, hkeyword⟩ := List.mem_flatMap.mp hv
      rcases mem_checkKeyword (hapart _ _ hplace) hkeyword with
        hpath | ⟨schema, next, inner, henters, hinner⟩
      · exact ⟨value, hpath ▸ hplace⟩
      · refine ih ?_ hinner
        cases henters with
        | same hpath => exact hpath ▸ hplace
        | child hchild hpath =>
          rw [hpath, Json.at?_append, hplace, Option.bind_some, Json.at?_cons, hchild,
            Option.bind_some, Json.at?_nil]

theorem at?_of_mem_check {targets : Targets} {schema : Schema}
    (hapart : ∀ path part, root.at? path = some part → part.NamesApart)
    (hv : v ∈ schema.check targets root) : ∃ part, root.at? v.path = some part :=
  at?_of_mem_checkWithin hapart (Json.at?_nil root) hv

end Schema

/-- What a registry reports is a violation of some schema. -/
theorem Registry.exists_violation_of_mem_errors {registry : Registry} {url : String} {value : Json}
    {report : StructureReport} {d : Discrepancy}
    (hreport : (registry.validate url value).1 = .ok report) (hd : d ∈ report.errors) :
    ∃ (schema : CompiledSchema) (v : Violation),
      v ∈ schema.violations value ∧ d.path = Pointer.write v.path := by
  unfold validate at hreport
  split at hreport
  · cases hreport
  · obtain rfl := Except.ok.inj hreport
    obtain ⟨v, hv, rfl⟩ := List.mem_map.mp (List.mem_filter.mp hd).1
    exact ⟨_, v, hv, rfl⟩

/-! ## Places in the tree -/

namespace Tree

variable {tree sub : Tree} {path : Path} {name : String}

theorem member?_of_child? (h : tree.child? (.name name) = some sub) :
    ∃ member, tree.member? name = some member ∧ member.value? = some sub := by
  cases tree with
  | object span members => exact Option.bind_eq_some_iff.mp h
  | array span items => cases h
  | scalar span value => cases h

/-- Where a name leads somewhere, no position does. -/
theorem child?_index_of_child?_name (h : tree.child? (.name name) = some sub) (index : Nat) :
    tree.child? (.index index) = none := by
  cases tree with
  | object span members => rfl
  | array span items => cases h
  | scalar span value => cases h

theorem memberAt?_append_name (path : Path) (name : String) :
    tree.memberAt? (path ++ [.name name]) = (tree.at? path).bind (·.member? name) := by
  simp only [memberAt?, List.getLast?_concat, List.dropLast_concat]

theorem memberAt?_append_index (path : Path) (index : Nat) :
    tree.memberAt? (path ++ [.index index]) = none := by
  simp only [memberAt?, List.getLast?_concat]

/-- A path with a name that is read as a position leads nowhere once it is read back. -/
theorem at?_reread (h : tree.at? path = some sub) (hpath : ¬ Pointer.Unambiguous path)
    (hindices : ∀ index, .index index ∈ path → index < 0x10000000000000000) :
    tree.at? (path.map fun k => Pointer.key (Pointer.writeKey k)) = none := by
  induction path generalizing tree with
  | nil => exact absurd Pointer.unambiguous_nil hpath
  | cons key path ih =>
    rw [at?_cons] at h
    obtain ⟨next, hnext, hsub⟩ := Option.bind_eq_some_iff.mp h
    rw [List.map_cons, at?_cons]
    have hbelow : ¬ Pointer.Unambiguous path →
        next.at? (path.map fun k => Pointer.key (Pointer.writeKey k)) = none := fun hrest =>
      ih hsub hrest fun index hindex => hindices index (List.mem_cons_of_mem _ hindex)
    cases key with
    | name name =>
      by_cases hname : Pointer.IsNumeral name.toList
      · rw [Pointer.key_writeKey_of_isNumeral hname, child?_index_of_child?_name hnext,
          Option.bind_none]
      · have hrest : ¬ Pointer.Unambiguous path := fun hrest => hpath (by simp [hname, hrest])
        rw [Pointer.key_writeKey_of_not_isNumeral hname, hnext]
        exact hbelow hrest
    | index index =>
      have hrest : ¬ Pointer.Unambiguous path := fun hrest => hpath (by simp [hrest])
      rw [Pointer.key_writeKey_index (hindices index List.mem_cons_self), hnext]
      exact hbelow hrest

end Tree

namespace Document

variable {doc : Document} {text : String} {tree : Tree} {path : Path}

/-- Where the tree shows what is at a path: a whole document on its first line, a member at its name, and
an element where it stands. -/
inductive ShownAt (doc : Document) : Path → Range → Prop where
  | root : ShownAt doc [] doc.firstLine
  | member {path : Path} {name : String} {object inner : Tree} {member : Member Tree} :
      doc.at? path = some object → object.member? name = some member →
      member.value? = some inner →
      ShownAt doc (path ++ [.name name]) (doc.rangeOf member.nameSpan)
  | item {path : Path} {index : Nat} {inner : Tree} :
      doc.at? (path ++ [.index index]) = some inner →
      ShownAt doc (path ++ [.index index]) (doc.rangeOf inner.span)

/-- The tree shows whatever is in it. -/
theorem placeInTree?_of_at? (h : doc.at? path = some tree) :
    ∃ range, doc.placeInTree? path = some range ∧ doc.ShownAt path range := by
  obtain ⟨top, htop, htree⟩ := Option.bind_eq_some_iff.mp h
  rcases List.eq_nil_or_concat path with rfl | ⟨init, key, rfl⟩
  · exact ⟨doc.firstLine, by simp [placeInTree?, htop], .root⟩
  · rw [List.concat_eq_append] at *
    have hsome := htree
    rw [Tree.at?_append] at hsome
    obtain ⟨parent, hparent, hbelow⟩ := Option.bind_eq_some_iff.mp hsome
    rw [Tree.at?_cons] at hbelow
    obtain ⟨inner, hinner, -⟩ := Option.bind_eq_some_iff.mp hbelow
    cases key with
    | name name =>
      obtain ⟨member, hmember, hvalue⟩ := Tree.member?_of_child? hinner
      have hobject : doc.at? init = some parent := by
        rw [Document.at?, htop, Option.bind_some, hparent]
      refine ⟨doc.rangeOf member.nameSpan, ?_, .member hobject hmember hvalue⟩
      simp [placeInTree?, htop, Tree.memberAt?_append_name, hparent, hmember]
    | index index =>
      refine ⟨doc.rangeOf tree.span, ?_, .item h⟩
      simp [placeInTree?, htop, Tree.memberAt?_append_index, h]

/-- The tree does not show what a misread path is about. -/
theorem placeInTree?_reread (h : doc.at? path = some tree) (hpath : ¬ Pointer.Unambiguous path)
    (hindices : ∀ index, .index index ∈ path → index < 0x10000000000000000) :
    doc.placeInTree? (path.map fun k => Pointer.key (Pointer.writeKey k)) = none := by
  obtain ⟨top, htop, htree⟩ := Option.bind_eq_some_iff.mp h
  have hnowhere := Tree.at?_reread htree hpath hindices
  rcases List.eq_nil_or_concat path with rfl | ⟨init, key, rfl⟩
  · exact absurd Pointer.unambiguous_nil hpath
  rw [List.concat_eq_append] at *
  rw [List.map_append, List.map_singleton] at hnowhere ⊢
  have hmember : top.memberAt? ((init.map fun k => Pointer.key (Pointer.writeKey k)) ++
      [Pointer.key (Pointer.writeKey key)]) = none := by
    have hinit (hinit : ¬ Pointer.Unambiguous init) :
        top.at? (init.map fun k => Pointer.key (Pointer.writeKey k)) = none := by
      rw [Tree.at?_append] at htree
      obtain ⟨parent, hparent, -⟩ := Option.bind_eq_some_iff.mp htree
      exact Tree.at?_reread hparent hinit fun index hindex =>
        hindices index (List.mem_append_left _ hindex)
    cases key with
    | name name =>
      by_cases hname : Pointer.IsNumeral name.toList
      · rw [Pointer.key_writeKey_of_isNumeral hname, Tree.memberAt?_append_index]
      · -- The last name stays a name, so that the misread one stands before it.
        have hbefore : ¬ Pointer.Unambiguous init := fun h => hpath (by simp [h, hname])
        rw [Pointer.key_writeKey_of_not_isNumeral hname, Tree.memberAt?_append_name, hinit hbefore,
          Option.bind_none]
    | index index =>
      have hfits := hindices index (List.mem_append_right _ List.mem_cons_self)
      rw [Pointer.key_writeKey_index hfits, Tree.memberAt?_append_index]
  simp [placeInTree?, htop, hmember, Document.at?, hnowhere]

theorem snd_locate_eq_tree_iff :
    (doc.locate path).2 = .tree ↔ (doc.placeInTree? path).isSome = true := by
  unfold locate
  cases doc.placeInTree? path with
  | some range => simp
  | none => cases doc.placeInText? path <;> simp

theorem locate_of_placeInTree? {range : Range} (h : doc.placeInTree? path = some range) :
    doc.locate path = (range, .tree) := by
  simp only [locate, h]

/-- **Places of violations.** Each violation that is reported for a document that was read without a fault
stands in the document's value, and the tree has the same part. Its place comes from the tree exactly if no
name on its path reads as a position, and then it is the name of the member or the element that the path
leads to, or the first line for the whole document. -/
theorem locate_violation_of_isClean (hclean : (ofText text).isClean = true)
    (hsize : Text.byteLength text.toList < 0x10000000000000000) :
    let doc := ofText text
    ∃ value, doc.value? = some value ∧ ∀ (registry : Registry) (url : String) (report : StructureReport),
      (registry.validate url value).1 = .ok report → ∀ d ∈ report.errors,
        (∃ path part, d.path = Pointer.write path ∧ value.at? path = some part) ∧
        ∀ path part, d.path = Pointer.write path → value.at? path = some part →
          (∃ tree, doc.at? path = some tree ∧ tree.toJson = part) ∧
          ((doc.locate (Pointer.read d.path)).2 = .tree ↔ Pointer.Unambiguous path) ∧
          (Pointer.Unambiguous path →
            doc.ShownAt path (doc.locate (Pointer.read d.path)).1) := by
  intro doc
  obtain ⟨-, tree, htree⟩ := isClean_iff.mp hclean
  have hwhole := whole_of_isClean hclean htree
  have hvalue : doc.value? = some tree.toJson := by
    rw [value?, htree, Option.map_some]
  refine ⟨tree.toJson, hvalue, fun registry url report hreport d hd => ⟨?_, ?_⟩⟩
  · obtain ⟨schema, v, hv, hpath⟩ := Registry.exists_violation_of_mem_errors hreport hd
    have hapart : ∀ path part, tree.toJson.at? path = some part → part.NamesApart := by
      intro path part hpart
      obtain ⟨sub, -, rfl⟩ := hwhole.exists_at? hpart
      exact sub.namesApart_toJson
    obtain ⟨part, hpart⟩ := Schema.at?_of_mem_check hapart hv
    exact ⟨v.path, part, hpath, hpart⟩
  · intro path part hpath hpart
    obtain ⟨sub, hsub, hsubvalue⟩ := hwhole.exists_at? hpart
    have hat : doc.at? path = some sub := by
      rw [Document.at?, htree, Option.bind_some, hsub]
    have hindices : ∀ index, .index index ∈ path → index < 0x10000000000000000 := fun index hindex =>
      Nat.lt_trans ((all_placed_of_ofText htree).index_lt hsub hindex) hsize
    refine ⟨⟨sub, hat, hsubvalue⟩, ?_⟩
    rw [hpath]
    by_cases hnames : Pointer.Unambiguous path
    · obtain ⟨range, hplace, hshown⟩ := placeInTree?_of_at? hat
      rw [Pointer.read_write_of_unambiguous hnames hindices, locate_of_placeInTree? hplace]
      exact ⟨iff_of_true rfl hnames, fun _ => hshown⟩
    · refine ⟨?_, fun h => absurd h hnames⟩
      rw [Pointer.read_write, snd_locate_eq_tree_iff, placeInTree?_reread hat hnames hindices]
      exact iff_of_false (by simp) hnames

/-- Both members have the wrong type. The one called `1` is looked for as an element. -/
theorem locate_violation_of_digits :
    let doc := ofText "\x7b\"a\":2,\"1\":3\x7d"
    let registry := (Registry.new (some [("policy-definition",
      "\x7b\"additionalProperties\":\x7b\"type\":\"object\"\x7d\x7d")])).registerAlias
        "p" "policy-definition"
    ∃ value report, doc.value? = some value ∧ (registry.validate "p" value).1 = .ok report ∧
      (∃ d ∈ report.errors, d.path = "/1" ∧ (doc.locate (Pointer.read d.path)).2 ≠ .tree) ∧
      ∃ d ∈ report.errors, d.path = "/a" ∧ (doc.locate (Pointer.read d.path)).2 = .tree := by
  intro doc registry
  have hclean : doc.isClean = true := by decide +kernel
  obtain ⟨value, hvalue, hplaces⟩ := locate_violation_of_isClean hclean (by decide +kernel)
  have hchecked : doc.value?.map (fun value =>
      (registry.check "policy-definition" value).1.errors.map (·.path)) = some ["/1", "/a"] := by
    decide +kernel
  have hparts : doc.value?.map (fun value =>
      ((value.at? [.name "1"]).isSome, (value.at? [.name "a"]).isSome)) = some (true, true) := by
    decide +kernel
  rw [hvalue] at hchecked hparts
  have hpaths := Option.some.inj hchecked
  have hok : (registry.validate "p" value).1 = .ok (registry.check "policy-definition" value).1 :=
    congrArg Prod.fst (Registry.validate_of_resolve? (Registry.resolve?_registerAlias _ "p" _) value)
  obtain ⟨hone, ha⟩ := Prod.mk.inj (Option.some.inj hparts)
  obtain ⟨three, hone⟩ := Option.isSome_iff_exists.mp hone
  obtain ⟨two, ha⟩ := Option.isSome_iff_exists.mp ha
  obtain ⟨d, hd, hpath⟩ := List.mem_map.mp (hpaths.symm ▸ List.mem_cons_self)
  obtain ⟨d', hd', hpath'⟩ :=
    List.mem_map.mp (hpaths.symm ▸ List.mem_cons_of_mem "/1" List.mem_cons_self)
  have hread : ¬ Pointer.Unambiguous [.name "1"] := by
    have hnumeral : Pointer.IsNumeral ['1'] :=
      (Pointer.word?_eq_some_iff.mp (show Pointer.word? ['1'] = some 1 by decide)).1
    simpa using hnumeral
  have hkept : Pointer.Unambiguous [.name "a"] := by
    have hletter : ¬ Pointer.IsNumeral ['a'] := fun hnumeral =>
      absurd (hnumeral.1.2 'a' List.mem_cons_self) (by decide)
    simpa using hletter
  have hfirst := (hplaces registry "p" _ hok d hd).2 _ three (hpath.trans (by decide +kernel)) hone
  have hsecond := (hplaces registry "p" _ hok d' hd').2 _ two (hpath'.trans (by decide +kernel)) ha
  exact ⟨value, _, hvalue, hok, ⟨d, hd, hpath, mt hfirst.2.1.mp hread⟩,
    d', hd', hpath', hsecond.2.1.mpr hkept⟩

end Document

end PolicyAudit
