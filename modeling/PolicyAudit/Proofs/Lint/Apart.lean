-- SUMMARY: No two findings of one fixable code are about the same place.
import PolicyAudit.Proofs.Lint.Origin
import PolicyAudit.Proofs.Lint.Pointing

/-! ## Paths that part -/

namespace PolicyAudit

namespace Path

variable {p q : Path} {a b : Key}

/-- Nothing below one path is below the other. -/
def Diverge (p q : Path) : Prop := ∀ s t, p ++ s ≠ q ++ t

theorem Diverge.of_key_ne (p : Path) (h : a ≠ b) : Diverge (p ++ [a]) (p ++ [b]) := by
  intro s t heq
  simp only [List.append_assoc, List.append_cancel_left_eq, List.singleton_append, List.cons.injEq] at heq
  exact h heq.1

theorem Diverge.append (h : Diverge p q) (s t : Path) : Diverge (p ++ s) (q ++ t) := by
  intro s' t' heq
  rw [List.append_assoc, List.append_assoc] at heq
  exact h _ _ heq

theorem Diverge.ne (h : Diverge p q) : p ≠ q := by
  rintro rfl
  exact h [] [] rfl

theorem cons_name_inj {name other : String} (h : Key.name name :: p = .name other :: q) :
    name = other ∧ p = q := by
  obtain ⟨hname, hrest⟩ := List.cons.inj h
  exact ⟨Key.name.inj hname, hrest⟩

theorem toJson_inj (h : p.toJson = q.toJson) : p = q := by
  refine (List.map_inj_right fun a b hab => ?_).mp (Json.array.inj h)
  cases a with
  | name name =>
    cases b with
    | name other => simpa using hab
    | index index => cases hab
  | index index =>
    cases b with
    | name other => cases hab
    | index other =>
      have hindex : (index : Int) = other := by simpa using hab
      rw [Int.ofNat_inj.mp hindex]

end Path

namespace Part

variable {part found item : Part} {field : Field}

/-- A field stands under one of its spellings. -/
theorem path_of_field? (h : part.field? field = some found) :
    ∃ name ∈ field.spellings, found.path = part.path ++ [.name name] := by
  obtain ⟨⟨name, inner⟩, hspelling, rfl⟩ := Option.map_eq_some_iff.mp h
  obtain ⟨spelling, hmem, hget⟩ := List.exists_of_findSome?_eq_some hspelling
  obtain ⟨_, -, hpair⟩ := Option.map_eq_some_iff.mp hget
  obtain ⟨rfl, -⟩ := Prod.mk.inj hpair
  exact ⟨spelling, hmem, rfl⟩

theorem path_of_mem_items (h : item ∈ part.items) : ∃ index, item.path = part.path ++ [.index index] := by
  cases hitems : part.items? with
  | none => simp [items, hitems] at h
  | some items =>
    obtain ⟨values, -, rfl⟩ := Option.map_eq_some_iff.mp hitems
    simp only [Part.items, hitems, Option.getD_some] at h
    obtain ⟨index, hindex, rfl⟩ := List.mem_mapIdx.mp h
    exact ⟨index, rfl⟩

theorem items_diverge (part : Part) : part.items.Pairwise fun a b => Path.Diverge a.path b.path := by
  cases hitems : part.items? with
  | none => simp [items, hitems]
  | some items =>
    obtain ⟨values, -, rfl⟩ := Option.map_eq_some_iff.mp hitems
    simp only [Part.items, hitems, Option.getD_some]
    rw [List.pairwise_iff_getElem]
    intro i j hi hj hij
    simp only [List.getElem_mapIdx]
    exact .of_key_ne _ (by simp; omega)

theorem fieldItems_diverge (part : Part) (field : Field) :
    (((part.field? field).map items).getD []).Pairwise fun a b => Path.Diverge a.path b.path := by
  cases part.field? field with
  | none => exact .nil
  | some list => exact list.items_diverge

theorem path_of_mem_fieldItems (h : item ∈ ((part.field? field).map items).getD []) :
    ∃ name ∈ field.spellings, ∃ index, item.path = part.path ++ [.name name, .index index] := by
  cases hlist : part.field? field with
  | none => simp [hlist] at h
  | some list =>
    rw [hlist, Option.map_some, Option.getD_some] at h
    obtain ⟨name, hname, hpath⟩ := path_of_field? hlist
    obtain ⟨index, hindex⟩ := path_of_mem_items h
    exact ⟨name, hname, index, by rw [hindex, hpath, List.append_assoc]; rfl⟩

end Part

/-! ## Findings apart -/

namespace Issue

variable {a b : Issue} {p q : Path}

/-- The data of a finding hold a path. -/
def IsAt (path : Path) (issue : Issue) : Prop := issue.data.get? "path" = some path.toJson

/-- Two findings are not of one fixable code with one path. -/
def Apart (a b : Issue) : Prop :=
  Code.Fixable a.code → a.code = b.code → ∀ path, a.IsAt path → ¬b.IsAt path

theorem IsAt.of_data {path : Path} {issue : Issue} {more : List (String × Json)}
    (h : issue.data = .ofMembers (("path", path.toJson) :: more)) : issue.IsAt path := by
  rw [IsAt, h, Json.get?_ofMembers, Keyed.find?_cons, if_pos rfl]

theorem Apart.of_ne (ha : a.IsAt p) (hb : b.IsAt q) (h : p ≠ q) : Apart a b := by
  intro _ _ path hpath hpath'
  have hp := Path.toJson_inj (Option.some.inj (ha.symm.trans hpath))
  have hq := Path.toJson_inj (Option.some.inj (hb.symm.trans hpath'))
  exact h (hp.trans hq.symm)

theorem Apart.of_code_ne (h : a.code ≠ b.code) : Apart a b := fun _ heq => absurd heq h

theorem Apart.of_not_fixable (h : ¬Code.Fixable a.code) : Apart a b := fun hfix => absurd hfix h

end Issue

open Issue

variable {ctx : Context}

/-- A rule that fixes nothing has no findings that clash. -/
theorem Rule.OwnsAll.apart_of_fixes_nothing {rule : Rule} {issues : List Issue} (h : rule.OwnsAll issues)
    (hnone : rule.fixableCodes = []) : issues.Pairwise Apart := by
  refine List.pairwise_of_forall_mem_list fun issue hissue other _ => .of_not_fixable ?_
  rw [fixable_iff (h issue hissue).code, hnone]
  exact List.not_mem_nil

theorem Effect.apart_check (ctx : Context) : (Effect.check ctx).Pairwise Apart := by
  unfold Effect.check
  split
  · exact .nil
  · split
    · split
      · exact .nil
      · exact List.pairwise_singleton ..
    · split
      · exact .nil
      · split
        · exact .nil
        · exact List.pairwise_singleton ..

/-! ## Entries of collections -/

namespace Reference

variable {seen : List String} {index : Nat} {entry : Part} {parts : List Part} {issue : Issue}

theorem mem_nameIssues (h : issue ∈ nameIssues ctx index entry) :
    issue.code = Code.invalidReference ∧ issue.IsAt entry.path := by
  unfold nameIssues at h
  dsimp only at h
  split at h
  · rw [List.mem_singleton.mp h]
    exact ⟨rfl, .of_data rfl⟩
  · cases h

theorem isAt_idIssues (h : issue ∈ idIssues ctx seen index entry) :
    ∃ rest, issue.IsAt (entry.path ++ rest) := by
  unfold idIssues at h
  split at h
  · next part id hid =>
    split at h
    · rw [List.mem_singleton.mp h]
      obtain ⟨found, hfound, hid⟩ := Option.bind_eq_some_iff.mp hid
      obtain ⟨name, -, hpath⟩ := Part.path_of_field? hfound
      obtain ⟨text, -, hid⟩ := Option.bind_eq_some_iff.mp hid
      split at hid
      · cases hid
      · obtain ⟨rfl, -⟩ := Prod.mk.inj (Option.some.inj hid)
        exact ⟨[.name name], hpath ▸ .of_data rfl⟩
    · cases h
  · rw [List.mem_singleton.mp h]
    exact ⟨[], (List.append_nil entry.path).symm ▸ .of_data rfl⟩

theorem isAt_entry (h : issue ∈ nameIssues ctx index entry ++ idIssues ctx seen index entry) :
    ∃ rest, issue.IsAt (entry.path ++ rest) := by
  rcases List.mem_append.mp h with hname | hid
  · exact ⟨[], (List.append_nil entry.path).symm ▸ (mem_nameIssues hname).2⟩
  · exact isAt_idIssues hid

/-- Each finding is about one of the entries or about a part of it. -/
theorem isAt_checkFrom (h : issue ∈ checkFrom ctx seen index parts) :
    ∃ entry ∈ parts, ∃ rest, issue.IsAt (entry.path ++ rest) := by
  induction parts generalizing seen index with
  | nil => cases h
  | cons entry parts ih =>
    rcases List.mem_append.mp h with hentry | hrest
    · exact ⟨entry, List.mem_cons_self, isAt_entry hentry⟩
    · obtain ⟨other, hother, hat⟩ := ih hrest
      exact ⟨other, List.mem_cons_of_mem _ hother, hat⟩

theorem apart_idIssues (ctx : Context) (seen : List String) (index : Nat) (entry : Part) :
    (idIssues ctx seen index entry).Pairwise Apart := by
  unfold idIssues
  split
  · split
    · exact List.pairwise_singleton ..
    · exact .nil
  · exact List.pairwise_singleton ..

/-- The findings about names have no fix, so only the others could clash. -/
theorem apart_entry (ctx : Context) (seen : List String) (index : Nat) (entry : Part) :
    (nameIssues ctx index entry ++ idIssues ctx seen index entry).Pairwise Apart := by
  have hnames : ∀ a ∈ nameIssues ctx index entry, ∀ b, Apart a b := by
    intro a ha b
    have hcode : Code.invalidReference ∈ Rule.referenceIntegrity.codes := by decide
    refine .of_not_fixable ?_
    rw [(mem_nameIssues ha).1, Rule.fixable_iff hcode]
    decide
  exact List.pairwise_append.mpr ⟨List.pairwise_of_forall_mem_list fun a ha b _ => hnames a ha b,
    apart_idIssues .., fun a ha b _ => hnames a ha b⟩

theorem apart_checkFrom (ctx : Context) (seen : List String) (index : Nat)
    (h : parts.Pairwise fun a b => Path.Diverge a.path b.path) :
    (checkFrom ctx seen index parts).Pairwise Apart := by
  induction parts generalizing seen index with
  | nil => exact .nil
  | cons entry parts ih =>
    obtain ⟨hentry, hparts⟩ := List.pairwise_cons.mp h
    refine List.pairwise_append.mpr ⟨apart_entry .., ih _ _ hparts, fun a ha b hb => ?_⟩
    obtain ⟨s, hs⟩ := isAt_entry ha
    obtain ⟨other, hother, t, ht⟩ := isAt_checkFrom hb
    exact .of_ne hs ht ((hentry other hother).append s t).ne

theorem entries_diverge (value : Json) :
    (entries value).Pairwise fun a b => Path.Diverge a.path b.path := by
  unfold entries
  cases list? value with
  | none => exact .nil
  | some list => exact list.items_diverge

end Reference

/-! ## Nodes of assignments -/

namespace Assignment

variable {part child : Part} {name : String}

/-- What is below both nodes is below the first one's children. -/
def Node.Ahead (a b : Node) : Prop :=
  ∀ s t, a.part.path ++ s = b.part.path ++ t →
    ∃ name ∈ Field.children.spellings, ∃ rest, s = .name name :: rest

theorem path_of_mem_nodesFrom {inherited : Bool} {node : Node} (h : node ∈ nodesFrom inherited part) :
    ∃ rest, node.part.path = part.path ++ rest := by
  fun_induction nodesFrom inherited part with
  | case1 inherited part hobject covered ih =>
    rcases List.mem_cons.mp h with rfl | hbelow
    · exact ⟨[], (List.append_nil _).symm⟩
    · obtain ⟨⟨child, hchild⟩, -, hmem⟩ := List.mem_flatMap.mp hbelow
      obtain ⟨rest, hrest⟩ := ih child hchild hmem
      obtain ⟨name, -, index, hpath⟩ := Part.path_of_mem_fieldItems hchild
      exact ⟨_, by rw [hrest, hpath, List.append_assoc]⟩
  | case2 => cases h

theorem nodesFrom_ahead (inherited : Bool) (part : Part) :
    (nodesFrom inherited part).Pairwise Node.Ahead := by
  fun_induction nodesFrom inherited part with
  | case1 inherited part hobject covered ih =>
    refine List.pairwise_cons.mpr ⟨fun node hnode s t heq => ?_, List.pairwise_flatMap.mpr ⟨?_, ?_⟩⟩
    · obtain ⟨⟨child, hchild⟩, -, hmem⟩ := List.mem_flatMap.mp hnode
      obtain ⟨rest, hrest⟩ := path_of_mem_nodesFrom hmem
      obtain ⟨name, hname, index, hpath⟩ := Part.path_of_mem_fieldItems hchild
      rw [hrest, hpath, List.append_assoc, List.append_assoc, List.append_cancel_left_eq] at heq
      exact ⟨name, hname, _, heq⟩
    · exact fun child _ => ih child.1 child.2
    · have hdiverge : (children part).Pairwise _ := part.fieldItems_diverge .children
      rw [← List.attach_map_subtype_val (children part), List.pairwise_map] at hdiverge
      refine hdiverge.imp fun {a b} hab x hx y hy s t heq => ?_
      obtain ⟨rest, hx⟩ := path_of_mem_nodesFrom hx
      obtain ⟨more, hy⟩ := path_of_mem_nodesFrom hy
      rw [hx, hy, List.append_assoc, List.append_assoc] at heq
      exact absurd heq (hab _ _)
  | case2 => exact .nil

/-- A path that goes on from a node by no list of children. -/
def Below (part : Part) (path : Path) : Prop :=
  ∃ rest, path = part.path ++ rest ∧
    ∀ name ∈ Field.children.spellings, ∀ more, rest ≠ .name name :: more

theorem Node.Ahead.ne {a b : Node} {p q : Path} (h : Ahead a b) (hp : Below a.part p)
    (hq : Below b.part q) : p ≠ q := by
  rintro rfl
  obtain ⟨s, rfl, hs⟩ := hp
  obtain ⟨t, ht, -⟩ := hq
  obtain ⟨name, hname, rest, hrest⟩ := h s t ht
  exact hs name hname rest hrest

/-- Findings that are apart on each node, and stay with their nodes, are apart. -/
theorem apart_flatMap_nodes {f : Node → List Issue} (value : Json)
    (hapart : ∀ node, (f node).Pairwise Apart)
    (hbelow : ∀ node, ∀ issue ∈ f node,
      ¬Code.Fixable issue.code ∨ ∃ path, issue.IsAt path ∧ Below node.part path) :
    ((nodes value).flatMap f).Pairwise Apart := by
  refine List.pairwise_flatMap.mpr ⟨fun node _ => hapart node, ?_⟩
  refine (nodesFrom_ahead false (Part.root value)).imp fun {a b} hab x hx y hy => ?_
  rcases hbelow a x hx with hfix | ⟨p, hp, hbelowp⟩
  · exact .of_not_fixable hfix
  · rcases hbelow b y hy with hfix | ⟨q, hq, hbelowq⟩
    · exact fun hfixx heq => absurd (heq ▸ hfixx) hfix
    · exact .of_ne hp hq (hab.ne hbelowp hbelowq)

theorem path_of_name? {holder : Part} {text : String} (h : name? holder = some (part, text)) :
    ∃ key ∈ Field.assignment.spellings, ∃ rest, part.path = holder.path ++ .name key :: rest := by
  obtain ⟨assignment, hassignment, h⟩ := Option.bind_eq_some_iff.mp h
  obtain ⟨found, hfound, h⟩ := Option.bind_eq_some_iff.mp h
  obtain ⟨_, -, h⟩ := Option.bind_eq_some_iff.mp h
  obtain ⟨rfl, -⟩ := Prod.mk.inj (Option.some.inj h)
  obtain ⟨key, hkey, hpath⟩ := Part.path_of_field? hassignment
  obtain ⟨name, -, hname⟩ := Part.path_of_field? hfound
  exact ⟨key, hkey, [.name name], by rw [hname, hpath, List.append_assoc]; rfl⟩

theorem names_pairwise (part : Part) :
    (names part).Pairwise fun a b => a.1.path ≠ b.1.path := by
  refine List.pairwise_filterMap.mpr (List.pairwise_cons.mpr ⟨?_, ?_⟩)
  · intro entry hentry a ha b hb heq
    obtain ⟨key, hkey, rest, hpath⟩ := path_of_name? ha
    obtain ⟨list, hlist, index, hpath'⟩ := Part.path_of_mem_fieldItems hentry
    obtain ⟨_, -, rest', hpath''⟩ := path_of_name? hb
    rw [hpath, hpath'', hpath', List.append_assoc, List.append_cancel_left_eq] at heq
    obtain ⟨rfl, -⟩ := Path.cons_name_inj heq
    exact (by decide : ∀ name ∈ Field.assignment.spellings, name ∉ Field.entries.spellings) key hkey hlist
  · refine (part.fieldItems_diverge .entries).imp fun {a b} hab x hx y hy => ?_
    obtain ⟨_, -, rest, hpath⟩ := path_of_name? hx
    obtain ⟨_, -, rest', hpath'⟩ := path_of_name? hy
    rw [hpath, hpath']
    exact (hab.append _ _).ne

theorem Below.of_field {key : String} {field : Field} {rest path : Path} (hkey : key ∈ field.spellings)
    (hpath : path = part.path ++ .name key :: rest)
    (hfield : ∀ name ∈ field.spellings, name ∉ Field.children.spellings) : Below part path := by
  refine ⟨_, hpath, fun name hname more heq => hfield key hkey ?_⟩
  rwa [(Path.cons_name_inj heq).1]

theorem below_of_mem_names {name : String} (h : (child, name) ∈ names part) :
    Below part child.path := by
  obtain ⟨holder, hholder, hname⟩ := List.mem_filterMap.mp h
  obtain ⟨key, hkey, rest, hpath⟩ := path_of_name? hname
  rcases List.mem_cons.mp hholder with rfl | hentry
  · exact .of_field hkey hpath (by decide)
  · obtain ⟨list, hlist, index, hholder⟩ := Part.path_of_mem_fieldItems hentry
    rw [hholder, List.append_assoc] at hpath
    exact .of_field hlist hpath (by decide)

theorem isAt_nameIssues {name : String} {issue : Issue} (h : issue ∈ nameIssues ctx part name) :
    issue.IsAt part.path := by
  unfold nameIssues at h
  dsimp only at h
  split at h
  · cases h
  · rw [List.mem_singleton.mp h]
    exact .of_data rfl

theorem apart_nameIssues (ctx : Context) (part : Part) (name : String) :
    (nameIssues ctx part name).Pairwise Apart := by
  unfold nameIssues
  dsimp only
  split
  · exact .nil
  · exact List.pairwise_singleton ..

theorem apart_checkNames (ctx : Context) : (checkNames ctx).Pairwise Apart := by
  refine apart_flatMap_nodes ctx.value (fun node => ?_) fun node issue hissue => ?_
  · refine List.pairwise_flatMap.mpr ⟨fun named _ => apart_nameIssues .., ?_⟩
    refine (names_pairwise node.part).imp fun hne x hx y hy => ?_
    exact .of_ne (isAt_nameIssues hx) (isAt_nameIssues hy) hne
  · obtain ⟨⟨child, name⟩, hname, hmem⟩ := List.mem_flatMap.mp hissue
    exact .inr ⟨child.path, isAt_nameIssues hmem, below_of_mem_names hname⟩

/-- What is found about the scope that a node has is not fixed. -/
theorem code_of_mem_missingScopeIssues {node : Node} {issue : Issue} (h : issue ∈ missingScopeIssues ctx node) :
    issue.code = Code.missingScope := by
  unfold missingScopeIssues at h
  split at h
  · rw [List.mem_singleton.mp h]; rfl
  · cases h

theorem code_of_mem_ownScopeIssues {issue : Issue} (h : issue ∈ ownScopeIssues ctx part) :
    issue.code = Code.invalidScope := by
  unfold ownScopeIssues at h
  split at h
  · cases h
  · split at h
    · obtain ⟨_, -, h⟩ := List.mem_flatMap.mp h
      obtain ⟨place, -, h⟩ := List.mem_flatMap.mp h
      unfold placeIssues at h
      split at h
      · split at h
        · cases h
        · rw [List.mem_singleton.mp h]; rfl
      · rw [List.mem_singleton.mp h]; rfl
    · rw [List.mem_singleton.mp h]; rfl

theorem not_fixable_ownScopeIssues {issue : Issue} (h : issue ∈ ownScopeIssues ctx part) :
    ¬Code.Fixable issue.code := by
  have hmem : Code.invalidScope ∈ Rule.assignmentScope.codes := by decide
  rw [code_of_mem_ownScopeIssues h, Rule.fixable_iff hmem]
  decide

theorem apart_checkScopes (ctx : Context) : (checkScopes ctx).Pairwise Apart := by
  refine apart_flatMap_nodes ctx.value (fun node => ?_) fun node issue hissue => ?_
  · refine List.pairwise_append.mpr ⟨?_, ?_, ?_⟩
    · unfold missingScopeIssues
      split
      · exact List.pairwise_singleton ..
      · exact .nil
    · exact List.pairwise_of_forall_mem_list fun a ha b _ =>
        .of_not_fixable (not_fixable_ownScopeIssues ha)
    · intro a _ b hb hfix heq
      exact absurd (heq ▸ hfix) (not_fixable_ownScopeIssues hb)
  · rcases List.mem_append.mp hissue with hmissing | hown
    · unfold missingScopeIssues at hmissing
      split at hmissing
      · rw [List.mem_singleton.mp hmissing]
        exact .inr ⟨node.part.path, .of_data rfl, [], (List.append_nil _).symm, nofun⟩
      · cases hmissing
    · exact .inl (not_fixable_ownScopeIssues hown)

end Assignment

/-- **Findings apart.** No two findings of a rule are of one fixable code with one path. -/
theorem Rule.apart_check {rule : Rule} {registry : Registry} {issues : List Issue}
    (h : (rule.check ctx registry).1 = .ok issues) : issues.Pairwise Apart := by
  cases rule with
  | effectParameter => exact Except.ok.inj h ▸ Effect.apart_check ctx
  | referenceIntegrity =>
    exact Except.ok.inj h ▸ Reference.apart_checkFrom ctx [] 0 (Reference.entries_diverge ctx.value)
  | nameLength => exact Except.ok.inj h ▸ Assignment.apart_checkNames ctx
  | assignmentScope => exact Except.ok.inj h ▸ Assignment.apart_checkScopes ctx
  | schemaValidation => exact (ownsAll_check h).apart_of_fixes_nothing rfl
  | nonEmptyCollection => exact (ownsAll_check h).apart_of_fixes_nothing rfl
  | exclusiveReference => exact (ownsAll_check h).apart_of_fixes_nothing rfl

end PolicyAudit
