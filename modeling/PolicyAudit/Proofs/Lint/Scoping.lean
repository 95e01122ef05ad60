-- SUMMARY: The rule for scopes reports each leaf without a scope and each malformed part of a scope, once.
import PolicyAudit.Lint.Check
import PolicyAudit.Proofs.Lint.Changing
import PolicyAudit.Proofs.Lint.Lineage

/-! ## Paths of members -/

namespace PolicyAudit

namespace Part

variable {part place entry : Part} {members : List (String × Part)} {name : String}

theorem path_of_mem_members? (h : part.members? = some members) (hentry : (name, entry) ∈ members) :
    entry.path = part.path ++ [.name name] := by
  obtain ⟨values, -, rfl⟩ := Option.map_eq_some_iff.mp h
  obtain ⟨⟨_, found⟩, -, hpair⟩ := List.mem_map.mp hentry
  obtain ⟨rfl, rfl⟩ := Prod.mk.inj hpair
  rfl

theorem members?_diverge (hsorted : part.value.Sorted) (h : part.members? = some members) :
    members.Pairwise fun a b => Path.Diverge a.2.path b.2.path := by
  obtain ⟨values, hvalues, rfl⟩ := Option.map_eq_some_iff.mp h
  refine List.pairwise_map.mpr ((hsorted.of_members? hvalues).1.imp fun {a b} hlt => .of_key_ne _ ?_)
  intro heq
  exact String.ne_of_lt hlt (Key.name.inj heq)

end Part

namespace Assignment

variable {ctx : Context} {part place entry scope : Part} {node : Node} {path : Path} {text : String}

/-! ## Scopes as they should be -/

/-- A text is the path of a scope when it goes on after one of the roots, blanks around it and letter case aside. -/
def IsPath (text : String) : Prop :=
  ∃ root ∈ scopeRoots, ∃ rest, rest ≠ [] ∧ (Text.trim text.toList).map Char.toLower = root.toList ++ rest

/-- A place should hold the path of a scope: an element of an environment's list, or what the environment has in
place of a list. -/
def IsPlace (entry place : Part) : Prop := (entry.items? = none ∧ place = entry) ∨ place ∈ entry.items

/-- What is wrong with the scope of a part: it is no object, or a place in it has no path. -/
inductive Malformed (part : Part) : Path → Prop
  | scope {scope : Part} (hscope : part.field? .scope = some scope) (hobject : scope.value.isObject = false) :
    Malformed part scope.path
  | place {scope entry place : Part} {members : List (String × Part)} {name : String}
    (hscope : part.field? .scope = some scope) (hmembers : scope.members? = some members)
    (hentry : (name, entry) ∈ members) (hplace : IsPlace entry place)
    (hpath : ∀ text, place.value.string? = some text → ¬IsPath text) : Malformed part place.path

theorem isScopePath_iff : isScopePath text = true ↔ IsPath text := by
  unfold isScopePath IsPath
  simp only [List.any_eq_true, Bool.and_eq_true, List.isPrefixOf_iff_prefix, decide_eq_true_eq]
  refine exists_congr fun root => and_congr_right fun _ => ?_
  constructor
  · rintro ⟨⟨rest, hrest⟩, hlt⟩
    refine ⟨rest, ?_, hrest.symm⟩
    rintro rfl
    rw [← hrest, List.append_nil] at hlt
    exact Nat.lt_irrefl _ hlt
  · rintro ⟨rest, hrest, heq⟩
    rw [heq, List.length_append]
    exact ⟨List.prefix_append .., Nat.lt_add_of_pos_right (List.length_pos_iff.mpr hrest)⟩

theorem mem_scopePlaces_iff : place ∈ scopePlaces entry ↔ IsPlace entry place := by
  unfold scopePlaces IsPlace Part.items
  cases entry.items? with
  | none => simp
  | some items => simp

theorem path_of_isPlace (h : IsPlace entry place) : ∃ rest, place.path = entry.path ++ rest := by
  rcases h with ⟨-, rfl⟩ | hitem
  · exact ⟨[], (List.append_nil _).symm⟩
  · obtain ⟨index, hpath⟩ := Part.path_of_mem_items hitem
    exact ⟨_, hpath⟩

theorem scopePlaces_diverge (entry : Part) :
    (scopePlaces entry).Pairwise fun a b => Path.Diverge a.path b.path := by
  have hitems := entry.items_diverge
  unfold scopePlaces
  unfold Part.items at hitems
  cases hlist : entry.items? with
  | none => exact List.pairwise_singleton ..
  | some items =>
    rw [hlist] at hitems
    exact hitems

/-- Whether a part has a scope, in any spelling. -/
def HasScope (part : Part) : Prop := ∃ name ∈ Field.scope.spellings, (part.value.get? name).isSome = true

theorem declared_eq_true_iff {parts : List Part} : declared parts = true ↔ ∃ part ∈ parts, HasScope part := by
  simp only [declared, List.any_eq_true, HasScope, Json.hasField, Json.field?, Json.spelling?, Option.isSome_map,
    List.findSome?_isSome_iff]

/-! ## Findings of one node -/

open Issue

theorem onceAt_placeIssues (ctx : Context) (environment : String) (place : Part) :
    OnceAt Code.invalidScope
      (fun path => (∀ text, place.value.string? = some text → ¬IsPath text) ∧ path = place.path)
      (placeIssues ctx environment place) := by
  unfold placeIssues
  split
  · next text htext =>
    split
    · next hpath => exact onceAt_nil fun path h => h.1 text htext (isScopePath_iff.mp hpath)
    · next hpath =>
      refine onceAt_singleton rfl (.of_data rfl) fun path => and_iff_right fun other hother hvalid => hpath ?_
      obtain rfl := Option.some.inj (htext.symm.trans hother)
      exact isScopePath_iff.mpr hvalid
  · next hnone =>
    refine onceAt_singleton rfl (.of_data rfl) fun path => and_iff_right fun text htext => ?_
    cases hnone.symm.trans htext

theorem onceAt_scopePlaces (ctx : Context) (environment : String) (entry : Part) :
    OnceAt Code.invalidScope
      (fun path => ∃ place ∈ scopePlaces entry,
        (∀ text, place.value.string? = some text → ¬IsPath text) ∧ path = place.path)
      ((scopePlaces entry).flatMap (placeIssues ctx environment)) := by
  refine .flatMap (fun place _ => onceAt_placeIssues ctx environment place) ((scopePlaces_diverge entry).imp ?_)
  rintro a b hdiverge path ⟨-, rfl⟩ ⟨-, heq⟩
  exact hdiverge.ne heq

/-- Each malformed part of a scope is reported once. -/
theorem onceAt_ownScopeIssues (ctx : Context)
    (hsorted : ∀ scope, part.field? .scope = some scope → scope.value.Sorted) :
    OnceAt Code.invalidScope (Malformed part) (ownScopeIssues ctx part) := by
  unfold ownScopeIssues
  split
  · next hnone =>
    refine onceAt_nil fun path h => ?_
    cases h with
    | scope hscope => cases hnone.symm.trans hscope
    | place hscope => cases hnone.symm.trans hscope
  · next scope hscope =>
    split
    · next members hmembers =>
      refine (OnceAt.flatMap (fun member _ => onceAt_scopePlaces ctx member.1 member.2) ?_).congr fun path => ?_
      · refine (Part.members?_diverge (hsorted scope hscope) hmembers).imp ?_
        rintro a b hdiverge path ⟨place, hplace, -, rfl⟩ ⟨other, hother, -, heq⟩
        obtain ⟨s, hs⟩ := path_of_isPlace (mem_scopePlaces_iff.mp hplace)
        obtain ⟨t, ht⟩ := path_of_isPlace (mem_scopePlaces_iff.mp hother)
        exact (hdiverge.append s t).ne (hs ▸ ht ▸ heq)
      · constructor
        · rintro ⟨⟨name, entry⟩, hentry, place, hplace, hpath, rfl⟩
          exact .place hscope hmembers hentry (mem_scopePlaces_iff.mp hplace) hpath
        · intro h
          cases h with
          | scope hscope' hobject =>
            obtain rfl := Option.some.inj (hscope'.symm.trans hscope)
            obtain ⟨values, hvalues, -⟩ := Option.map_eq_some_iff.mp hmembers
            rw [Json.eq_object_of_members? hvalues] at hobject
            cases hobject
          | place hscope' hmembers' hentry hplace hpath =>
            obtain rfl := Option.some.inj (hscope'.symm.trans hscope)
            obtain rfl := Option.some.inj (hmembers'.symm.trans hmembers)
            exact ⟨_, hentry, _, mem_scopePlaces_iff.mpr hplace, hpath, rfl⟩
    · next hnone =>
      refine onceAt_singleton rfl (.of_data rfl) fun path => ⟨fun h => ?_, ?_⟩
      · cases h with
        | scope hscope' => rw [Option.some.inj (hscope'.symm.trans hscope)]
        | place hscope' hmembers =>
          obtain rfl := Option.some.inj (hscope'.symm.trans hscope)
          cases hnone.symm.trans hmembers
      · rintro rfl
        refine .scope hscope ?_
        obtain ⟨path, value⟩ := scope
        cases value with
        | object members => cases hnone
        | array items => rfl
        | scalar scalar => rfl

theorem onceAt_missingScopeIssues (ctx : Context) (node : Node) :
    OnceAt Code.missingScope
      (fun path => (node.leaf = true ∧ node.covered = false) ∧ path = node.part.path)
      (missingScopeIssues ctx node) := by
  unfold missingScopeIssues
  split
  · next hbare =>
    rw [Bool.and_eq_true, Bool.not_eq_true'] at hbare
    exact onceAt_singleton rfl (.of_data rfl) fun path => and_iff_right hbare
  · next hbare =>
    refine onceAt_nil fun path h => hbare ?_
    rw [Bool.and_eq_true, Bool.not_eq_true']
    exact h.1

/-! ## Findings of the rule -/

variable {issues : List Issue}

theorem below_of_malformed (h : Malformed part path) : Below part path := by
  cases h with
  | @scope scope hscope hobject =>
    obtain ⟨key, hkey, hpath⟩ := Part.path_of_field? hscope
    exact .of_field hkey hpath (by decide)
  | @place scope entry place members name hscope hmembers hentry hplace hnone =>
    obtain ⟨key, hkey, hpath⟩ := Part.path_of_field? hscope
    obtain ⟨rest, hrest⟩ := path_of_isPlace hplace
    rw [Part.path_of_mem_members? hmembers hentry, hpath, List.append_assoc, List.append_assoc] at hrest
    exact .of_field hkey hrest (by decide)

/-- Each leaf without a scope is reported once. -/
theorem onceAt_missingScope (ctx : Context) :
    OnceAt Code.missingScope
      (fun path => ∃ leaf above, IsNode ctx.value leaf above ∧ IsLeaf leaf ∧
        (∀ part ∈ leaf :: above, ¬HasScope part) ∧ path = leaf.path)
      (checkScopes ctx) := by
  refine (onceAt_flatMap_nodes (P := fun node path => (node.leaf = true ∧ node.covered = false) ∧
    path = node.part.path) (fun node _ => ?_) ?_).congr fun path => ?_
  · refine (onceAt_append_iff_left fun issue hissue => ?_).mpr (onceAt_missingScopeIssues ctx node)
    rw [code_of_mem_ownScopeIssues hissue]
    decide
  · rintro node - path ⟨-, rfl⟩
    exact ⟨[], (List.append_nil _).symm, nofun⟩
  · constructor
    · rintro ⟨node, hnode, ⟨hleaf, hbare⟩, rfl⟩
      obtain ⟨above, hnode, hcovered⟩ := mem_nodes_iff.mp hnode
      refine ⟨node.part, above, hnode, leaf_iff.mp hleaf, fun part hpart hscope => ?_, rfl⟩
      rw [hcovered, declared_eq_true_iff.mpr ⟨part, hpart, hscope⟩] at hbare
      cases hbare
    · rintro ⟨leaf, above, hnode, hleaf, hbare, rfl⟩
      refine ⟨_, hnode.mem_nodes, ⟨leaf_iff.mpr hleaf, Bool.eq_false_iff.mpr fun hdeclared => ?_⟩, rfl⟩
      obtain ⟨part, hpart, hscope⟩ := declared_eq_true_iff.mp hdeclared
      exact hbare part hpart hscope

/-- Each malformed part of a scope is reported once. -/
theorem onceAt_invalidScope (hsorted : ctx.value.Sorted) :
    OnceAt Code.invalidScope
      (fun path => ∃ part above, IsNode ctx.value part above ∧ Malformed part path) (checkScopes ctx) := by
  refine (onceAt_flatMap_nodes (P := fun node => Malformed node.part) (fun node hnode => ?_) ?_).congr fun path =>
    exists_mem_nodes_iff (P := fun part => Malformed part path)
  · have hown := onceAt_ownScopeIssues ctx fun scope hscope =>
      hsorted.at? ((standsIn_nodes ctx.value node hnode).field? hscope)
    refine (onceAt_append_iff_right fun issue hissue => ?_).mpr hown
    rw [code_of_mem_missingScopeIssues hissue]
    decide
  · exact fun node _ path h => below_of_malformed h

/-- The rule is silent when it has neither kind of finding. -/
theorem checkScopes_eq_nil_iff (hsorted : ctx.value.Sorted) : checkScopes ctx = [] ↔
    (∀ leaf above, IsNode ctx.value leaf above → IsLeaf leaf → ∃ part ∈ leaf :: above, HasScope part) ∧
      ∀ part above, IsNode ctx.value part above → ∀ path, ¬Malformed part path := by
  have hcodes : checkScopes ctx = [] ↔ (∀ issue ∈ checkScopes ctx, issue.code ≠ Code.missingScope) ∧
      ∀ issue ∈ checkScopes ctx, issue.code ≠ Code.invalidScope := by
    refine ⟨fun h => by simp [h], fun ⟨hmissing, hinvalid⟩ => ?_⟩
    refine List.eq_nil_iff_forall_not_mem.mpr fun issue hissue => ?_
    have hcode := (ownsAll_checkScopes ctx issue hissue).code
    simp only [Rule.codes, List.mem_cons, List.not_mem_nil, or_false] at hcode
    rcases hcode with hcode | hcode
    · exact hmissing issue hissue hcode
    · exact hinvalid issue hissue hcode
  rw [hcodes, (onceAt_missingScope ctx).forall_code_ne_iff, (onceAt_invalidScope hsorted).forall_code_ne_iff]
  refine and_congr ?_ ⟨fun h part above hnode path hbad => h path ⟨part, above, hnode, hbad⟩, ?_⟩
  · constructor
    · intro h leaf above hnode hleaf
      refine Classical.byContradiction fun hnone => ?_
      exact h leaf.path ⟨leaf, above, hnode, hleaf, fun part hpart hscope => hnone ⟨part, hpart, hscope⟩, rfl⟩
    · rintro h path ⟨leaf, above, hnode, hleaf, hbare, -⟩
      obtain ⟨part, hpart, hscope⟩ := h leaf above hnode hleaf
      exact hbare part hpart hscope
  · rintro h path ⟨part, above, hnode, hbad⟩
    exact h part above hnode path hbad

/-- **Scopes.** In a clean document the nodes are the objects that are reached from the root through lists of
children. The rule reports that a scope is missing once for each leaf such that neither it nor a node above it has
one, in whatever form, and for nothing else. It reports a scope as invalid once for each that is no object, and once
for each environment or element of an environment's list that does not hold a path. So it is silent exactly when
every way from the root to a leaf has a scope and all scopes are as they should be. -/
theorem checkScopes_of_isClean {text : String} (hclean : (Document.ofText text).isClean = true)
    (registry : Registry) : ∃ ctx issues,
      Context.ofDocument? (.ofText text) = some ctx ∧
      (Rule.assignmentScope.check ctx registry).1 = .ok issues ∧
      OnceAt Code.missingScope
        (fun path => ∃ leaf above, IsNode ctx.value leaf above ∧ IsLeaf leaf ∧
          (∀ part ∈ leaf :: above, ¬HasScope part) ∧ path = leaf.path) issues ∧
      OnceAt Code.invalidScope
        (fun path => ∃ part above, IsNode ctx.value part above ∧ Malformed part path) issues ∧
      (issues = [] ↔
        (∀ leaf above, IsNode ctx.value leaf above → IsLeaf leaf → ∃ part ∈ leaf :: above, HasScope part) ∧
        ∀ part above, IsNode ctx.value part above → ∀ path, ¬Malformed part path) := by
  obtain ⟨value, htext⟩ := Renders.exists_of_isClean hclean
  exact ⟨_, _, htext.context_eq, rfl, onceAt_missingScope _, onceAt_invalidScope htext.sorted,
    checkScopes_eq_nil_iff htext.sorted⟩

/-- A leaf without a scope beside one whose scope has an element that is no path. -/
theorem checkScopes_of_isClean_of_leaves :
    let text := "\x7b\"nodeName\":\"a\",\"children\":[\x7b\"scope\":" ++
      "\x7b\"dev\":[\" /Subscriptions/1\",\"/subscriptions/\"]\x7d\x7d,\x7b\"children\":[]\x7d]\x7d"
    (Document.ofText text).isClean = true ∧ ∃ ctx invalid missing,
      Context.ofDocument? (.ofText text) = some ctx ∧
      (Rule.assignmentScope.check ctx (.new none)).1 = .ok [invalid, missing] ∧
      (∃ part above, IsNode ctx.value part above ∧
        Malformed part [.name "children", .index 0, .name "scope", .name "dev", .index 1]) ∧
      ∃ leaf above, IsNode ctx.value leaf above ∧ IsLeaf leaf ∧ (∀ part ∈ leaf :: above, ¬HasScope part) ∧
        [.name "children", .index 1] = leaf.path := by
  intro text
  have hread : (Document.ofText text).isClean = true ∧
      (Context.ofDocument? (.ofText text)).map
          (fun ctx => (checkScopes ctx).map fun issue => (issue.code, issue.path?)) =
        some [(Code.invalidScope, some [.name "children", .index 0, .name "scope", .name "dev", .index 1]),
          (Code.missingScope, some [.name "children", .index 1])] := by decide +kernel
  obtain ⟨hclean, hread⟩ := hread
  obtain ⟨ctx, issues, hctx, hcheck, hmissing, hinvalid, -⟩ := checkScopes_of_isClean hclean (.new none)
  obtain rfl : checkScopes ctx = issues := Except.ok.inj hcheck
  rw [hctx, Option.map_some, Option.some.injEq] at hread
  obtain ⟨invalid, _, hissues, hfirst, hrest⟩ := List.map_eq_cons_iff.mp hread
  obtain ⟨missing, rfl, hsecond⟩ := List.map_eq_singleton_iff.mp hrest
  obtain ⟨hcode, hpath⟩ := Prod.mk.inj hfirst
  obtain ⟨hcode', hpath'⟩ := Prod.mk.inj hsecond
  rw [hissues] at hcheck hmissing hinvalid
  exact ⟨hclean, ctx, invalid, missing, hctx, hcheck, hinvalid.of_path? List.mem_cons_self hcode hpath,
    hmissing.of_path? (List.mem_cons_of_mem _ List.mem_cons_self) hcode' hpath'⟩

end Assignment

end PolicyAudit
