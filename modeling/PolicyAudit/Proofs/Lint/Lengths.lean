-- SUMMARY: Which names of assignments the rule for their length reports, of all that the schema has a place for.
import PolicyAudit.Lint.Check
import PolicyAudit.Proofs.Lint.Changing
import PolicyAudit.Proofs.Lint.Entries
import PolicyAudit.Proofs.Lint.Lineage
import PolicyAudit.Schema.Shipped

/-! ## What the schema says

The schema of assignments has definitions that refer to one another. A reference is to be satisfied by the value of a
member, or by each element of a list there. -/

namespace PolicyAudit

namespace Shipped

/-- The definitions of the schema of assignments. -/
inductive Definition where
  | node
  | assignment
  | entry
  | scopeMap
deriving DecidableEq

/-- The name that the schema has for a definition. -/
def Definition.name : Definition → String
  | node => "node"
  | assignment => "assignment"
  | entry => "definitionEntry"
  | scopeMap => "scopeMap"

/-- The definition that a schema refers to. -/
def refers? (schema : Json) : Option Definition :=
  ((schema.get? "$ref").bind Json.string?).bind fun ref =>
    [Definition.node, .assignment, .entry, .scopeMap].find? fun found => "#/definitions/" ++ found.name = ref

/-- What a definition asks of a member by a reference. -/
inductive Demand where
  | value (name : String) (target : Definition)
  | elements (name : String) (target : Definition)
deriving DecidableEq

/-- All that a definition asks by references. -/
def demands (definition : Definition) : List Demand :=
  let members := (assignment.at? [.name "definitions", .name definition.name, .name "properties"]).bind Json.members?
  (members.getD []).flatMap fun (name, schema) =>
    ((refers? schema).map (.value name)).toList ++
      (((schema.get? "items").bind refers?).map (.elements name)).toList

/-- The definition that a whole document must satisfy. -/
def start? : Option Definition := (assignment.at? [.name "allOf", .index 0]).bind refers?

theorem start?_eq : start? = some .node := by decide +kernel

theorem demands_eq (definition : Definition) : demands definition = match definition with
    | .node => [.value "assignment" .assignment, .elements "children" .node, .value "definitionEntry" .entry,
      .elements "definitionEntryList" .entry, .value "notScope" .scopeMap, .value "scope" .scopeMap]
    | .entry => [.value "assignment" .assignment]
    | .assignment | .scopeMap => [] := by
  cases definition <;> decide +kernel

end Shipped

theorem Field.eq_of_mem_spellings {field other : Field} {name : String} (h : name ∈ field.spellings)
    (hother : name ∈ other.spellings) : field = other :=
  Classical.byContradiction fun hne => not_mem_spellings h hne hother

namespace Assignment

open Shipped

variable {value : Json} {part node holder assignment : Part} {above : List Part} {definition : Definition}

/-- A part of a document is one that a definition is about: the definition for the document, or one that another asks
of a member. Members are looked up in any spelling of the field that the schema names. -/
inductive Describes (value : Json) : Definition → Part → Prop
  | root {definition : Definition} (hstart : start? = some definition) : Describes value definition (.root value)
  | member {definition target : Definition} {part found : Part} {field : Field} {name : String}
    (h : Describes value definition part) (hdemand : .value name target ∈ demands definition)
    (hname : name ∈ field.spellings) (hfound : part.field? field = some found) : Describes value target found
  | element {definition target : Definition} {part list item : Part} {field : Field} {name : String}
    (h : Describes value definition part) (hdemand : .elements name target ∈ demands definition)
    (hname : name ∈ field.spellings) (hlist : part.field? field = some list) (hitem : item ∈ list.items) :
    Describes value target item

/-- The parts of a node that may have an assignment: the node itself, its definition entry and those of its list. -/
inductive Holds (node : Part) : Part → Prop
  | self : Holds node node
  | entry {entry : Part} (hentry : node.field? .entry = some entry) : Holds node entry
  | listed {list entry : Part} (hlist : node.field? .entries = some list) (hentry : entry ∈ list.items) :
    Holds node entry

/-! ## Where assignments are -/

/-- Where the parts are that a definition is about. -/
def Place (value : Json) : Definition → Part → Prop
  | .node, part => part.value.isObject = true → ∃ above, IsNode value part above
  | .entry, part => ∃ node above, IsNode value node above ∧ Holds node part
  | .assignment, part => ∃ node above holder, IsNode value node above ∧ Holds node holder ∧
    holder.field? .assignment = some part
  | .scopeMap, _ => True

theorem place_of_describes (h : Describes value definition part) : Place value definition part := by
  induction h with
  | root hstart =>
    obtain rfl := Option.some.inj (start?_eq.symm.trans hstart)
    exact fun hobject => ⟨[], .root hobject⟩
  | @member definition target part found field name h hdemand hname hfound ih =>
    have hobject := Part.isObject_of_field? hfound
    rw [demands_eq] at hdemand
    cases definition with
    | node =>
      obtain ⟨above, hnode⟩ := ih hobject
      simp only [List.mem_cons, Demand.value.injEq, List.not_mem_nil, reduceCtorEq, or_false, false_or] at hdemand
      rcases hdemand with ⟨rfl, rfl⟩ | ⟨rfl, rfl⟩ | ⟨rfl, rfl⟩ | ⟨rfl, rfl⟩
      · obtain rfl : field = .assignment := Field.eq_of_mem_spellings hname (by decide)
        exact ⟨part, above, part, hnode, .self, hfound⟩
      · obtain rfl : field = .entry := Field.eq_of_mem_spellings hname (by decide)
        exact ⟨part, above, hnode, .entry hfound⟩
      · trivial
      · trivial
    | entry =>
      obtain ⟨node, above, hnode, hholds⟩ := ih
      simp only [List.mem_singleton, Demand.value.injEq] at hdemand
      obtain ⟨rfl, rfl⟩ := hdemand
      obtain rfl : field = .assignment := Field.eq_of_mem_spellings hname (by decide)
      exact ⟨node, above, part, hnode, hholds, hfound⟩
    | assignment => cases hdemand
    | scopeMap => cases hdemand
  | @element definition target part list item field name h hdemand hname hlist hitem ih =>
    have hobject := Part.isObject_of_field? hlist
    rw [demands_eq] at hdemand
    cases definition with
    | node =>
      obtain ⟨above, hnode⟩ := ih hobject
      simp only [List.mem_cons, Demand.elements.injEq, List.not_mem_nil, reduceCtorEq, or_false, false_or] at hdemand
      rcases hdemand with ⟨rfl, rfl⟩ | ⟨rfl, rfl⟩
      · obtain rfl : field = .children := Field.eq_of_mem_spellings hname (by decide)
        exact fun hitemObject => ⟨_, .child hnode hlist hitem hitemObject⟩
      · obtain rfl : field = .entries := Field.eq_of_mem_spellings hname (by decide)
        exact ⟨part, above, hnode, .listed hlist hitem⟩
    | entry => simp at hdemand
    | assignment => cases hdemand
    | scopeMap => cases hdemand

theorem describes_of_isNode (h : IsNode value part above) : Describes value .node part := by
  induction h with
  | root => exact .root start?_eq
  | child h hlist hchild hobject ih =>
    have hdemand : .elements "children" .node ∈ demands .node := by rw [demands_eq]; decide
    exact .element ih hdemand (by decide) hlist hchild

theorem describes_of_holds (hnode : Describes value .node node) (hholds : Holds node holder)
    (hfound : holder.field? .assignment = some assignment) : Describes value .assignment assignment := by
  have hown : .value "assignment" .assignment ∈ demands .node := by rw [demands_eq]; decide
  have hnested : .value "assignment" .assignment ∈ demands .entry := by rw [demands_eq]; decide
  cases hholds with
  | self => exact .member hnode hown (by decide) hfound
  | entry hentry =>
    have hdemand : .value "definitionEntry" .entry ∈ demands .node := by rw [demands_eq]; decide
    exact .member (.member hnode hdemand (by decide) hentry) hnested (by decide) hfound
  | listed hlist hentry =>
    have hdemand : .elements "definitionEntryList" .entry ∈ demands .node := by rw [demands_eq]; decide
    exact .member (.element hnode hdemand (by decide) hlist hentry) hnested (by decide) hfound

/-- The schema has a place for assignments on nodes and in their entries. -/
theorem describes_assignment_iff : Describes value .assignment assignment ↔
    ∃ node above holder, IsNode value node above ∧ Holds node holder ∧
      holder.field? .assignment = some assignment := by
  constructor
  · exact place_of_describes
  · rintro ⟨node, above, holder, hnode, hholds, hfound⟩
    exact describes_of_holds (describes_of_isNode hnode) hholds hfound

/-! ## Long names -/

variable {ctx : Context} {path : Path}

/-- A name that is too long stands at a path: that of an assignment where the schema has a place for one. -/
def LongName (value : Json) (path : Path) : Prop :=
  ∃ assignment part name, Describes value .assignment assignment ∧ assignment.field? .name = some part ∧
    part.value.string? = some name ∧ maxNameLength < name.length ∧ path = part.path

/-- A path is that of the name of the assignment on the definition entry of a node. -/
def InEntry (value : Json) (path : Path) : Prop :=
  ∃ node entry assignment part, Describes value .node node ∧ node.field? .entry = some entry ∧
    entry.field? .assignment = some assignment ∧ assignment.field? .name = some part ∧ path = part.path

theorem mem_holders_iff : holder ∈ holders node ↔
    holder = node ∨ ∃ list, node.field? .entries = some list ∧ holder ∈ list.items := by
  unfold holders
  cases node.field? .entries with
  | none => simp
  | some list => simp

theorem name?_eq_some_iff {name : String} : name? holder = some (part, name) ↔
    ∃ assignment, holder.field? .assignment = some assignment ∧ assignment.field? .name = some part ∧
      part.value.string? = some name := by
  simp only [name?, Option.bind_eq_bind, Option.bind_eq_some_iff, Option.pure_def, Option.some.injEq, Prod.mk.injEq]
  constructor
  · rintro ⟨assignment, hassignment, found, hfound, text, htext, rfl, rfl⟩
    exact ⟨assignment, hassignment, hfound, htext⟩
  · rintro ⟨assignment, hassignment, hfound, htext⟩
    exact ⟨assignment, hassignment, part, hfound, name, htext, rfl, rfl⟩

/-- A name that the rule looks at stands under the assignment of a node or under its list of entries. -/
theorem path_of_mem_names {name : String} (h : (part, name) ∈ names node) :
    ∃ field : Field, field ≠ .entry ∧ ∃ key ∈ field.spellings, ∃ rest,
      part.path = node.path ++ .name key :: rest := by
  obtain ⟨holder, hholder, hname⟩ := List.mem_filterMap.mp h
  obtain ⟨key, hkey, rest, hpath⟩ := path_of_name? hname
  rcases mem_holders_iff.mp hholder with rfl | ⟨list, hlist, hitem⟩
  · exact ⟨.assignment, nofun, key, hkey, rest, hpath⟩
  · obtain ⟨listKey, hlistKey, hlistPath⟩ := Part.path_of_field? hlist
    obtain ⟨index, hitemPath⟩ := Part.path_of_mem_items hitem
    rw [hitemPath, hlistPath, List.append_assoc, List.append_assoc] at hpath
    exact ⟨.entries, nofun, listKey, hlistKey, _, hpath⟩

/-- The name on the definition entry of a node stands under that entry. -/
theorem path_of_entry {entry : Part} (hentry : node.field? .entry = some entry)
    (hassignment : entry.field? .assignment = some assignment) (hpart : assignment.field? .name = some part) :
    ∃ key ∈ Field.entry.spellings, ∃ rest, part.path = node.path ++ .name key :: rest := by
  obtain ⟨key, hkey, hentryPath⟩ := Part.path_of_field? hentry
  obtain ⟨_, -, hassignmentPath⟩ := Part.path_of_field? hassignment
  obtain ⟨_, -, hpath⟩ := Part.path_of_field? hpart
  rw [hassignmentPath, hentryPath, List.append_assoc, List.append_assoc] at hpath
  exact ⟨key, hkey, _, hpath⟩

/-! ## Findings of the rule -/

open Issue

theorem onceAt_nameIssues (ctx : Context) (part : Part) (name : String) :
    OnceAt Code.nameLength (fun path => maxNameLength < name.length ∧ path = part.path)
      (nameIssues ctx part name) := by
  unfold nameIssues
  dsimp only
  split
  · next hle => exact onceAt_nil fun path h => absurd h.1 (Nat.not_lt.mpr hle)
  · next hlong => exact onceAt_singleton rfl (.of_data rfl) fun path => and_iff_right (Nat.lt_of_not_le hlong)

/-- Each long name that the rule looks at is reported once. -/
theorem onceAt_checkNames_nodes (ctx : Context) :
    OnceAt Code.nameLength
      (fun path => ∃ node ∈ nodes ctx.value, ∃ named ∈ names node.part,
        maxNameLength < named.2.length ∧ path = named.1.path)
      (checkNames ctx) := by
  refine onceAt_flatMap_nodes (fun node _ => ?_) ?_
  · refine OnceAt.flatMap (fun named _ => onceAt_nameIssues ctx named.1 named.2) ((names_pairwise node.part).imp ?_)
    rintro a b hne path ⟨-, rfl⟩ ⟨-, heq⟩
    exact hne heq
  · rintro node - path ⟨named, hnamed, -, rfl⟩
    exact below_of_mem_names hnamed

/-- The names that the rule looks at are all but those on definition entries. -/
theorem exists_mem_names_iff : (∃ node ∈ nodes value, ∃ named ∈ names node.part,
    maxNameLength < named.2.length ∧ path = named.1.path) ↔ LongName value path ∧ ¬InEntry value path := by
  constructor
  · rintro ⟨node, hnode, ⟨part, name⟩, hnamed, hlong, rfl⟩
    obtain ⟨above, hisNode, -⟩ := mem_nodes_iff.mp hnode
    obtain ⟨holder, hholder, hname⟩ := List.mem_filterMap.mp hnamed
    obtain ⟨assignment, hassignment, hpart, htext⟩ := name?_eq_some_iff.mp hname
    have hholds : Holds node.part holder := by
      rcases mem_holders_iff.mp hholder with rfl | ⟨list, hlist, hitem⟩
      · exact .self
      · exact .listed hlist hitem
    refine ⟨⟨assignment, part, name, ?_, hpart, htext, hlong, rfl⟩, ?_⟩
    · exact describes_assignment_iff.mpr ⟨node.part, above, holder, hisNode, hholds, hassignment⟩
    · rintro ⟨other, entry, assignment, found, hother, hentry, hassignment, hfound, heq⟩
      -- Both names are on one node, but there they stand under different fields.
      obtain ⟨key, hkey, rest, hfoundPath⟩ := path_of_entry hentry hassignment hfound
      obtain ⟨field, hfield, ownKey, hown, ownRest, hpartPath⟩ := path_of_mem_names hnamed
      obtain ⟨above, hotherNode⟩ := place_of_describes hother (Part.isObject_of_field? hentry)
      have hbelow : Below other found.path := .of_field hkey hfoundPath (by decide)
      obtain rfl := eq_of_below hnode hotherNode.mem_nodes (below_of_mem_names hnamed) (heq ▸ hbelow)
      rw [hpartPath, hfoundPath, List.append_cancel_left_eq] at heq
      obtain ⟨rfl, -⟩ := Path.cons_name_inj heq
      exact hfield (Field.eq_of_mem_spellings hown hkey)
  · rintro ⟨⟨assignment, part, name, hdescribes, hpart, htext, hlong, rfl⟩, hentry⟩
    obtain ⟨node, above, holder, hnode, hholds, hassignment⟩ := describes_assignment_iff.mp hdescribes
    refine ⟨_, hnode.mem_nodes, (part, name), List.mem_filterMap.mpr ⟨holder, mem_holders_iff.mpr ?_, ?_⟩, hlong, rfl⟩
    · cases hholds with
      | self => exact .inl rfl
      | entry hfound =>
        refine absurd ?_ hentry
        exact ⟨node, holder, assignment, part, describes_of_isNode hnode, hfound, hassignment, hpart, rfl⟩
      | listed hlist hitem => exact .inr ⟨_, hlist, hitem⟩
    · exact name?_eq_some_iff.mpr ⟨assignment, hassignment, hpart, htext⟩

/-- Each long name is reported once, but for those on definition entries. -/
theorem onceAt_checkNames (ctx : Context) :
    OnceAt Code.nameLength (fun path => LongName ctx.value path ∧ ¬InEntry ctx.value path) (checkNames ctx) :=
  (onceAt_checkNames_nodes ctx).congr fun _ => exists_mem_names_iff

/-- **Lengths of names.** In a clean document the schema has a place for assignments on every node, on its definition
entry and on the entries of its list. The rule reports the name of an assignment once if it is longer than 24
characters and not on a definition entry, and it reports nothing else, nor does another rule report it. So each long
name is reported once exactly when none is on a definition entry. -/
theorem checkNames_of_isClean {text : String} (hclean : (Document.ofText text).isClean = true)
    (registry : Registry) : ∃ ctx issues,
      Context.ofDocument? (.ofText text) = some ctx ∧
      (Rule.nameLength.check ctx registry).1 = .ok issues ∧
      (∀ assignment, Describes ctx.value .assignment assignment ↔
        ∃ node above holder, IsNode ctx.value node above ∧ Holds node holder ∧
          holder.field? .assignment = some assignment) ∧
      OnceAt Code.nameLength (fun path => LongName ctx.value path ∧ ¬InEntry ctx.value path) issues ∧
      (OnceAt Code.nameLength (LongName ctx.value) issues ↔
        ∀ path, LongName ctx.value path → ¬InEntry ctx.value path) ∧
      ∀ (rule : Rule) (others : List Issue), rule ≠ .nameLength →
        (rule.check ctx registry).1 = .ok others → ∀ issue ∈ others, issue.code ≠ Code.nameLength := by
  obtain ⟨value, htext⟩ := Renders.exists_of_isClean hclean
  have honce := onceAt_checkNames ⟨.ofText text, value⟩
  refine ⟨_, _, htext.context_eq, rfl, fun _ => describes_assignment_iff, honce,
    ⟨fun h path hlong => ?_, fun h => ?_⟩, ?_⟩
  · exact (honce.exists_iff.mp (h.exists_iff.mpr hlong)).2
  · exact honce.congr fun path => and_iff_left_of_imp (h path)
  · intro rule others hrule hothers issue hissue hcode
    have hcodes := (Rule.ownsAll_check hothers issue hissue).code
    rw [hcode] at hcodes
    exact hrule (Rule.eq_of_mem_codes hcodes (by decide))

/-- A node with a long name of its own and one in its list of entries. -/
theorem checkNames_of_isClean_of_list :
    let text := "\x7b\"assignment\":\x7b\"name\":\"abcdefghijklmnopqrstuvwxy\"\x7d," ++
      "\"definitionEntryList\":[\x7b\x7d,\x7b\"Assignment\":\x7b\"Name\":\"ABCDEFGHIJKLMNOPQRSTUVWXY\"\x7d\x7d]\x7d"
    (Document.ofText text).isClean = true ∧ ∃ ctx own listed,
      Context.ofDocument? (.ofText text) = some ctx ∧
      (Rule.nameLength.check ctx (.new none)).1 = .ok [own, listed] ∧
      LongName ctx.value [.name "assignment", .name "name"] ∧
      LongName ctx.value [.name "definitionEntryList", .index 1, .name "Assignment", .name "Name"] := by
  intro text
  have hread : (Document.ofText text).isClean = true ∧
      (Context.ofDocument? (.ofText text)).map
          (fun ctx => (checkNames ctx).map fun issue => (issue.code, issue.path?)) =
        some [(Code.nameLength, some [.name "assignment", .name "name"]),
          (Code.nameLength, some [.name "definitionEntryList", .index 1, .name "Assignment", .name "Name"])] := by
    decide +kernel
  obtain ⟨hclean, hread⟩ := hread
  obtain ⟨ctx, issues, hctx, hcheck, -, honce, -, -⟩ := checkNames_of_isClean hclean (.new none)
  obtain rfl : checkNames ctx = issues := Except.ok.inj hcheck
  rw [hctx, Option.map_some, Option.some.injEq] at hread
  obtain ⟨own, _, hissues, hfirst, hrest⟩ := List.map_eq_cons_iff.mp hread
  obtain ⟨listed, rfl, hsecond⟩ := List.map_eq_singleton_iff.mp hrest
  obtain ⟨hcode, hpath⟩ := Prod.mk.inj hfirst
  obtain ⟨hcode', hpath'⟩ := Prod.mk.inj hsecond
  rw [hissues] at hcheck honce
  exact ⟨hclean, ctx, own, listed, hctx, hcheck, (honce.of_path? List.mem_cons_self hcode hpath).1,
    (honce.of_path? (List.mem_cons_of_mem _ List.mem_cons_self) hcode' hpath').1⟩

/-- Not every long name is reported: the one here is on a definition entry. -/
theorem checkNames_misses_entry :
    let text := "\x7b\"nodeName\":\"/r\",\"definitionEntry\":\x7b\"policyName\":\"p\"," ++
      "\"assignment\":\x7b\"name\":\"abcdefghijklmnopqrstuvwxy\"\x7d\x7d\x7d"
    (Document.ofText text).isClean = true ∧ ∃ ctx,
      Context.ofDocument? (.ofText text) = some ctx ∧
      (Rule.nameLength.check ctx (.new none)).1 = .ok [] ∧
      LongName ctx.value [.name "definitionEntry", .name "assignment", .name "name"] ∧
      ¬OnceAt Code.nameLength (LongName ctx.value) (checkNames ctx) := by
  intro text
  have hread : (Document.ofText text).isClean = true ∧
      (Context.ofDocument? (.ofText text)).map (fun ctx => ((checkNames ctx).map (·.code),
        ((((Part.root ctx.value).field? .entry).bind (·.field? .assignment)).bind (·.field? .name)).map fun part =>
          (part.path, part.value.string?))) =
        some ([], some ([.name "definitionEntry", .name "assignment", .name "name"],
          some "abcdefghijklmnopqrstuvwxy")) := by decide +kernel
  obtain ⟨hclean, hread⟩ := hread
  obtain ⟨ctx, hctx, hread⟩ := Option.map_eq_some_iff.mp hread
  obtain ⟨hissues, hpart⟩ := Prod.mk.inj hread
  obtain ⟨part, hpart, hname⟩ := Option.map_eq_some_iff.mp hpart
  obtain ⟨hpath, htext⟩ := Prod.mk.inj hname
  obtain ⟨assignment, hassignment, hpart⟩ := Option.bind_eq_some_iff.mp hpart
  obtain ⟨entry, hentry, hassignment⟩ := Option.bind_eq_some_iff.mp hassignment
  have hsilent : checkNames ctx = [] := List.map_eq_nil_iff.mp hissues
  have hlong : LongName ctx.value [.name "definitionEntry", .name "assignment", .name "name"] := by
    refine ⟨assignment, part, _, ?_, hpart, htext, by decide, hpath.symm⟩
    exact describes_of_holds (.root start?_eq) (.entry hentry) hassignment
  refine ⟨hclean, ctx, hctx, congrArg Except.ok hsilent, hlong, fun h => ?_⟩
  exact h.forall_code_ne_iff.mp (hsilent ▸ nofun) _ hlong

end Assignment

end PolicyAudit
