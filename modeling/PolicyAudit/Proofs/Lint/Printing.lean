-- SUMMARY: What is printed for a value is written for a tree of that value, also where its lines are indented.
import PolicyAudit.Lint.Edit
import PolicyAudit.Proofs.Syntax.Walk

/-! ## Indented lines -/

namespace PolicyAudit

variable {indent a b g : List Char} {depth : Nat}

namespace Edit

theorem indentLines_append (indent a b : List Char) :
    indentLines indent (a ++ b) = indentLines indent a ++ indentLines indent b := List.flatMap_append

/-- Without an indentation a text stays as it is. -/
theorem indentLines_nil (a : List Char) : indentLines [] a = a := by
  have hsingle : (fun c => if c = '\n' then [c] else [c]) = List.singleton (α := Char) :=
    funext fun _ => ite_self _
  rw [indentLines, hsingle]
  exact List.flatMap_singleton' a

/-- A text on one line stays as it is. -/
theorem indentLines_of_not_mem (indent : List Char) (h : '\n' ∉ a) : indentLines indent a = a := by
  induction a with
  | nil => rfl
  | cons c a ih =>
    simp only [List.mem_cons, not_or] at h
    rw [indentLines, List.flatMap_cons, if_neg (Ne.symm h.1), ← indentLines, ih h.2]
    rfl

theorem indentLines_render (indent : List Char) (s : String) :
    indentLines indent (Quoted.render s) = Quoted.render s := by
  apply indentLines_of_not_mem
  have := Quoted.feed_not_mem_encode s.toList
  simpa [Quoted.render] using this

theorem gap_replicate (n : Nat) : Gap (List.replicate n ' ') := by
  induction n with
  | zero => exact .nil
  | succ n ih => exact .blank (by decide) ih

/-- A line break and two indentations. -/
theorem gap_indentLines_lineBreak (hindent : Gap indent) (level : Nat) :
    Gap (indentLines indent (Json.lineBreak level)) := by
  have hblanks : '\n' ∉ List.replicate (2 * level) ' ' := by simp
  have hbreak : indentLines indent (Json.lineBreak level) =
      '\n' :: (indent ++ List.replicate (2 * level) ' ') := by
    rw [Json.lineBreak, indentLines, List.flatMap_cons, if_pos rfl, ← indentLines,
      indentLines_of_not_mem indent hblanks]
    rfl
  rw [hbreak]
  exact .blank (by decide) (hindent.append (gap_replicate _))

end Edit

open Edit

/-! ## Scalars -/

theorem Literal.render (s : String) : Literal (.string s) (Quoted.render s) := by
  have hdecode := Literal.string (Quoted.decode_encode s.toList)
  rwa [String.ofList_toList] at hdecode

namespace Scalar

variable {value : Scalar}

theorem literal_render (h : value.Exact) : Literal value value.render := by
  cases value with
  | null => exact .null
  | bool value => cases value <;> constructor
  | string s => exact .render s
  | number n =>
    cases n with
    | int n => exact .number (Number.ofChars?_toString h.1 h.2)
    | float x => cases h

/-- A scalar stands on one line. -/
theorem feed_not_mem_render (h : value.Exact) : '\n' ∉ value.render := by
  cases value with
  | null => decide
  | bool value => cases value <;> decide
  | string s => simpa [render, Quoted.render] using Quoted.feed_not_mem_encode s.toList
  | number n =>
    cases n with
    | int n =>
      obtain ⟨numeral, hnumeral, -⟩ := Option.bind_eq_some_iff.mp (Number.ofChars?_toString h.1 h.2)
      exact fun hfeed => absurd ((Numeral.ofChars?_spec hnumeral).2 _ hfeed) (by decide)
    | float x => cases h

end Scalar

/-! ## Layouts

Both forms put a comma between the parts of a container. A layout says what stands before each part, what
before the closing bracket, and what between the colon and a value. -/

namespace Json

/-- A text inside `depth` containers is written for a sorted tree of a value, wherever it stands. -/
def Shows (depth : Nat) (value : Json) (w : List Char) : Prop :=
  ∀ pos, ∃ tree, Writes depth pos (.value tree) w ∧ tree.toJson = value ∧ tree.Sorted

theorem Shows.spells {value : Json} {w : List Char} (h : Shows depth value w) :
    Spells depth (.value value) w := by
  obtain ⟨tree, hwrites, rfl, -⟩ := h 0
  exact hwrites.spells

variable {text : Json → List Char} {lead trail blank : List Char} {item : Json} {items : List Json}
variable {member : String × Json} {members : List (String × Json)}

/-- The text of an array in a layout. -/
def layItems (text : Json → List Char) (lead : List Char) (items : List Json) : List Char :=
  [','].intercalate (items.map fun item => lead ++ text item)

/-- The text of an object in a layout. -/
def layMembers (text : Json → List Char) (lead blank : List Char) (members : List (String × Json)) : List Char :=
  [','].intercalate (members.map fun (name, value) =>
    lead ++ (Quoted.render name ++ ':' :: (blank ++ text value)))

theorem exists_items (hlead : Gap lead) (htrail : Gap trail)
    (h : ∀ part ∈ item :: items, Shows depth part (text part)) (pos : Nat) :
    ∃ trees, Writes depth pos (.items trees) (layItems text lead (item :: items) ++ trail) ∧
      trees.map Tree.toJson = item :: items ∧ ∀ tree ∈ trees, tree.Sorted := by
  induction items generalizing item pos with
  | nil =>
    obtain ⟨tree, hwrites, rfl, hsorted⟩ := h item List.mem_cons_self (pos + Text.byteLength lead)
    refine ⟨[tree], ?_, rfl, by simpa using hsorted⟩
    simpa [layItems] using Writes.lastItem hlead hwrites htrail
  | cons next items ih =>
    obtain ⟨tree, hwrites, rfl, hsorted⟩ := h item List.mem_cons_self (pos + Text.byteLength lead)
    obtain ⟨trees, hrest, hvalues, hall⟩ := ih (fun found hfound => h found (List.mem_cons_of_mem _ hfound))
      (pos + Text.byteLength (lead ++ (text tree.toJson ++ ([] ++ [',']))))
    refine ⟨tree :: trees, ?_, by rw [List.map_cons, hvalues], List.forall_mem_cons.mpr ⟨hsorted, hall⟩⟩
    simpa [layItems] using Writes.consItem hlead hwrites .nil hrest

theorem Shows.exists_member {value : Json} {w : List Char} (h : Shows depth value w) (name : String)
    (hblank : Gap blank) (pos : Nat) :
    ∃ nameSpan tree, Writes depth pos (.member name nameSpan tree) (Quoted.render name ++ ':' :: (blank ++ w)) ∧
      tree.toJson = value ∧ tree.Sorted := by
  obtain ⟨tree, hwrites, hvalue, hsorted⟩ := h (pos + Text.byteLength (Quoted.render name ++ ([] ++ ':' :: blank)))
  exact ⟨_, tree, .named (.render name) .nil hblank hwrites, hvalue, hsorted⟩

theorem exists_members (hlead : Gap lead) (hblank : Gap blank) (htrail : Gap trail)
    (h : ∀ m ∈ member :: members, Shows depth m.2 (text m.2)) (pos : Nat) :
    ∃ found, Writes depth pos (.members found) (layMembers text lead blank (member :: members) ++ trail) ∧
      Tree.entries found = member :: members ∧ found.map (·.name) = Keyed.names (member :: members) ∧
      ∀ m ∈ found, ∀ tree, m.value? = some tree → tree.Sorted := by
  induction members generalizing member pos with
  | nil =>
    obtain ⟨name, value⟩ := member
    obtain ⟨nameSpan, tree, hmember, rfl, hsorted⟩ :=
      (h _ List.mem_cons_self).exists_member name hblank (pos + Text.byteLength lead)
    have hmembers := Writes.lastMember hlead hmember htrail
    refine ⟨_, hmembers.as_text (by simp [layMembers]), rfl, rfl, ?_⟩
    rintro m hm sub hsub
    rw [List.mem_singleton.mp hm] at hsub
    exact Option.some.inj hsub ▸ hsorted
  | cons next members ih =>
    obtain ⟨name, value⟩ := member
    obtain ⟨nameSpan, tree, hmember, rfl, hsorted⟩ :=
      (h _ List.mem_cons_self).exists_member name hblank (pos + Text.byteLength lead)
    obtain ⟨found, hrest, hentries, hnames, hall⟩ := ih (fun m hm => h m (List.mem_cons_of_mem _ hm))
      (pos + Text.byteLength (lead ++
        (Quoted.render name ++ ':' :: (blank ++ text tree.toJson) ++ ([] ++ [',']))))
    have hmembers := Writes.consMember hlead hmember .nil hrest
    refine ⟨_, hmembers.as_text (by simp [layMembers]), ?_, ?_, ?_⟩
    · rw [Tree.entries_cons, hentries]
    · rw [List.map_cons, hnames]
      rfl
    · rintro m hm sub hsub
      rcases List.mem_cons.mp hm with rfl | hrest
      · exact Option.some.inj hsub ▸ hsorted
      · exact hall m hrest sub hsub

theorem Shows.array (hdepth : depth ≤ Document.maxDepth) (hlead : Gap lead) (htrail : Gap trail)
    (h : ∀ part ∈ item :: items, Shows (depth + 1) part (text part)) :
    Shows depth (.array (item :: items)) ('[' :: (layItems text lead (item :: items) ++ trail ++ [']'])) := by
  intro pos
  obtain ⟨trees, hwrites, hvalues, hsorted⟩ := exists_items hlead htrail h (pos + 1)
  exact ⟨_, .array hdepth hwrites, by rw [Tree.toJson_array, hvalues], .array hsorted⟩

theorem Shows.object (hdepth : depth ≤ Document.maxDepth) (hlead : Gap lead) (hblank : Gap blank)
    (htrail : Gap trail) (hnames : Keyed.Ascending (member :: members))
    (h : ∀ m ∈ member :: members, Shows (depth + 1) m.2 (text m.2)) :
    Shows depth (.object (member :: members))
      ('{' :: (layMembers text lead blank (member :: members) ++ trail ++ ['}'])) := by
  intro pos
  obtain ⟨found, hwrites, hentries, hsame, hsorted⟩ := exists_members hlead hblank htrail h (pos + 1)
  refine ⟨_, .object hdepth hwrites, ?_, .object ?_ hsorted⟩
  · rw [Tree.toJson_object, hentries, ofMembers_eq hnames]
  · have hpairwise : (found.map (·.name)).Pairwise (· < ·) := hsame ▸ List.pairwise_map.mpr hnames
    exact List.pairwise_map.mp hpairwise

/-! ## The two forms -/

theorem compactItems_eq (items : List Json) : compactItems true items = layItems compact [] items := by
  induction items with
  | nil => rfl
  | cons item items ih =>
    cases items with
    | nil => simp [compactItems, layItems]
    | cons next items => simpa [compactItems, layItems] using ih

theorem compactMembers_eq (members : List (String × Json)) :
    compactMembers true members = layMembers compact [] [] members := by
  induction members with
  | nil => rfl
  | cons member members ih =>
    cases members with
    | nil => simp [compactMembers, layMembers]
    | cons next members => simpa [compactMembers, layMembers] using ih

variable {level : Nat}

theorem indentLines_comma (indent a : List Char) : indentLines indent (',' :: a) = ',' :: indentLines indent a := rfl

theorem indentLines_indentedItems (indent : List Char) (level : Nat) (items : List Json) :
    indentLines indent (indentedItems level true items) =
      layItems (fun item => indentLines indent (item.indented level))
        (indentLines indent (lineBreak level)) items := by
  induction items with
  | nil => rfl
  | cons item items ih =>
    cases items with
    | nil => simp [indentedItems, layItems, indentLines_append]
    | cons next items => simpa [indentedItems, layItems, indentLines_append, indentLines_comma] using ih

theorem indentLines_colon (indent a : List Char) :
    indentLines indent (':' :: ' ' :: a) = ':' :: ' ' :: indentLines indent a := rfl

theorem indentLines_indentedMembers (indent : List Char) (level : Nat) (members : List (String × Json)) :
    indentLines indent (indentedMembers level true members) =
      layMembers (fun value => indentLines indent (value.indented level))
        (indentLines indent (lineBreak level)) [' '] members := by
  induction members with
  | nil => rfl
  | cons member members ih =>
    cases members with
    | nil => simp [indentedMembers, layMembers, indentLines_append, indentLines_render, indentLines_colon]
    | cons next members =>
      simpa [indentedMembers, layMembers, indentLines_append, indentLines_render, indentLines_colon,
        indentLines_comma] using ih

/-- A bracket and what stands before the closing one. -/
theorem indentLines_between (indent : List Char) {first last : Char} (hfirst : first ≠ '\n')
    (hlast : last ≠ '\n') (a : List Char) :
    indentLines indent (first :: (a ++ [last])) = first :: (indentLines indent a ++ [last]) := by
  have hone {c : Char} (hc : c ≠ '\n') : indentLines indent [c] = [c] :=
    indentLines_of_not_mem indent (by simpa using hc.symm)
  rw [← List.singleton_append, indentLines_append, indentLines_append, hone hfirst, hone hlast]
  rfl

/-- Both printed forms of a value are written for it inside `depth` containers, the indented one also with an
indentation put before its lines. -/
structure Prints (depth : Nat) (value : Json) : Prop where
  compact : Shows depth value value.compact
  indented : ∀ {indent : List Char}, Gap indent → ∀ level,
    Shows depth value (indentLines indent (value.indented level))

variable {value : Json}

theorem prints_scalar {value : Scalar} (hdepth : depth ≤ Document.maxDepth) (hexact : value.Exact) :
    Prints depth (.scalar value) := by
  have hshows : Shows depth (.scalar value) value.render := fun pos =>
    ⟨_, .scalar hdepth (value.literal_render hexact), rfl, .scalar⟩
  refine ⟨by rwa [Json.compact], fun _ level => ?_⟩
  rwa [Json.indented, indentLines_of_not_mem _ (value.feed_not_mem_render hexact)]

theorem prints_array (hdepth : depth ≤ Document.maxDepth) (h : ∀ item ∈ items, Prints (depth + 1) item) :
    Prints depth (.array items) := by
  cases items with
  | nil =>
    have hshows : Shows depth (.array []) ['[', ']'] := fun pos =>
      ⟨_, .array hdepth (.noItem .nil), rfl, .array nofun⟩
    exact ⟨hshows, fun _ _ => by rwa [Json.indented, indentLines_of_not_mem _ (by decide)]⟩
  | cons item items =>
    refine ⟨?_, fun {indent} hindent level => ?_⟩
    · have hitems := Shows.array hdepth .nil .nil fun part hpart => (h part hpart).compact
      simpa [Json.compact, compactItems_eq] using hitems
    · have hitems := Shows.array hdepth (gap_indentLines_lineBreak hindent (level + 1))
        (gap_indentLines_lineBreak hindent level) fun part hpart => (h part hpart).indented hindent (level + 1)
      have htext : Json.indented level (.array (item :: items)) =
          '[' :: (indentedItems (level + 1) true (item :: items) ++ lineBreak level ++ [']']) := by
        rw [Json.indented]
        · simp
        · exact List.cons_ne_nil _ _
      rwa [htext, indentLines_between indent (by decide) (by decide), indentLines_append,
        indentLines_indentedItems]

theorem prints_object (hdepth : depth ≤ Document.maxDepth) (hnames : Keyed.Ascending members)
    (h : ∀ m ∈ members, Prints (depth + 1) m.2) : Prints depth (.object members) := by
  cases members with
  | nil =>
    have hshows : Shows depth (.object []) ['{', '}'] := fun pos =>
      ⟨_, .object hdepth (.noMember .nil), rfl, .object .nil nofun⟩
    exact ⟨hshows, fun _ _ => by rwa [Json.indented, indentLines_of_not_mem _ (by decide)]⟩
  | cons member members =>
    refine ⟨?_, fun {indent} hindent level => ?_⟩
    · have hmembers := Shows.object hdepth .nil .nil .nil hnames fun m hm => (h m hm).compact
      simpa [Json.compact, compactMembers_eq] using hmembers
    · have hblank : Gap [' '] := .blank (by decide) .nil
      let text (value : Json) := indentLines indent (value.indented (level + 1))
      have hparts : ∀ m ∈ member :: members, Shows (depth + 1) m.2 (text m.2) := fun m hm =>
        (h m hm).indented hindent (level + 1)
      have hmembers := Shows.object hdepth (gap_indentLines_lineBreak hindent (level + 1)) hblank
        (gap_indentLines_lineBreak hindent level) hnames hparts
      have htext : Json.indented level (.object (member :: members)) =
          '{' :: (indentedMembers (level + 1) true (member :: members) ++ lineBreak level ++ ['}']) := by
        rw [Json.indented]
        · simp
        · exact List.cons_ne_nil _ _
      rwa [htext, indentLines_between indent (by decide) (by decide), indentLines_append,
        indentLines_indentedMembers]

/-- A sorted value with exact numbers is printed for itself, where it is not nested too deep. -/
theorem Sorted.prints {value : Json} (h : value.Sorted) (hexact : value.Exact)
    (hdepth : depth + value.reach ≤ Document.maxDepth) : Prints depth value := by
  have hhere : depth ≤ Document.maxDepth := Nat.le_trans (Nat.le_add_right ..) hdepth
  induction h generalizing depth with
  | scalar value => exact prints_scalar hhere (exact_scalar_iff.mp hexact)
  | @array items _ ih =>
    refine prints_array hhere fun item hitem => ?_
    have hlt := reach_lt_of_mem_items hitem
    exact ih item hitem (exact_array_iff.mp hexact item hitem) (by omega) (by omega)
  | @object members hnames _ ih =>
    refine prints_object hhere hnames fun member hmember => ?_
    have hlt := reach_lt_of_mem_members hmember
    exact ih member hmember (exact_object_iff.mp hexact member hmember) (by omega) (by omega)

theorem prints_string (s : String) (hdepth : depth ≤ Document.maxDepth) : Prints depth (.string s) :=
  prints_scalar hdepth trivial

end Json

end PolicyAudit
