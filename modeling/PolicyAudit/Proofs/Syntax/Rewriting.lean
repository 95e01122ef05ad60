-- SUMMARY: What is written for a part of a tree can be replaced in place, and nothing else of the value changes.
import PolicyAudit.Proofs.Syntax.Lookup

/-! ## Replacing a part of a value -/

namespace PolicyAudit

open Text

/-- A value becomes another when `part` is put at a path. Everything beside the path can be looked up as
before. -/
inductive Json.Puts (part : Json) : Path → Json → Json → Prop where
  | here (value : Json) : Puts part [] value part
  | name {value value' child child' : Json} {name : String} {path : Path} :
      value.get? name = some child → Puts part path child child' → value'.get? name = some child' →
      (∀ other, other ≠ name → value'.get? other = value.get? other) →
      Puts part (.name name :: path) value value'
  | index {items : List Json} {child child' : Json} {index : Nat} {path : Path} :
      items[index]? = some child → Puts part path child child' →
      Puts part (.index index :: path) (.array items) (.array (items.set index child'))

namespace Json

variable {part value value' child : Json} {p q : Path}

/-- Putting a part deep down is putting what becomes of a part in between. -/
theorem Puts.exists_between (h : Puts part (p ++ q) value value') (hchild : value.at? p = some child) :
    ∃ child', Puts child' p value value' ∧ Puts part q child child' := by
  induction p generalizing value value' with
  | nil =>
    rw [at?_nil] at hchild
    obtain rfl := Option.some.inj hchild
    exact ⟨value', .here value, h⟩
  | cons key p ih =>
    rw [at?_cons] at hchild
    obtain ⟨next, hnext, hbelow⟩ := Option.bind_eq_some_iff.mp hchild
    cases h with
    | name hold hput hnew hothers =>
      cases value with
      | object members =>
        obtain rfl := Option.some.inj (hold.symm.trans hnext)
        obtain ⟨child', hfirst, hsecond⟩ := ih hput hbelow
        exact ⟨child', .name hold hfirst hnew hothers, hsecond⟩
      | array items => cases hold
      | scalar scalar => cases hold
    | index hold hput =>
      obtain rfl := Option.some.inj (hold.symm.trans hnext)
      obtain ⟨child', hfirst, hsecond⟩ := ih hput hbelow
      exact ⟨child', .index hold hfirst, hsecond⟩

end Json

theorem Keyed.find?_cons_replace {α : Type} {name k other : String} {value new : α} {rest : Keyed α}
    (h : k = name) :
    find? other ((k, new) :: rest) = if other = name then some new else find? other ((k, value) :: rest) := by
  subst h
  rw [find?_cons, find?_cons]
  by_cases hother : k = other
  · rw [if_pos hother, if_pos hother.symm]
  · rw [if_neg hother, if_neg (Ne.symm hother), if_neg hother]

/-! ## The same text elsewhere -/

/-- How the members of an object are headed: by their names, each with the length of what is written for
it. -/
def Tree.heads (members : List (Member Tree)) : List (String × Nat) :=
  members.map fun member => (member.name, member.nameSpan.length)

theorem Tree.heads_cons (member : Member Tree) (members : List (Member Tree)) :
    heads (member :: members) = (member.name, member.nameSpan.length) :: heads members := rfl

/-- Pieces that differ in their places only, as far as values and the heads of members can tell. -/
inductive Piece.Alike : Piece → Piece → Prop where
  | value {tree tree' : Tree} : tree'.toJson = tree.toJson → Alike (.value tree) (.value tree')
  | items {items items' : List Tree} : items'.map Tree.toJson = items.map Tree.toJson →
      Alike (.items items) (.items items')
  | member {name : String} {nameSpan nameSpan' : Span} {tree tree' : Tree} :
      nameSpan'.length = nameSpan.length → tree'.toJson = tree.toJson →
      Alike (.member name nameSpan tree) (.member name nameSpan' tree')
  | members {members members' : List (Member Tree)} :
      Tree.entries members' = Tree.entries members → Tree.heads members' = Tree.heads members →
      Alike (.members members) (.members members')

variable {depth pos below : Nat} {piece : Piece} {sub : Tree} {w pre mid post : List Char}

/-- A text is written for much the same wherever it stands. -/
theorem Writes.shift (h : Writes depth pos piece w) (pos' : Nat) :
    ∃ piece', Writes depth pos' piece' w ∧ piece.Alike piece' := by
  induction h generalizing pos' with
  | scalar hdepth hw => exact ⟨_, .scalar hdepth hw, .value rfl⟩
  | array hdepth _ ih =>
    obtain ⟨_, hw, hp⟩ := ih (pos' + 1)
    cases hp with
    | items hitems => exact ⟨_, .array hdepth hw, .value (by simp only [Tree.toJson_array, hitems])⟩
  | object hdepth _ ih =>
    obtain ⟨_, hw, hp⟩ := ih (pos' + 1)
    cases hp with
    | members hentries =>
      exact ⟨_, .object hdepth hw, .value (by simp only [Tree.toJson_object, hentries])⟩
  | noItem hg => exact ⟨_, .noItem hg, .items rfl⟩
  | lastItem hg _ hg' ih =>
    obtain ⟨_, hw, hp⟩ := ih _
    cases hp with
    | value hvalue => exact ⟨_, .lastItem hg hw hg', .items (by simp only [List.map_cons, hvalue])⟩
  | consItem hg _ hg' _ ih ihrest =>
    obtain ⟨_, hw, hp⟩ := ih _
    obtain ⟨_, hrest, hps⟩ := ihrest _
    cases hp with
    | value hvalue =>
      cases hps with
      | items hitems =>
        exact ⟨_, .consItem hg hw hg' hrest, .items (by simp only [List.map_cons, hvalue, hitems])⟩
  | named hk hg hg' _ ih =>
    obtain ⟨_, hw, hp⟩ := ih _
    cases hp with
    | value hvalue => exact ⟨_, .named hk hg hg' hw, .member rfl hvalue⟩
  | noMember hg => exact ⟨_, .noMember hg, .members rfl rfl⟩
  | lastMember hg _ hg' ih =>
    obtain ⟨_, hw, hp⟩ := ih _
    cases hp with
    | member hlength hvalue =>
      exact ⟨_, .lastMember hg hw hg', .members (by simp [Tree.entries, hvalue]) (by simp [Tree.heads, hlength])⟩
  | consMember hg _ hg' _ ih ihrest =>
    obtain ⟨_, hw, hp⟩ := ih _
    obtain ⟨_, hrest, hps⟩ := ihrest _
    cases hp with
    | member hlength hvalue =>
      cases hps with
      | members hentries hheads =>
        refine ⟨_, .consMember hg hw hg' hrest, .members ?_ ?_⟩
        · rw [Tree.entries_cons, Tree.entries_cons, hvalue, hentries]
        · rw [Tree.heads_cons, Tree.heads_cons, hlength, hheads]

/-! ## Replacing a part of a text

Between what stands before a part and what stands after it anything can be written that may stand so
deep. -/

/-- In the text `pre ++ mid ++ post` at byte `pos`, `mid` is written for `sub` inside `below` containers.
Where something is written for another tree in its place, the text is written for a piece that `becomes` of
that tree. -/
structure Writes.Slot (depth pos below : Nat) (pre mid post : List Char) (sub : Tree)
    (becomes : Tree → Piece → Prop) : Prop where
  part : Writes below (pos + byteLength pre) (.value sub) mid
  rewrite : ∀ {tree : Tree} {mid' : List Char}, Writes below (pos + byteLength pre) (.value tree) mid' →
    ∃ piece, Writes depth pos piece (pre ++ (mid' ++ post)) ∧ becomes tree piece

/-- What stands around a piece stands around its part as well. -/
theorem Writes.Slot.surround {outside : Nat} {becomes becomes' : Tree → Piece → Prop} (front back : List Char)
    (h : Slot depth (pos + byteLength front) below pre mid post sub becomes)
    (hbecomes : ∀ {tree : Tree} {piece : Piece} {w : List Char}, becomes tree piece →
      Writes depth (pos + byteLength front) piece w →
      ∃ piece', Writes outside pos piece' (front ++ (w ++ back)) ∧ becomes' tree piece') :
    Slot outside pos below (front ++ pre) mid (post ++ back) sub becomes' := by
  have hat : pos + byteLength front + byteLength pre = pos + byteLength (front ++ pre) := by
    rw [byteLength_append, Nat.add_assoc]
  refine ⟨h.part.at_pos hat, fun hnew => ?_⟩
  obtain ⟨piece, hpiece, hinner⟩ := h.rewrite (hnew.at_pos hat.symm)
  obtain ⟨piece', hpiece', houter⟩ := hbecomes hinner hpiece
  exact ⟨piece', hpiece'.as_text (by simp), houter⟩

/-- The elements after one of them is replaced. -/
theorem Writes.slot_of_items {found : List Tree} (h : Writes depth pos (.items found) w) {index : Nat}
    (hsub : found[index]? = some sub) :
    ∃ pre mid post, w = pre ++ (mid ++ post) ∧ Slot depth pos depth pre mid post sub
      fun tree piece => ∃ items', piece = .items items' ∧
        items'.map Tree.toJson = (found.map Tree.toJson).set index tree.toJson := by
  generalize hp : Piece.items found = p at h
  induction h generalizing found index with
  | noItem =>
    obtain rfl := Piece.items.inj hp
    cases hsub
  | @lastItem _ _ tree g w g' hg hw hg' =>
    obtain rfl := Piece.items.inj hp
    cases index with
    | zero =>
      obtain rfl := Option.some.inj hsub
      exact ⟨g, w, g', rfl, hw, fun hnew => ⟨_, .lastItem hg hnew hg', _, rfl, rfl⟩⟩
    | succ index => cases hsub
  | @consItem _ pos tree items g w g' rest hg hw hg' hrest _ ih =>
    obtain rfl := Piece.items.inj hp
    cases index with
    | zero =>
      obtain rfl := Option.some.inj hsub
      refine ⟨g, w, g' ++ ',' :: rest, rfl, hw, fun {_ mid'} hnew => ?_⟩
      obtain ⟨_, hshifted, hp⟩ := hrest.shift (pos + byteLength (g ++ (mid' ++ (g' ++ [',']))))
      cases hp with
      | items hitems =>
        refine ⟨_, .consItem hg hnew hg' hshifted, _, rfl, ?_⟩
        simp only [List.map_cons, List.set_cons_zero, hitems]
    | succ index =>
      have hbelow : items[index]? = some sub := hsub
      obtain ⟨pre, mid, post, rfl, hslot⟩ := ih hbelow rfl
      refine ⟨g ++ (w ++ (g' ++ [','])) ++ pre, mid, post ++ [], by simp, hslot.surround _ [] ?_⟩
      rintro new _ w' ⟨items', rfl, hitems⟩ hrest'
      refine ⟨.items (tree :: items'), ?_, _, rfl, ?_⟩
      · simpa using Writes.consItem hg hw hg' hrest'
      · simp only [List.map_cons, List.set_cons_succ, hitems]
  | _ => cases hp

/-- A member after its value is replaced. -/
theorem Writes.slot_of_member {name : String} {nameSpan : Span}
    (h : Writes depth pos (.member name nameSpan sub) w) :
    ∃ pre mid, w = pre ++ (mid ++ []) ∧ Slot depth pos depth pre mid [] sub
      fun tree piece => piece = .member name nameSpan tree := by
  cases h with
  | @named _ _ _ _ k g g' w hk hg hg' hw =>
    refine ⟨k ++ (g ++ ':' :: g'), w, by simp, hw, fun {tree mid'} hnew => ⟨_, ?_, rfl⟩⟩
    simpa using Writes.named hk hg hg' hnew

/-- The members after the value of one of them is replaced. -/
theorem Writes.slot_of_members {found : List (Member Tree)} {member : Member Tree} {name : String}
    (h : Writes depth pos (.members found) w) (hfirst : found.find? (·.name = name) = some member)
    (hsub : member.value? = some sub) :
    ∃ pre mid post, w = pre ++ (mid ++ post) ∧ Slot depth pos depth pre mid post sub
      fun tree piece => ∃ members', piece = .members members' ∧ Tree.heads members' = Tree.heads found ∧
        ∀ other, Keyed.find? other (Tree.entries members') =
          if other = name then some tree.toJson else Keyed.find? other (Tree.entries found) := by
  generalize hp : Piece.members found = p at h
  induction h generalizing found with
  | noMember =>
    obtain rfl := Piece.members.inj hp
    cases hfirst
  | @lastMember _ pos name' nameSpan tree g w g' hg hw hg' =>
    obtain rfl := Piece.members.inj hp
    rw [List.find?_singleton] at hfirst
    split at hfirst
    · next hname =>
      obtain rfl := Option.some.inj hfirst
      obtain rfl := Option.some.inj hsub
      obtain ⟨pre, mid, rfl, hslot⟩ := hw.slot_of_member
      refine ⟨g ++ pre, mid, [] ++ g', by simp, hslot.surround g g' ?_⟩
      rintro new _ w' rfl hmember
      refine ⟨_, .lastMember hg hmember hg', _, rfl, rfl, fun other => ?_⟩
      rw [Tree.entries_cons, Tree.entries_cons, Keyed.find?_cons_replace (of_decide_eq_true hname)]
    · cases hfirst
  | @consMember _ pos name' nameSpan tree members g w g' rest hg hw hg' hrest _ ih =>
    obtain rfl := Piece.members.inj hp
    rw [List.find?_cons] at hfirst
    split at hfirst
    · next hname =>
      obtain rfl := Option.some.inj hfirst
      obtain rfl := Option.some.inj hsub
      obtain ⟨pre, mid, rfl, hslot⟩ := hw.slot_of_member
      refine ⟨g ++ pre, mid, [] ++ (g' ++ ',' :: rest), by simp, hslot.surround g (g' ++ ',' :: rest) ?_⟩
      rintro new _ w' rfl hmember
      obtain ⟨_, hshifted, hp⟩ := hrest.shift (pos + byteLength (g ++ (w' ++ (g' ++ [',']))))
      cases hp with
      | members hentries hheads =>
        refine ⟨_, .consMember hg hmember hg' hshifted, _, rfl, ?_, fun other => ?_⟩
        · rw [Tree.heads_cons, Tree.heads_cons, hheads]
        · rw [Tree.entries_cons, Tree.entries_cons, hentries,
            Keyed.find?_cons_replace (of_decide_eq_true hname)]
    · next hname =>
      obtain ⟨pre, mid, post, rfl, hslot⟩ := ih hfirst rfl
      refine ⟨g ++ (w ++ (g' ++ [','])) ++ pre, mid, post ++ [], by simp, hslot.surround _ [] ?_⟩
      rintro new _ w' ⟨members', rfl, hheads, hentries⟩ hrest'
      refine ⟨_, by simpa using Writes.consMember hg hw hg' hrest', _, rfl, ?_, fun other => ?_⟩
      · rw [Tree.heads_cons, Tree.heads_cons, hheads]
      · rw [Tree.entries_cons, Tree.entries_cons, Keyed.find?_cons, Keyed.find?_cons, hentries]
        split
        · next hother => rw [if_neg fun h => of_decide_eq_false hname (hother.trans h)]
        · rfl
  | _ => cases hp

/-! ## Replacing the part at a path -/

namespace Writes

variable {becomes : Tree → Piece → Prop} {becomes' : Tree → Tree → Prop} {sub' tree : Tree}

/-- A part of a part is a part. -/
theorem Slot.trans {below' : Nat} {pre' mid' post' : List Char}
    (h : Slot depth pos below pre (pre' ++ (mid' ++ post')) post sub becomes)
    (h' : Slot below (pos + byteLength pre) below' pre' mid' post' sub' fun new piece =>
      ∃ between, piece = .value between ∧ becomes' new between) :
    Slot depth pos below' (pre ++ pre') mid' (post' ++ post) sub' fun new piece =>
      ∃ between, becomes' new between ∧ becomes between piece := by
  refine h'.surround pre post ?_
  rintro new _ w ⟨between, rfl, hinner⟩ hbetween
  obtain ⟨piece, hpiece, houter⟩ := h.rewrite hbetween
  exact ⟨piece, hpiece, between, hinner, houter⟩

/-- The part of a tree that a key leads to, and what becomes of the tree when it is replaced. -/
theorem slot_of_child {key : Key} (h : Writes depth pos (.value tree) w) (hsub : tree.child? key = some sub) :
    ∃ pre mid post, w = pre ++ (mid ++ post) ∧ Slot depth pos (depth + 1) pre mid post sub
      fun new piece => ∃ tree', piece = .value tree' ∧ Tree.heads tree'.members = Tree.heads tree.members ∧
        ∀ {part : Json} {path : Path}, Json.Puts part path sub.toJson new.toJson →
          Json.Puts part (key :: path) tree.toJson tree'.toJson := by
  rcases Tree.child?_cases hsub with ⟨span, members, name, member, rfl, rfl, hmember, hvalue⟩ |
    ⟨span, items, index, rfl, rfl, hitem⟩
  · cases h with
    | object hdepth hw =>
      obtain ⟨pre, mid, post, rfl, hslot⟩ := hw.slot_of_members hmember hvalue
      refine ⟨['{'] ++ pre, mid, post ++ ['}'], by simp, Slot.surround ['{'] ['}'] hslot ?_⟩
      rintro new _ w' ⟨members', rfl, hheads, hfind⟩ hmembers
      refine ⟨_, .object hdepth hmembers, _, rfl, hheads, fun hputs => ?_⟩
      rw [Tree.toJson_object, Tree.toJson_object]
      refine .name ?_ hputs ?_ fun other hother => ?_
      · rw [Json.get?_ofMembers]
        exact Tree.find?_entries_of_first hmember hvalue
      · rw [Json.get?_ofMembers, hfind, if_pos rfl]
      · rw [Json.get?_ofMembers, Json.get?_ofMembers, hfind, if_neg hother]
  · cases h with
    | array hdepth hw =>
      obtain ⟨pre, mid, post, rfl, hslot⟩ := hw.slot_of_items hitem
      refine ⟨['['] ++ pre, mid, post ++ [']'], by simp, Slot.surround ['['] [']'] hslot ?_⟩
      rintro new _ w' ⟨items', rfl, hvalues⟩ hitems
      refine ⟨_, .array hdepth hitems, _, rfl, rfl, fun hputs => ?_⟩
      rw [Tree.toJson_array, Tree.toJson_array, hvalues]
      refine .index ?_ hputs
      rw [List.getElem?_map, hitem, Option.map_some]

/-- The part of a tree at a path, and what becomes of the tree when it is replaced. -/
theorem slot_at {path : Path} (h : Writes depth pos (.value tree) w) (hsub : tree.at? path = some sub) :
    ∃ pre mid post, w = pre ++ (mid ++ post) ∧ Slot depth pos (depth + path.length) pre mid post sub
      fun new piece => ∃ tree', piece = .value tree' ∧ (path = [] → tree' = new) ∧
        (path ≠ [] → Tree.heads tree'.members = Tree.heads tree.members) ∧
        Json.Puts new.toJson path tree.toJson tree'.toJson := by
  induction path generalizing depth pos w tree with
  | nil =>
    rw [Tree.at?_nil] at hsub
    obtain rfl := Option.some.inj hsub
    refine ⟨[], w, [], by simp, h, fun {new mid'} hnew => ⟨.value new, by simpa using hnew, new, rfl, ?_⟩⟩
    exact ⟨fun _ => rfl, fun hne => absurd rfl hne, .here _⟩
  | cons key path ih =>
    rw [Tree.at?_cons] at hsub
    obtain ⟨next, hnext, hbelow⟩ := Option.bind_eq_some_iff.mp hsub
    obtain ⟨pre, mid, post, rfl, hslot⟩ := h.slot_of_child hnext
    obtain ⟨pre', mid', post', rfl, hinner⟩ := ih hslot.part hbelow
    obtain ⟨hpart, hrewrite⟩ := hslot.trans hinner
    rw [Nat.add_assoc, Nat.add_comm 1] at hpart hrewrite
    refine ⟨pre ++ pre', mid', post' ++ post, by simp, hpart, fun hnew => ?_⟩
    obtain ⟨_, hpiece, between, ⟨-, -, hputs⟩, tree', rfl, hheads, hkey⟩ := hrewrite hnew
    exact ⟨_, hpiece, tree', rfl, nofun, fun _ => hheads, hkey hputs⟩

end Writes

end PolicyAudit
