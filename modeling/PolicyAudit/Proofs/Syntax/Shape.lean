-- SUMMARY: How deep a tree is nested, and the keys of its members that stand in the text as they are.
import PolicyAudit.Policy.Field
import PolicyAudit.Proofs.Syntax.Rewriting
import PolicyAudit.Proofs.Syntax.Slice

/-! ## Nesting -/

namespace PolicyAudit

open Text

namespace Tree

mutual

/-- The greatest number of containers around each other in a tree. -/
def nesting : Tree → Nat
  | .object _ members => nestingMembers members + 1
  | .array _ items => nestingItems items + 1
  | .scalar .. => 0

/-- The nesting of the most nested element. -/
def nestingItems : List Tree → Nat
  | [] => 0
  | item :: rest => max item.nesting (nestingItems rest)

/-- The nesting of the most nested member. -/
def nestingMembers : List (Member Tree) → Nat
  | [] => 0
  | ⟨_, _, _, some value⟩ :: rest => max value.nesting (nestingMembers rest)
  | ⟨_, _, _, none⟩ :: rest => nestingMembers rest

end

variable {tree sub : Tree} {key : Key} {path : Path}

theorem nesting_le_nestingItems {items : List Tree} (h : sub ∈ items) : sub.nesting ≤ nestingItems items := by
  induction items with
  | nil => cases h
  | cons item items ih =>
    rw [nestingItems]
    rcases List.mem_cons.mp h with rfl | hrest
    · exact Nat.le_max_left ..
    · exact Nat.le_trans (ih hrest) (Nat.le_max_right ..)

theorem nesting_le_nestingMembers {members : List (Member Tree)} {member : Member Tree}
    (h : member ∈ members) (hvalue : member.value? = some sub) : sub.nesting ≤ nestingMembers members := by
  induction members with
  | nil => cases h
  | cons first members ih =>
    rcases List.mem_cons.mp h with rfl | hrest
    · obtain ⟨span, name, nameSpan, value?⟩ := member
      obtain rfl := hvalue
      exact Nat.le_max_left ..
    · obtain ⟨span, name, nameSpan, _ | value⟩ := first
      · exact ih hrest
      · exact Nat.le_trans (ih hrest) (Nat.le_max_right ..)

theorem nesting_child? (h : tree.child? key = some sub) : sub.nesting + 1 ≤ tree.nesting := by
  rcases child?_cases h with ⟨span, members, name, member, rfl, rfl, hmember, hvalue⟩ |
    ⟨span, items, index, rfl, rfl, hitem⟩
  · exact Nat.succ_le_succ (nesting_le_nestingMembers (List.mem_of_find?_eq_some hmember) hvalue)
  · exact Nat.succ_le_succ (nesting_le_nestingItems (List.mem_of_getElem? hitem))

/-- A part stands inside as many containers as its path has keys. -/
theorem nesting_at? (h : tree.at? path = some sub) : path.length + sub.nesting ≤ tree.nesting := by
  induction path generalizing tree with
  | nil =>
    rw [at?_nil] at h
    obtain rfl := Option.some.inj h
    simp
  | cons key path ih =>
    rw [at?_cons] at h
    obtain ⟨child, hchild, hbelow⟩ := Option.bind_eq_some_iff.mp h
    have hhere := nesting_child? hchild
    have hthere := ih hbelow
    rw [List.length_cons]
    omega

end Tree

/-! ## Plain keys

Every escape is longer than the character that it stands for. So a key that takes up no more than its name and
two quotation marks is written without escapes. -/

namespace Quoted

variable {body text : List Char}

theorem utf8Size_of_shortEscape? {c e : Char} (h : shortEscape? c = some e) : e.utf8Size = 1 := by
  unfold shortEscape? at h
  split at h
  · next hc =>
    obtain rfl := Option.some.inj h
    rcases hc with rfl | rfl | rfl <;> decide
  · iterate 5
      split at h
      · obtain rfl := Option.some.inj h
        decide
    cases h

/-- Four digits and what stands before them are longer than a character. -/
theorem byteLength_cons_lt {tail rest : List Char} (h : byteLength tail ≤ byteLength rest) (c d₁ d₂ d₃ d₄ : Char) :
    byteLength (c :: tail) < byteLength ('\\' :: 'u' :: d₁ :: d₂ :: d₃ :: d₄ :: rest) := by
  have hslash : '\\'.utf8Size = 1 := by decide
  have hu : 'u'.utf8Size = 1 := by decide
  have hc := c.utf8Size_le_four
  have h₁ := d₁.utf8Size_pos
  have h₂ := d₂.utf8Size_pos
  have h₃ := d₃.utf8Size_pos
  have h₄ := d₄.utf8Size_pos
  simp only [byteLength_cons, hslash, hu]
  omega

/-- Where escapes are read, the text gets shorter. -/
theorem eq_or_byteLength_lt_of_decode (h : decode body = some text) :
    text = body ∨ byteLength text < byteLength body := by
  have hle {tail rest : List Char} (h : tail = rest ∨ byteLength tail < byteLength rest) :
      byteLength tail ≤ byteLength rest := h.elim (fun heq => Nat.le_of_eq (congrArg _ heq)) Nat.le_of_lt
  fun_induction decode body generalizing text with
  | case1 =>
    obtain rfl := Option.some.inj h
    exact .inl rfl
  | case4 =>
    rename_i ih
    obtain ⟨tail, htail, rfl⟩ := Option.map_eq_some_iff.mp h
    refine .inr (byteLength_cons_lt (Nat.le_trans (hle (ih htail)) ?_) ..)
    simp only [byteLength_cons]
    omega
  | case8 a b c d rest _ _ _ _ ih =>
    obtain ⟨tail, htail, rfl⟩ := Option.map_eq_some_iff.mp h
    exact .inr (byteLength_cons_lt (hle (ih htail)) ..)
  | case10 c rest _ e he ih =>
    obtain ⟨tail, htail, rfl⟩ := Option.map_eq_some_iff.mp h
    have hslash : '\\'.utf8Size = 1 := by decide
    have hc := c.utf8Size_pos
    have hrest := hle (ih htail)
    right
    simp only [byteLength_cons, hslash, utf8Size_of_shortEscape? he]
    omega
  | case12 c rest _ _ _ ih =>
    obtain ⟨tail, htail, rfl⟩ := Option.map_eq_some_iff.mp h
    refine (ih htail).imp (fun heq => by rw [heq]) fun hlt => ?_
    simpa using hlt
  | _ => cases h

end Quoted

/-- A quoted string as long as its text and two quotation marks is the text between them. -/
theorem Literal.eq_of_length {s : String} {k : List Char} (h : Literal (.string s) k)
    (hlength : byteLength k = byteLength s.toList + 2) : k = '"' :: (s.toList ++ ['"']) := by
  cases h with
  | @string body text hdecode =>
    have hquote : '"'.utf8Size = 1 := by decide
    simp only [byteLength_cons, byteLength_append, byteLength_nil, hquote, String.toList_ofList] at hlength ⊢
    rcases Quoted.eq_or_byteLength_lt_of_decode hdecode with rfl | hlt
    · rfl
    · omega

variable {depth pos n : Nat} {members : List (Member Tree)} {name : String} {tree : Tree} {w text : List Char}
variable {field : Field}

/-- The key of a member stands in the text. -/
theorem Writes.exists_literal (h : Writes depth pos (.members members) w) (hmem : (name, n) ∈ Tree.heads members) :
    ∃ k, Literal (.string name) k ∧ byteLength k = n ∧ k <:+: w := by
  generalize hp : Piece.members members = p at h
  induction h generalizing members with
  | noMember =>
    obtain rfl := Piece.members.inj hp
    cases hmem
  | @lastMember _ _ _ _ _ g w g' _ hw =>
    obtain rfl := Piece.members.inj hp
    obtain ⟨rfl, rfl⟩ := Prod.mk.inj (List.mem_singleton.mp hmem)
    cases hw with
    | @named _ _ _ _ k _ _ _ hk =>
      exact ⟨k, hk, rfl, (List.prefix_append k _).isInfix.trans (List.infix_append' g _ g')⟩
  | @consMember _ _ _ _ _ members g w g' rest _ hw _ _ _ ih =>
    obtain rfl := Piece.members.inj hp
    rcases List.mem_cons.mp hmem with heq | hrest
    · obtain ⟨rfl, rfl⟩ := Prod.mk.inj heq
      cases hw with
      | @named _ _ _ _ k _ _ _ hk =>
        exact ⟨k, hk, rfl, (List.prefix_append k _).isInfix.trans (List.infix_append' g _ _)⟩
    · obtain ⟨k, hk, hlength, hinside⟩ := ih hrest rfl
      exact ⟨k, hk, hlength, hinside.trans (List.IsSuffix.isInfix ⟨g ++ (w ++ (g' ++ [','])), by simp⟩)⟩
  | _ => cases hp

/-- Among the members of an object is one for a field whose key takes up its name and two quotation marks. -/
def Tree.HasPlainKey (tree : Tree) (field : Field) : Prop :=
  ∃ name ∈ field.spellings, (name, byteLength name.toList + 2) ∈ heads tree.members

/-- Among the members of an object is one for a field whose key is written without escapes. -/
def Tree.SpellsKey (tree : Tree) (field : Field) (text : List Char) : Prop :=
  ∃ member ∈ tree.members, member.name ∈ field.spellings ∧
    member.nameSpan.slice? text = some ('"' :: (member.name.toList ++ ['"']))

instance (tree : Tree) (field : Field) (text : List Char) : Decidable (tree.SpellsKey field text) :=
  inferInstanceAs (Decidable (∃ _ ∈ _, _))

theorem Tree.SpellsKey.hasPlainKey (h : tree.SpellsKey field text) : tree.HasPlainKey field := by
  obtain ⟨member, hmember, hname, hslice⟩ := h
  obtain ⟨⟨before, after⟩, -, hslice⟩ := Option.bind_eq_some_iff.mp hslice
  obtain ⟨⟨key, rest⟩, hsplit, rfl⟩ := Option.map_eq_some_iff.mp hslice
  obtain ⟨-, hlength⟩ := splitAtByte_eq_some_iff.mp hsplit
  have hquote : '"'.utf8Size = 1 := by decide
  refine ⟨member.name, hname, List.mem_map.mpr ⟨member, hmember, ?_⟩⟩
  simp only [← hlength, byteLength_cons, byteLength_append, byteLength_nil, hquote, Prod.mk.injEq, true_and]
  omega

/-- Such a key stands in the text. -/
theorem WritesDocument.infix_of_hasPlainKey (h : WritesDocument tree text) (hkey : tree.HasPlainKey field) :
    ∃ name ∈ field.spellings, name.toList <:+: text := by
  obtain ⟨g, w, g', -, hw, -, rfl⟩ := h
  obtain ⟨name, hname, hmem⟩ := hkey
  refine ⟨name, hname, .trans ?_ (List.infix_append' g w g')⟩
  cases hw with
  | scalar | array => cases hmem
  | @object _ _ _ w _ hw =>
    obtain ⟨k, hk, hlength, hkey⟩ := hw.exists_literal hmem
    have hplain := hk.eq_of_length hlength
    have hinside : name.toList <:+: k := ⟨['"'], ['"'], by rw [hplain]; simp⟩
    exact hinside.trans (hkey.trans (List.infix_append ['{'] w ['}']))

end PolicyAudit
