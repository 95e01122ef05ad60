-- SUMMARY: The nodes of a tree that is read lie in the text in order, each inside the one above it.
import PolicyAudit.Proofs.Syntax.Node
import PolicyAudit.Proofs.Syntax.Step

/-! ## Cursors in a text -/

namespace PolicyAudit

namespace Cursor

variable {text : List Char} {c d : Cursor}

/-- Whether a cursor stands somewhere in a text. -/
def Within (text : List Char) (c : Cursor) : Prop := (⟨0, text⟩ : Cursor).Reaches c

theorem Within.of_reaches (h : c.Within text) (hr : c.Reaches d) : d.Within text := h.trans hr

/-- The bytes before a cursor are those of the text before it. -/
theorem Within.exists_before (h : c.Within text) :
    ∃ before, text = before ++ c.rest ∧ Text.byteLength before = c.pos := by
  obtain ⟨n, rfl⟩ := h
  exact ⟨text.take n, by simp, by simp [skip]⟩

theorem Within.isBoundary (h : c.Within text) : Text.isBoundary text c.pos = true := by
  obtain ⟨before, htext, hpos⟩ := h.exists_before
  have hsplit : Text.splitAtByte text c.pos = some (before, c.rest) :=
    Text.splitAtByte_eq_some_iff.mpr ⟨htext, hpos⟩
  simp [Text.isBoundary, hsplit]

theorem Within.pos_le (h : c.Within text) : c.pos ≤ Text.byteLength text := by
  obtain ⟨before, htext, hpos⟩ := h.exists_before
  rw [htext, Text.byteLength_append]
  omega

theorem Reaches.pos_le (h : c.Reaches d) : c.pos ≤ d.pos := by
  obtain ⟨n, rfl⟩ := h
  simp [skip]

theorem Reaches.pos_lt (h : c.Reaches d) (hlt : d.rest.length < c.rest.length) : c.pos < d.pos := by
  have hle := h.pos_le
  have hne := h.pos_ne hlt
  omega

end Cursor

namespace Span

theorem stop_between {start stop : Nat} (h : start ≤ stop) : (between start stop).stop = stop := by
  simp only [Span.stop, between]
  omega

end Span

/-! ## Placed nodes

A node is placed when it covers a stretch of whole characters, and its parts lie behind its first byte,
one after the other. The name of a member comes first in it. -/

namespace SyntaxNode

/-- Whether a node lies in a text as it should. -/
structure Placed (text : List Char) (node : SyntaxNode) : Prop where
  nonempty : 0 < node.span.length
  within : node.span.stop ≤ Text.byteLength text
  starts : Text.isBoundary text node.span.offset = true
  stops : Text.isBoundary text node.span.stop = true
  parts : LaidOut (node.span.offset + 1) node.span.stop node.children
  named : ∀ m, node = .member m →
    0 < m.nameSpan.length ∧ m.nameSpan.offset = node.span.offset ∧
      m.nameSpan.stop ≤ node.span.stop ∧ LaidOut m.nameSpan.stop node.span.stop node.children

variable {text : List Char} {node : SyntaxNode} {nodes more : List SyntaxNode}
variable {start mid stop : Nat} {c d : Cursor}

/-- Nodes that stand one after the other between two offsets, each placed with all that is below it. -/
structure Laid (text : List Char) (start stop : Nat) (nodes : List SyntaxNode) : Prop
    extends LaidOut start stop nodes where
  placed : ∀ node ∈ nodes, node.All (Placed text)

theorem Laid.nil (text : List Char) (start stop : Nat) : Laid text start stop [] :=
  ⟨.nil start stop, by simp⟩

theorem Laid.mono {start' stop' : Nat} (h : Laid text start stop nodes) (hstart : start' ≤ start)
    (hstop : stop ≤ stop') : Laid text start' stop' nodes :=
  ⟨h.toLaidOut.mono hstart hstop, h.placed⟩

theorem Laid.append (h : Laid text start mid nodes) (hmore : Laid text mid stop more)
    (hstart : start ≤ mid) (hstop : mid ≤ stop) : Laid text start stop (nodes ++ more) := by
  refine ⟨h.toLaidOut.append hmore.toLaidOut hstart hstop, ?_⟩
  intro node hnode
  rcases List.mem_append.mp hnode with hnode | hnode
  · exact h.placed node hnode
  · exact hmore.placed node hnode

/-- A node that covers what stands between two cursors is placed where its parts are. -/
theorem all_placed_of_reaches (hc : c.Within text) (hr : c.Reaches d)
    (hlt : d.rest.length < c.rest.length) (hspan : node.span = .between c.pos d.pos)
    (hparts : Laid text (c.pos + 1) d.pos node.children)
    (hnamed : ∀ m, node = .member m → 0 < m.nameSpan.length ∧ m.nameSpan.offset = c.pos ∧
      m.nameSpan.stop ≤ d.pos ∧ LaidOut m.nameSpan.stop d.pos node.children) :
    node.All (Placed text) := by
  have hoffset : node.span.offset = c.pos := by rw [hspan]; rfl
  have hstop : node.span.stop = d.pos := by rw [hspan, Span.stop_between hr.pos_le]
  have hd : d.Within text := hc.of_reaches hr
  refine all_of_children ?_ hparts.placed
  constructor
  case nonempty =>
    have hpos := hr.pos_lt hlt
    rw [hspan]
    simp only [Span.between]
    omega
  case within => rw [hstop]; exact hd.pos_le
  case starts => rw [hoffset]; exact hc.isBoundary
  case stops => rw [hstop]; exact hd.isBoundary
  case parts => rw [hoffset, hstop]; exact hparts.toLaidOut
  case named => rw [hoffset, hstop]; exact hnamed

/-! ## Different nodes, different spans

A node stands inside every node above it, behind that node's first byte, and before all nodes that come
after it. -/

variable {child other found : SyntaxNode} {i j : Nat} {p q place : List Nat}

theorem All.at?_within (h : node.All (Placed text)) (hfound : node.at? place = some found) :
    node.span.offset ≤ found.span.offset ∧ found.span.stop ≤ node.span.stop := by
  induction place generalizing node with
  | nil =>
    rw [at?_nil] at hfound
    obtain rfl := Option.some.inj hfound
    exact ⟨Nat.le_refl _, Nat.le_refl _⟩
  | cons i place ih =>
    rw [at?_cons] at hfound
    obtain ⟨child, hchild, hbelow⟩ := Option.bind_eq_some_iff.mp hfound
    have hmem := List.mem_of_getElem? hchild
    obtain ⟨hstart, hstop⟩ := h.self.parts.inside child hmem
    obtain ⟨hle, hge⟩ := ih (h.of_mem_children hmem) hbelow
    omega

theorem All.span_ne_of_below (h : node.All (Placed text)) (hchild : node.children[i]? = some child)
    (hfound : child.at? place = some found) : node.span ≠ found.span := by
  have hmem := List.mem_of_getElem? hchild
  have hstart := (h.self.parts.inside child hmem).1
  have hle := ((h.of_mem_children hmem).at?_within hfound).1
  intro heq
  rw [heq] at hstart
  omega

theorem All.span_ne_of_lt {a b : SyntaxNode} (h : node.All (Placed text))
    (hi : node.children[i]? = some child) (hj : node.children[j]? = some other) (hij : i < j)
    (ha : child.at? p = some a) (hb : other.at? q = some b) : a.span ≠ b.span := by
  have hchild := h.of_mem_children (List.mem_of_getElem? hi)
  have hother := h.of_mem_children (List.mem_of_getElem? hj)
  have hbefore : child.span.stop ≤ other.span.offset := by
    obtain ⟨hleft, rfl⟩ := List.getElem?_eq_some_iff.mp hi
    obtain ⟨hright, rfl⟩ := List.getElem?_eq_some_iff.mp hj
    exact List.pairwise_iff_getElem.mp h.self.parts.ordered i j hleft hright hij
  have hstop := (hchild.at?_within ha).2
  have hstart := (hother.at?_within hb).1
  have hpos := (hchild p a ha).nonempty
  intro heq
  rw [← heq] at hstart
  simp only [Span.stop] at hbefore hstop
  omega

/-- A span belongs to one node only. -/
theorem All.place_eq {a b : SyntaxNode} (h : node.All (Placed text)) (ha : node.at? p = some a)
    (hb : node.at? q = some b) (hspan : a.span = b.span) : p = q := by
  induction p generalizing node q with
  | nil =>
    cases q with
    | nil => rfl
    | cons j q =>
      rw [at?_nil] at ha
      obtain rfl := Option.some.inj ha
      rw [at?_cons] at hb
      obtain ⟨other, hj, hbelow⟩ := Option.bind_eq_some_iff.mp hb
      exact absurd hspan (h.span_ne_of_below hj hbelow)
  | cons i p ih =>
    rw [at?_cons] at ha
    obtain ⟨child, hi, hbelow⟩ := Option.bind_eq_some_iff.mp ha
    cases q with
    | nil =>
      rw [at?_nil] at hb
      obtain rfl := Option.some.inj hb
      exact absurd hspan.symm (h.span_ne_of_below hi hbelow)
    | cons j q =>
      rw [at?_cons] at hb
      obtain ⟨other, hj, hbelow'⟩ := Option.bind_eq_some_iff.mp hb
      rcases Nat.lt_trichotomy i j with hij | rfl | hij
      · exact absurd hspan (h.span_ne_of_lt hi hj hij hbelow hbelow')
      · obtain rfl := Option.some.inj (hi.symm.trans hj)
        rw [ih (h.of_mem_children (List.mem_of_getElem? hi)) hbelow hbelow']
      · exact absurd hspan.symm (h.span_ne_of_lt hj hi hij hbelow' hbelow)

end SyntaxNode

/-! ## Reading

A reader of values places what it reads when every tree of it covers what was read for it and all its
nodes are placed. The readers of members and elements carry this over from the reader that they are
given. -/

namespace Cursor

open SyntaxNode

variable {text : List Char} {value : ValueReader} {opened : Nat} {c : Cursor} {tree : Tree}

/-- Whether the tree that is read, if any, covers what was read for it, and all its nodes are placed. -/
def Places (text : List Char) (r : Reading c (Option Tree)) : Prop :=
  ∀ tree, r.result = some tree →
    tree.span = .between c.pos r.next.pos ∧ r.next.rest.length < c.rest.length ∧
      (SyntaxNode.value tree).All (Placed text)

/-- Whether a reader of values places what it reads in a text. -/
def PlacesIn (text : List Char) (value : ValueReader) : Prop :=
  ∀ c : Cursor, c.Within text → Places text (value c)

theorem PlacesIn.laid (h : PlacesIn text value) (hc : c.Within text)
    (hresult : (value c).result = some tree) :
    Laid text c.pos (value c).next.pos [.value tree] := by
  obtain ⟨hspan, -, hall⟩ := h c hc tree hresult
  have hstop := Span.stop_between (value c).reaches.pos_le
  refine ⟨.singleton ?_ ?_, by simpa using hall⟩
  · simp [SyntaxNode.span, hspan, Span.between]
  · simp [SyntaxNode.span, hspan, hstop]

theorem result_readMember (value : ValueReader) (c : Cursor) :
    (readMember value c).result = memberOf c.quotation.text (c.spanOf c.quotation.length)
      (readMemberValue value c.quotation.text (c.skip c.quotation.length)).result := rfl

theorem reaches_readMember (value : ValueReader) (c : Cursor) :
    (readMemberValue value c.quotation.text (c.skip c.quotation.length)).next.Reaches
      (readMember value c).next := (Reading.reaches _).trans (Reading.reaches _)

theorem laid_readMember (hvalue : PlacesIn text value) (hc : c.Within text) (hrest : c.rest ≠ []) :
    Laid text c.pos (readMember value c).next.pos [.member (readMember value c).result] := by
  have hname : c.Reaches (c.skip c.quotation.length) := c.reaches_skip _
  have hnamelt := skip_length_lt hrest c.quotation.length_pos
  have hnamepos := hname.pos_lt hnamelt
  -- The member goes from its name to `d`: the end of its value, or else that of its name.
  obtain ⟨d, hd, hend, hspan, hparts⟩ : ∃ d, (c.skip c.quotation.length).Reaches d ∧
      d.Reaches (readMember value c).next ∧
      (readMember value c).result.span = .between c.pos d.pos ∧
      Laid text (c.skip c.quotation.length).pos d.pos
        (SyntaxNode.member (readMember value c).result).children := by
    cases hfound : (readMemberValue value c.quotation.text (c.skip c.quotation.length)).result with
    | none =>
      refine ⟨_, .refl _, (Reading.reaches _).trans (reaches_readMember value c), ?_, ?_⟩
      · rw [result_readMember, hfound]
        rfl
      · rw [result_readMember, hfound]
        exact .nil text _ _
    | some tree =>
      obtain ⟨e, he, htree, hnext, -⟩ := readMemberValue_of_some hfound
      have hwithin : e.Within text := hc.of_reaches (hname.trans he)
      have hstop : tree.span.stop = (value e).next.pos := by
        rw [(hvalue e hwithin tree htree).1, Span.stop_between (value e).reaches.pos_le]
      refine ⟨(value e).next, he.trans (value e).reaches, ?_, ?_, ?_⟩
      · rw [hnext]
        exact reaches_readMember value c
      · rw [result_readMember, hfound, ← hstop]
        rfl
      · rw [result_readMember, hfound]
        exact (hvalue.laid hwithin htree).mono he.pos_le (Nat.le_refl _)
  have hall : (SyntaxNode.member (readMember value c).result).All (Placed text) := by
    refine all_placed_of_reaches hc (hname.trans hd) ?_ hspan ?_ ?_
    · exact Nat.lt_of_le_of_lt hd.length_le hnamelt
    · exact hparts.mono hnamepos (Nat.le_refl _)
    · rintro m ⟨⟩
      refine ⟨?_, rfl, hd.pos_le, hparts.toLaidOut⟩
      simp only [result_readMember, memberOf, spanOf, skip] at hnamepos ⊢
      omega
  refine ⟨.singleton ?_ ?_, by simpa using hall⟩
  · simp [SyntaxNode.span, hspan, Span.between]
  · simp only [SyntaxNode.span, hspan]
    rw [Span.stop_between (hname.trans hd).pos_le]
    exact hend.pos_le

theorem laid_readMembers (hvalue : PlacesIn text value) (opened : Nat) (hc : c.Within text) :
    Laid text c.pos (readMembers value opened c).next.pos
      ((readMembers value opened c).result.map .member) := by
  fun_induction readMembers value opened c with
  | case1 => exact .nil text _ _
  | case2 => exact .nil text _ _
  | case3 c gap tail member rest hgap _ hlt ih =>
    have hstart : gap.next.Within text := hc.of_reaches gap.reaches
    have hmember := laid_readMember hvalue hstart (by rw [hgap]; exact List.cons_ne_nil _ _)
    have hrest := ih (hstart.of_reaches member.reaches)
    have hboth := hmember.append hrest member.reaches.pos_le rest.reaches.pos_le
    exact hboth.mono gap.reaches.pos_le (Nat.le_refl _)
  | case4 c gap ch tail hgap _ _ past hlt rest ih =>
    have hpast := gap.reaches.trans past.reaches
    exact (ih (hc.of_reaches hpast)).mono hpast.pos_le (Nat.le_refl _)

theorem laid_readItem (hvalue : PlacesIn text value) (hc : c.Within text) :
    Laid text c.pos (readItem value c).next.pos ((readItem value c).result.toList.map .value) := by
  have hresult : (readItem value c).result = (value c).result := rfl
  rw [hresult]
  cases hfound : (value c).result with
  | none => exact .nil text _ _
  | some tree =>
    have hend : (value c).next.Reaches (readItem value c).next := Reading.reaches _
    exact (hvalue.laid hc hfound).mono (Nat.le_refl _) hend.pos_le

theorem laid_readItems (hvalue : PlacesIn text value) (opened : Nat) (hc : c.Within text) :
    Laid text c.pos (readItems value opened c).next.pos
      ((readItems value opened c).result.map .value) := by
  fun_induction readItems value opened c with
  | case1 => exact .nil text _ _
  | case2 => exact .nil text _ _
  | case3 c gap ch tail hgap _ item hlt rest ih =>
    have hstart : gap.next.Within text := hc.of_reaches gap.reaches
    have hitem := laid_readItem hvalue hstart
    have hrest := ih (hstart.of_reaches item.reaches)
    have hboth := hitem.append hrest item.reaches.pos_le rest.reaches.pos_le
    rw [List.map_append]
    exact hboth.mono gap.reaches.pos_le (Nat.le_refl _)

/-- A scalar covers the characters that it is read from. -/
theorem places_scalar {r : Reading c (Option Tree)} {n : Nat} (value : Scalar) (hc : c.Within text)
    (hrest : c.rest ≠ []) (hn : 0 < n) (hresult : r.result = some (.scalar (c.spanOf n) value))
    (hnext : r.next = c.skip n) : Places text r := by
  intro tree htree
  obtain rfl := Option.some.inj (hresult.symm.trans htree)
  have hspan : c.spanOf n = .between c.pos (c.skip n).pos := by
    simp [spanOf, skip, Span.between]
  have hlt := skip_length_lt hrest hn
  rw [hnext]
  refine ⟨hspan, hlt, ?_⟩
  refine all_placed_of_reaches hc (c.reaches_skip n) hlt hspan (.nil text _ _) ?_
  rintro m ⟨⟩

theorem places_none {r : Reading c (Option Tree)} (h : r.result = none) : Places text r := by
  intro tree htree
  cases h.symm.trans htree

theorem places_readNumber (hc : c.Within text) {ch : Char} {s : List Char} (hrest : c.rest = ch :: s)
    (hch : ch = '-' ∨ ch.isDigit = true) : Places text c.readNumber := by
  have hnumeral : Numeral.isNumeralChar ch = true := by
    rcases hch with rfl | hch
    · decide
    · simp [Numeral.isNumeralChar, hch]
  have hpos : 0 < (c.rest.takeWhile Numeral.isNumeralChar).length := by
    rw [hrest, List.takeWhile_cons_of_pos hnumeral]
    exact Nat.succ_pos _
  cases hn : Number.ofChars? (c.rest.takeWhile Numeral.isNumeralChar) with
  | none =>
    apply places_none
    simp only [readNumber, hn]
  | some n =>
    refine places_scalar (.number n) hc ?_ hpos ?_ ?_
    · rw [hrest]
      exact List.cons_ne_nil ch s
    · simp only [readNumber, hn]
    · simp only [readNumber, hn]

theorem places_readWord {word : List Char} {value : Scalar} (hc : c.Within text)
    (hrest : c.rest ≠ []) (hword : 0 < word.length) : Places text (c.readWord word value) := by
  unfold readWord
  split
  · exact places_scalar value hc hrest hword rfl rfl
  · exact places_none rfl

/-- A container covers all from its opening bracket up to where its parts end, and its parts stand behind
the bracket. -/
theorem places_container {r : Reading c (Option Tree)} (hc : c.Within text) (hrest : c.rest ≠ [])
    (hresult : r.result = some tree) (hr : (c.skip 1).Reaches r.next)
    (hspan : tree.span = .between c.pos r.next.pos)
    (hparts : Laid text (c.skip 1).pos r.next.pos (SyntaxNode.value tree).children) :
    Places text r := by
  intro found hfound
  obtain rfl := Option.some.inj (hresult.symm.trans hfound)
  have hskip := skip_length_lt hrest Nat.one_pos
  have hlt := Nat.lt_of_le_of_lt hr.length_le hskip
  have hopen := c.reaches_skip 1
  refine ⟨hspan, hlt, ?_⟩
  refine all_placed_of_reaches hc (hopen.trans hr) hlt hspan ?_ ?_
  · exact hparts.mono (hopen.pos_lt hskip) (Nat.le_refl _)
  · rintro m ⟨⟩

/-- Every reader of values places what it reads. -/
theorem placesIn_readValue (text : List Char) (room : Nat) : PlacesIn text (readValue room) := by
  induction room with
  | zero =>
    intro c _
    exact places_none rfl
  | succ room ih =>
    intro c hc
    cases hrest : c.rest with
    | nil =>
      apply places_none
      simp [readValue, hrest]
    | cons ch s =>
      have hne : c.rest ≠ [] := by
        rw [hrest]
        exact List.cons_ne_nil ch s
      have hopen : (c.skip 1).Within text := hc.of_reaches (c.reaches_skip 1)
      refine readValue_of_head hrest ?object ?array ?string ?number ?word ?noValue
      case object =>
        exact fun _ => places_container hc hne rfl (Reading.reaches _) rfl (laid_readMembers ih c.pos hopen)
      case array =>
        exact fun _ => places_container hc hne rfl (Reading.reaches _) rfl (laid_readItems ih c.pos hopen)
      case string => exact fun _ => places_scalar _ hc hne c.quotation.length_pos rfl rfl
      case number => exact places_readNumber hc hrest
      case word => exact fun _ hword => places_readWord hc hne (List.length_pos_iff.2 hword)
      case noValue => exact places_none rfl

end Cursor

/-! ## Documents -/

namespace Document

open Cursor

variable {text : String} {tree : Tree}

theorem all_placed_of_ofText (h : (ofText text).tree? = some tree) :
    (SyntaxNode.value tree).All (SyntaxNode.Placed text.toList) := by
  obtain ⟨c, hc, hresult, -⟩ := readValue_of_tree? h
  exact (placesIn_readValue text.toList (maxDepth + 1) c hc tree hresult).2.2

end Document

end PolicyAudit
