-- SUMMARY: The ranges of edits and nodes say as much as their bytes.
import PolicyAudit.Proofs.Lint.Fitting
import PolicyAudit.Proofs.Text.Lines

/-! ## Stretches between boundaries -/

namespace PolicyAudit

open Text

/-- Where all ends are boundaries, one stretch holds another exactly when its range does. -/
theorem Document.contains_rangeOf_iff {doc : Document} {text : String} {span other : Span} (hdoc : doc.text = text)
    (hspan : isBoundary text.toList span.offset = true ∧ isBoundary text.toList span.stop = true)
    (hother : isBoundary text.toList other.offset = true ∧ isBoundary text.toList other.stop = true) :
    (doc.rangeOf span).contains (doc.rangeOf other) = true ↔
      span.offset ≤ other.offset ∧ other.stop ≤ span.stop := by
  subst hdoc
  have hle : span.offset ≤ span.stop := Nat.le_add_right ..
  have hle' : other.offset ≤ other.stop := Nat.le_add_right ..
  simp only [rangeOf, Range.contains, Range.ofOffsets, Nat.max_eq_left hle, Nat.max_eq_left hle',
    Bool.and_eq_true, ← Position.le_iff_ofOffset_before hspan.1 hother.1,
    ← Position.le_iff_ofOffset_before hother.2 hspan.2]

/-! ## Edits by their ranges

A host may know no bytes. It finds the two ends of an edit in its text by line and column, and puts the new text in
the place of what stands between them. -/

namespace Edit

variable {text : List Char} {doc : Document} {span : Span} {edit edit' : Edit}

/-- The text after an edit, by its lines and columns. -/
def resultByRange? (edit : Edit) (text : List Char) : Option (List Char) :=
  if edit.range.start.before edit.range.stop then
    match edit.range.start.split? text, edit.range.stop.split? text with
    | some (before, _), some (_, after) => some (before ++ edit.text.toList ++ after)
    | _, _ => none
  else none

/-- An edit is marked in a text when it fits and its range is that of its bytes. -/
structure Marked (edit : Edit) (text : List Char) : Prop extends edit.Fits text where
  range_eq : edit.range = .ofOffsets text edit.start edit.stop

/-- Bytes and range lead to the same text. -/
theorem Marked.resultByRange?_eq (h : edit.Marked text) : edit.resultByRange? text = edit.result? text := by
  have hbefore := (Position.le_iff_ofOffset_before h.starts h.stops).mp h.ordered
  have hstart := Position.split?_ofOffset h.starts
  have hstop := Position.split?_ofOffset h.stops
  cases hfront : splitAtByte text edit.start <;> cases hback : splitAtByte text edit.stop <;>
    simp only [resultByRange?, result?, h.range_eq, Range.ofOffsets, Nat.max_eq_left h.ordered, if_pos h.ordered,
      if_pos hbefore, hstart, hstop, hfront, hback]

/-- The range of an edit tells its bytes. -/
theorem Marked.bounds_eq (h : edit.Marked text) (h' : edit'.Marked text) (heq : edit.range = edit'.range) :
    edit.start = edit'.start ∧ edit.stop = edit'.stop := by
  rw [h.range_eq, h'.range_eq] at heq
  exact Range.ofOffsets_inj h.ordered h'.ordered h.starts h.stops h'.starts h'.stops heq

/-- An edit that is done gives the text that its bytes lead to. -/
theorem result?_of_apply {text edited : String} (h : edit.apply text = .ok edited) :
    edit.result? text.toList = some edited.toList := by
  unfold apply at h
  split at h
  · next result hresult =>
    obtain rfl := Except.ok.inj h
    rw [hresult, String.toList_ofList]
  · cases h

theorem marked_replace (hstart : isBoundary doc.text.toList span.offset = true)
    (hstop : isBoundary doc.text.toList span.stop = true) (new : List Char) :
    (replace doc span new).Marked doc.text.toList :=
  ⟨⟨Nat.le_add_right _ _, hstart, hstop⟩, rfl⟩

theorem marked_insert {offset : Nat} (h : isBoundary doc.text.toList offset = true) (new : List Char) :
    (insert doc offset new).Marked doc.text.toList := marked_replace h h new

end Edit

/-! ## Names of members

A tree has the spans of its nodes, and besides them those of its members' names. -/

namespace SyntaxNode

/-- Whether the name of a member ends between two characters. This asks nothing of values. -/
def NameEnds (text : List Char) : SyntaxNode → Prop
  | .value _ => True
  | .member m => isBoundary text m.nameSpan.stop = true

end SyntaxNode

namespace Cursor

theorem nameEnds_of_mem_readMembers {text : List Char} {value : ValueReader} {opened : Nat} {c : Cursor}
    (hc : c.Within text) {m : Member Tree} (hm : m ∈ (readMembers value opened c).result) :
    (SyntaxNode.member m).NameEnds text := by
  fun_induction readMembers value opened c with
  | case1 => cases hm
  | case2 => cases hm
  | case3 c gap tail member rest hgap _ hlt ih =>
    have hname : gap.next.Within text := hc.of_reaches gap.reaches
    rcases List.mem_cons.mp hm with rfl | hrest
    · exact (hname.of_reaches (gap.next.reaches_skip gap.next.quotation.length)).isBoundary
    · exact ih (hname.of_reaches member.reaches) hrest
  | case4 c gap ch tail hgap _ _ past hlt rest ih =>
    exact ih ((hc.of_reaches gap.reaches).of_reaches past.reaches) hm

end Cursor

variable {text : String} {tree : Tree}

theorem Document.all_nameEnds_of_ofText (h : (ofText text).tree? = some tree) :
    (SyntaxNode.value tree).All (SyntaxNode.NameEnds text.toList) :=
  all_of_ofText (fun _ _ _ _ _ => trivial) (fun _ _ _ hc _ => Cursor.nameEnds_of_mem_readMembers hc) h

namespace Tree

/-- The spans of a tree. -/
inductive HasSpan (tree : Tree) : Span → Prop
  | node {place : List Nat} {found : SyntaxNode} (hfound : (SyntaxNode.value tree).at? place = some found) :
    HasSpan tree found.span
  | name {place : List Nat} {m : Member Tree} (hfound : (SyntaxNode.value tree).at? place = some (.member m)) :
    HasSpan tree m.nameSpan

/-- What is edited on a tree is one of its spans, or else something is put before or behind one of them, or behind
the brace of an object. -/
inductive Edits (doc : Document) (tree : Tree) : Edit → Prop
  | replace {span : Span} (hspan : tree.HasSpan span) (new : List Char) : Edits doc tree (.replace doc span new)
  | before {span : Span} (hspan : tree.HasSpan span) (new : List Char) : Edits doc tree (.insert doc span.offset new)
  | behind {span : Span} (hspan : tree.HasSpan span) (new : List Char) : Edits doc tree (.insert doc span.stop new)
  | inside {place : List Nat} {span : Span} {members : List (Member Tree)}
    (hfound : (SyntaxNode.value tree).at? place = some (.value (.object span members))) (new : List Char) :
    Edits doc tree (.insert doc (span.offset + 1) new)

/-- The spans of what is read lie between boundaries. -/
theorem HasSpan.isBoundary {span : Span} (hspan : tree.HasSpan span)
    (htree : (Document.ofText text).tree? = some tree) :
    Text.isBoundary text.toList span.offset = true ∧ Text.isBoundary text.toList span.stop = true := by
  have hplaced := Document.all_placed_of_ofText htree
  cases hspan with
  | node hfound => exact ⟨(hplaced _ _ hfound).starts, (hplaced _ _ hfound).stops⟩
  | @name place m hfound =>
    obtain ⟨-, hoffset, -⟩ := (hplaced _ _ hfound).named m rfl
    rw [hoffset]
    exact ⟨(hplaced _ _ hfound).starts, Document.all_nameEnds_of_ofText htree _ _ hfound⟩

theorem Edits.marked {doc : Document} {edit : Edit} (hedit : tree.Edits doc edit) (hdoc : doc.text = text)
    (htree : (Document.ofText text).tree? = some tree) : edit.Marked text.toList := by
  subst hdoc
  cases hedit with
  | replace hspan new => exact Edit.marked_replace (hspan.isBoundary htree).1 (hspan.isBoundary htree).2 new
  | before hspan new => exact Edit.marked_insert (hspan.isBoundary htree).1 new
  | behind hspan new => exact Edit.marked_insert (hspan.isBoundary htree).2 new
  | @inside place span members hfound new =>
    have hopens : isBoundary doc.text.toList (span.offset + 1) = true :=
      Document.all_opens_of_ofText htree _ _ hfound
    exact Edit.marked_insert hopens new

end Tree

/-! ## Lines and columns in place of bytes -/

/-- **Lines and columns.** The table of a text finds every offset, and what it finds is a plain count: the line feeds
before the offset and the characters behind the last of them, where the offset is first moved into the text and down
to a boundary. Boundaries are in the order of their positions, so no two of them have the same.

What is edited on the tree of the text is therefore known by its range alone: equal ranges stand for equal bytes, and
the text that comes from the range is the text that comes from the bytes. A node holds another exactly when the range
of the one contains that of the other. -/
theorem Document.ranges_of_ofText (text : String) :
    (∀ offset, ∃ before after, text.toList = before ++ after ∧
      byteLength before = floorBoundary text.toList (min offset (byteLength text.toList)) ∧
      (LineTable.ofText text.toList).position? text.toList offset = some (.behind before) ∧
      Position.ofOffset text.toList offset = .behind before) ∧
    (∀ a b, isBoundary text.toList a = true → isBoundary text.toList b = true →
      (a < b ↔ (Position.ofOffset text.toList a).Precedes (.ofOffset text.toList b)) ∧
      (a = b ↔ Position.ofOffset text.toList a = .ofOffset text.toList b)) ∧
    ∀ tree, (ofText text).tree? = some tree →
      (∀ edit edit', tree.Edits (ofText text) edit → tree.Edits (ofText text) edit' →
        edit.range = edit'.range → edit.start = edit'.start ∧ edit.stop = edit'.stop) ∧
      (∀ edit, tree.Edits (ofText text) edit → ∃ edited,
        edit.apply text = .ok edited ∧ edit.resultByRange? text.toList = some edited.toList) ∧
      ∀ place place' a b, (SyntaxNode.value tree).at? place = some a →
        (SyntaxNode.value tree).at? place' = some b →
        (a.span.offset ≤ b.span.offset ∧ b.span.stop ≤ a.span.stop ↔
          ((ofText text).rangeOf a.span).contains ((ofText text).rangeOf b.span) = true) := by
  have htext : (ofText text).text = text := rfl
  refine ⟨fun offset => ?_, fun a b ha hb => ⟨?_, congrArg _, Position.ofOffset_inj ha hb⟩,
    fun tree htree => ⟨?_, ?_, ?_⟩⟩
  · obtain ⟨before, after, hsplit, hfloor, hposition⟩ := Position.exists_ofOffset text.toList offset
    exact ⟨before, after, hsplit, hfloor, hposition ▸ LineTable.position?_ofText text.toList offset, hposition⟩
  · exact Position.lt_iff_ofOffset_precedes ha hb
  · exact fun edit edit' hedit hedit' => (hedit.marked htext htree).bounds_eq (hedit'.marked htext htree)
  · intro edit hedit
    have hmarked := hedit.marked htext htree
    obtain ⟨edited, happly⟩ := hmarked.toFits.apply
    refine ⟨edited, happly, hmarked.resultByRange?_eq.trans ?_⟩
    exact Edit.result?_of_apply happly
  · intro place place' a b ha hb
    have hbounds := (Tree.HasSpan.node ha).isBoundary htree
    have hbounds' := (Tree.HasSpan.node hb).isBoundary htree
    exact (contains_rangeOf_iff htext hbounds hbounds').symm

end PolicyAudit
