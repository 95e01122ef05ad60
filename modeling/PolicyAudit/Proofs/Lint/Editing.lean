-- SUMMARY: An edit of a part of a clean document leaves it clean, and the rest of its value as it was.
import PolicyAudit.Proofs.Lint.Insertion

/-! ## Edits of a part -/

namespace PolicyAudit

open Text

variable {depth pos : Nat} {tree sub new : Tree} {outer mid rest : List Char} {value : Json}
variable {doc : Document} {edit : Edit}

/-- An edit turns what is written for a part, the text `mid` at byte `pos`, into what is written for another
one. -/
def Edit.Rewrites (edit : Edit) (depth pos : Nat) (mid : List Char) (new : Tree) : Prop :=
  ∃ before old after, mid = before ++ (old ++ after) ∧ edit.start = pos + byteLength before ∧
    edit.stop = edit.start + byteLength old ∧
    Writes depth pos (.value new) (before ++ (edit.text.toList ++ after))

namespace Edit

theorem rewrites_replaceValue (h : Writes depth pos (.value sub) mid) (hvalue : Json.Prints depth value) :
    ∃ new, (replaceValue doc sub value).Rewrites depth pos mid new ∧ new.toJson = value := by
  obtain ⟨new, hwrites, hread, -⟩ := hvalue.compact pos
  have hspan := h.span_eq
  refine ⟨new, ⟨[], mid, [], by simp, ?_, ?_, ?_⟩, hread⟩
  · simp [replaceValue, replace, hspan]
  · simp [replaceValue, replace, hspan, Span.stop]
  · simpa [replaceValue, replace] using hwrites

theorem toList_text_insert (doc : Document) (offset : Nat) (text : List Char) :
    (insert doc offset text).text.toList = text := String.toList_ofList

/-- What is put behind the last member is a comma, a gap and the new member. -/
theorem exists_of_insertMember {name : String} {span : Span} {members : List (Member Tree)}
    {last : Member Tree} (hedit : insertMember doc (.object span members) name value = .ok edit)
    (hlast : members.getLast? = some last) (hvalue : Json.Prints depth value)
    (hown : ∀ line, ownLine? doc span.offset last.span = some line → Gap line) :
    ∃ g k, edit = insert doc last.span.stop (',' :: (g ++ k)) ∧ Gap g ∧
      Spells depth (.member name value) k := by
  have hblank : Gap [' '] := .blank (by decide) .nil
  rw [insertMember, hlast] at hedit
  dsimp only at hedit
  cases hline : ownLine? doc span.offset last.span with
  | none =>
    rw [hline] at hedit
    have hmember := Spells.named (.render name) .nil hblank hvalue.compact.spells
    exact ⟨[' '], _, by rw [← Except.ok.inj hedit]; simp, hblank, hmember⟩
  | some indent =>
    rw [hline] at hedit
    have hgap := hown indent hline
    have hmember := Spells.named (.render name) .nil hblank (hvalue.indented hgap 0).spells
    exact ⟨'\n' :: indent, _, by rw [← Except.ok.inj hedit]; simp, .blank (by decide) hgap, hmember⟩

/-- Before the last member of an object the indentation that is repeated is a gap. -/
theorem gap_of_ownLine?_of_last {opened : Nat} {span : Span} {before g after line : List Char}
    (hline : ownLine? doc opened span = some line)
    (htext : doc.text.toList = outer ++ '{' :: (before ++ (g ++ after)))
    (hoffset : span.offset = byteLength (outer ++ '{' :: (before ++ g)))
    (hcomma : ∀ c ∈ before.getLast?, c = ',') (hg : Gap g) : Gap line := by
  -- what stands before the gap is the brace or a comma
  obtain ⟨start, c, hstart, hc⟩ : ∃ start c, outer ++ '{' :: before = start ++ [c] ∧ isBlank c = false := by
    rcases List.eq_nil_or_concat before with rfl | ⟨start, c, rfl⟩
    · exact ⟨outer, '{', rfl, by decide⟩
    · obtain rfl := hcomma c (by simp)
      exact ⟨outer ++ '{' :: start, ',', by simp, by decide⟩
  have hgap : start ++ c :: g = outer ++ '{' :: (before ++ g) := by
    rw [← List.singleton_append, ← List.append_assoc, ← hstart]
    simp
  have hall : doc.text.toList = start ++ c :: g ++ after := by
    rw [htext, hgap]
    simp
  exact gap_of_ownLine? hline hall (by rw [hgap, hoffset]) hc hg

/-- A member can be added to what is written for an object. -/
theorem rewrites_insertMember {name : String} (h : Writes depth (byteLength outer) (.value sub) mid)
    (htext : doc.text.toList = outer ++ (mid ++ rest)) (hvalue : Json.Prints (depth + 1) value)
    (hedit : insertMember doc sub name value = .ok edit) :
    ∃ new, edit.Rewrites depth (byteLength outer) mid new ∧ Writes.Adds sub.members name value new.members := by
  cases h with
  | scalar => cases hedit
  | array => cases hedit
  | @object _ _ members w hdepth hw =>
    cases hlast : members.getLast? with
    | none =>
      rw [insertMember, hlast] at hedit
      obtain rfl := Except.ok.inj hedit
      obtain rfl := List.getLast?_eq_none_iff.mp hlast
      have hblank : Gap [' '] := .blank (by decide) .nil
      have hmember := Spells.named (.render name) .nil hblank hvalue.compact.spells
      obtain ⟨members', hwrites, hadds⟩ := hw.adds_first hmember
      have hobject := Writes.object hdepth hwrites
      refine ⟨_, ⟨['{'], [], w ++ ['}'], rfl, rfl, rfl, hobject.as_text ?_⟩, hadds⟩
      rw [toList_text_insert]
      simp
    | some last =>
      obtain ⟨before, g, own, after, rfl, hcomma, hg, hspan, hadds⟩ := hw.adds_last hlast
      have hbrace : '{'.utf8Size = 1 := by decide
      have hown : ∀ line, ownLine? doc (byteLength outer) last.span = some line → Gap line := by
        intro line hline
        have hall : doc.text.toList = outer ++ '{' :: (before ++ (g ++ (own ++ after ++ '}' :: rest))) := by
          rw [htext]
          simp
        have hoffset : last.span.offset = byteLength (outer ++ '{' :: (before ++ g)) := by
          rw [hspan]
          simp only [byteLength_append, byteLength_cons, hbrace]
          omega
        exact gap_of_ownLine?_of_last hline hall hoffset hcomma hg
      obtain ⟨g', k, rfl, hg', hmember⟩ := exists_of_insertMember hedit hlast hvalue hown
      obtain ⟨members', hwrites, hadds⟩ := hadds hg' hmember
      have hobject := Writes.object hdepth hwrites
      refine ⟨_, ⟨'{' :: (before ++ (g ++ own)), [], after ++ ['}'], by simp, ?_, rfl, hobject.as_text ?_⟩, hadds⟩
      · rw [insert, replace, hspan, Span.stop]
        simp only [byteLength_append, byteLength_cons, hbrace]
        omega
      · rw [toList_text_insert]
        simp

end Edit

/-! ## Edits of a document -/

/-- An edit of a part of a document. -/
theorem WritesDocument.rewrite {text edited : String} {path : Path} {P : Tree → Prop}
    (h : WritesDocument tree text.toList) (hsub : tree.at? path = some sub)
    (hedit : ∀ outer mid rest, text.toList = outer ++ (mid ++ rest) →
      Writes path.length (byteLength outer) (.value sub) mid →
      ∃ new, edit.Rewrites path.length (byteLength outer) mid new ∧ P new)
    (happly : edit.apply text = .ok edited) :
    ∃ tree' new, P new ∧ WritesDocument tree' edited.toList ∧ (path = [] → tree' = new) ∧
      (path ≠ [] → Tree.heads tree'.members = Tree.heads tree.members) ∧
      Json.Puts new.toJson path tree.toJson tree'.toJson := by
  obtain ⟨g, w, g', hg, hw, hg', htext⟩ := h
  obtain ⟨pre, mid, post, rfl, hslot⟩ := hw.slot_at hsub
  rw [Nat.zero_add] at hslot
  have hat := byteLength_append g pre
  obtain ⟨new, ⟨before, old, after, rfl, hstart, hstop, hnew⟩, hP⟩ :=
    hedit (g ++ pre) mid (post ++ g') (by rw [htext]; simp) (hslot.part.at_pos hat.symm)
  obtain ⟨_, hwrites, tree', rfl, hroot, hheads, hputs⟩ := hslot.rewrite (hnew.at_pos hat)
  have hedited : edited.toList =
      g ++ (pre ++ (before ++ (edit.text.toList ++ after) ++ post) ++ g') := by
    have hstarts : splitAtByte text.toList edit.start =
        some (g ++ (pre ++ before), old ++ (after ++ (post ++ g'))) := by
      rw [splitAtByte_eq_some_iff, htext, hstart]
      simp [Nat.add_assoc]
    have hstops : splitAtByte text.toList edit.stop =
        some (g ++ (pre ++ (before ++ old)), after ++ (post ++ g')) := by
      rw [splitAtByte_eq_some_iff, htext, hstop, hstart]
      simp [Nat.add_assoc]
    have hle : edit.start ≤ edit.stop := by omega
    simp only [Edit.apply, Edit.result?, if_pos hle, hstarts, hstops] at happly
    rw [← Except.ok.inj happly]
    simp
  exact ⟨tree', new, hP, ⟨g, _, g', hg, hwrites, hg', hedited⟩, hroot, hheads, hputs⟩

/-! ## New members -/

theorem Keyed.find?_append {α : Type} (name : String) (l l' : Keyed α) :
    find? name (l ++ l') = (find? name l).or (find? name l') := by
  induction l with
  | nil => rfl
  | cons entry l ih =>
    obtain ⟨k, value⟩ := entry
    rw [List.cons_append, find?_cons, find?_cons, ih]
    split <;> rfl

/-- What a tree stands for when a member is added to it. -/
theorem Writes.Adds.get?_toJson {name : String} {read : Json} (hsub : sub.isObject = true)
    (h : Writes.Adds sub.members name read new.members) (other : String) :
    new.toJson.get? other = (sub.toJson.get? other).or (if name = other then some read else none) := by
  obtain ⟨hentries, -⟩ := h
  cases sub with
  | object span members =>
    cases new with
    | object span' members' =>
      rw [Tree.toJson_object, Tree.toJson_object, Json.get?_ofMembers, Json.get?_ofMembers]
      dsimp only [Tree.members] at hentries
      rw [hentries, Keyed.find?_append, Keyed.find?_cons, Keyed.find?_nil]
    | array | scalar => simp [Tree.members, Tree.entries] at hentries
  | array | scalar => cases hsub

theorem Edit.exists_insertMember (doc : Document) (name : String) (value : Json) (hsub : sub.isObject = true) :
    ∃ edit, insertMember doc sub name value = .ok edit := by
  cases sub with
  | object span members =>
    unfold insertMember
    dsimp only
    split <;> exact ⟨_, rfl⟩
  | array | scalar => cases hsub

theorem Tree.isObject_toJson (tree : Tree) : tree.toJson.isObject = tree.isObject := by
  cases tree with
  | object span members => rw [toJson_object]; rfl
  | array span items => rw [toJson_array]; rfl
  | scalar span value => rfl

end PolicyAudit
