-- SUMMARY: The edit of a fix fits the text that it was computed for.
import PolicyAudit.Lint.Validator
import PolicyAudit.Proofs.Syntax.Placement

/-! ## The first byte of an object

A first member is put behind the brace, so there must be a boundary. -/

namespace PolicyAudit

namespace SyntaxNode

/-- Whether the first byte of an object is a character of its own. This asks nothing of other nodes. -/
def Opens (text : List Char) : SyntaxNode → Prop
  | .value (.object span _) => Text.isBoundary text (span.offset + 1) = true
  | _ => True

end SyntaxNode

namespace Cursor

open SyntaxNode

variable {text : List Char} {room : Nat} {c : Cursor} {tree : Tree}

/-- What is read as an object starts with a brace. -/
theorem rest_of_readValue_object {span : Span} {members : List (Member Tree)}
    (h : (readValue room c).result = some (.object span members)) : ∃ s, c.rest = '{' :: s := by
  cases room with
  | zero => cases h
  | succ room =>
    cases hrest : c.rest with
    | nil => simp [readValue, hrest] at h
    | cons ch s =>
      revert h
      refine readValue_of_head hrest ?object ?array ?string ?number ?word ?noValue
      case object =>
        rintro rfl -
        exact ⟨s, rfl⟩
      case array => rintro - ⟨⟩
      case string => rintro - ⟨⟩
      case number =>
        intro _ h
        obtain ⟨_, _, hscalar⟩ := exists_scalar_of_readNumber h
        cases hscalar
      case word =>
        intro _ _ _ _ h
        obtain ⟨_, _, hscalar⟩ := exists_scalar_of_readWord h
        cases hscalar
      case noValue => rintro ⟨⟩

theorem opens_of_readValue (hc : c.Within text) (h : (readValue room c).result = some tree) :
    (SyntaxNode.value tree).Opens text := by
  cases tree with
  | object span members =>
    obtain ⟨s, hrest⟩ := rest_of_readValue_object h
    have hspan : span = .between c.pos (readValue room c).next.pos :=
      (placesIn_readValue text room c hc _ h).1
    have hskip : (c.skip 1).pos = span.offset + 1 := by
      rw [hspan, skip, hrest]
      rfl
    rw [Opens, ← hskip]
    exact (hc.of_reaches (c.reaches_skip 1)).isBoundary
  | array span items => trivial
  | scalar span value => trivial

/-- What holds of every value that is read and of every member holds of all nodes of what is read. -/
theorem all_of_readValue {P : SyntaxNode → Prop}
    (hvalues : ∀ room c tree, c.Within text → (readValue room c).result = some tree → P (.value tree))
    (hmembers : ∀ room opened c, c.Within text →
      ∀ m ∈ (readMembers (readValue room) opened c).result, P (.member m))
    (hc : c.Within text) (h : (readValue room c).result = some tree) : (SyntaxNode.value tree).All P := by
  induction room generalizing c tree with
  | zero => cases h
  | succ room ih =>
    have hopen : (c.skip 1).Within text := hc.of_reaches (c.reaches_skip 1)
    refine all_of_children (hvalues _ c tree hc h) fun child hchild => ?_
    rcases readValue_cases h with ⟨span, rfl, -⟩ | ⟨span, rfl, -⟩ | ⟨span, value, rfl⟩
    · obtain ⟨m, hm, rfl⟩ := List.mem_map.mp hchild
      refine all_of_children (hmembers room _ _ hopen m hm) fun part hpart => ?_
      obtain ⟨sub, hsub, rfl⟩ := List.mem_map.mp hpart
      obtain ⟨d, hd, hvalue, -⟩ := exists_of_mem_readMembers hm (Option.mem_toList.mp hsub)
      exact ih (hopen.of_reaches hd) hvalue
    · obtain ⟨sub, hsub, rfl⟩ := List.mem_map.mp hchild
      obtain ⟨d, hd, hvalue, -⟩ := exists_of_mem_readItems hsub
      exact ih (hopen.of_reaches hd) hvalue
    · cases hchild

end Cursor

/-- What holds of every value that is read and of every member holds of all nodes of a document. -/
theorem Document.all_of_ofText {text : String} {tree : Tree} {P : SyntaxNode → Prop}
    (hvalues : ∀ room (c : Cursor) tree, c.Within text.toList → (c.readValue room).result = some tree →
      P (.value tree))
    (hmembers : ∀ room opened (c : Cursor), c.Within text.toList →
      ∀ m ∈ (Cursor.readMembers (Cursor.readValue room) opened c).result, P (.member m))
    (h : (ofText text).tree? = some tree) : (SyntaxNode.value tree).All P := by
  obtain ⟨c, hc, hresult, -⟩ := readValue_of_tree? h
  exact Cursor.all_of_readValue hvalues hmembers hc hresult

theorem Document.all_opens_of_ofText {text : String} {tree : Tree}
    (h : (ofText text).tree? = some tree) : (SyntaxNode.value tree).All (SyntaxNode.Opens text.toList) :=
  all_of_ofText (fun _ _ _ => Cursor.opens_of_readValue) (fun _ _ _ _ _ _ => trivial) h

/-! ## Edits that fit -/

namespace Edit

variable {edit : Edit} {text : String} {doc : Document} {offset : Nat}

/-- An edit fits a text when its ends are boundaries there, in their order. -/
structure Fits (edit : Edit) (text : List Char) : Prop where
  ordered : edit.start ≤ edit.stop
  starts : Text.isBoundary text edit.start = true
  stops : Text.isBoundary text edit.stop = true

theorem Fits.apply (h : edit.Fits text.toList) : ∃ edited, edit.apply text = .ok edited := by
  obtain ⟨⟨before, rest⟩, hstart⟩ := Option.isSome_iff_exists.mp h.starts
  obtain ⟨⟨replaced, after⟩, hstop⟩ := Option.isSome_iff_exists.mp h.stops
  refine ⟨String.ofList (before ++ edit.text.toList ++ after), ?_⟩
  simp only [Edit.apply, result?, if_pos h.ordered, hstart, hstop]

theorem fits_insert {chars : List Char} (h : Text.isBoundary chars offset = true) (text : List Char) :
    (insert doc offset text).Fits chars := ⟨Nat.le_refl offset, h, h⟩

theorem fits_replace {chars : List Char} {node : SyntaxNode} (h : node.Placed chars)
    (text : List Char) : (replace doc node.span text).Fits chars :=
  ⟨Nat.le_add_right _ _, h.starts, h.stops⟩

variable {tree : Tree} {path : Path}

/-- Anything may take the place of a part of a document. -/
theorem fits_replaceValue (h : (Document.ofText text).at? path = some tree) (value : Json) :
    (replaceValue doc tree value).Fits text.toList := by
  obtain ⟨root, hroot, hat⟩ := Option.bind_eq_some_iff.mp h
  exact fits_replace ((Document.all_placed_of_ofText hroot).at? hat).self value.compact

/-- A member may be added to any object of a document. -/
theorem fits_insertMember {name : String} {value : Json}
    (h : (Document.ofText text).at? path = some tree)
    (hedit : insertMember doc tree name value = .ok edit) : edit.Fits text.toList := by
  obtain ⟨root, hroot, hat⟩ := Option.bind_eq_some_iff.mp h
  have hplaced := (Document.all_placed_of_ofText hroot).at? hat
  cases tree with
  | object span members =>
    rw [insertMember] at hedit
    cases hlast : members.getLast? with
    | none =>
      rw [hlast] at hedit
      obtain rfl := Except.ok.inj hedit
      exact fits_insert ((Document.all_opens_of_ofText hroot).at? hat).self _
    | some last =>
      rw [hlast] at hedit
      obtain rfl := Except.ok.inj hedit
      have hmem : SyntaxNode.member last ∈ members.map .member :=
        List.mem_map_of_mem (List.mem_of_getLast? hlast)
      exact fits_insert (hplaced.of_mem_children hmem).self.stops _
  | array span items => cases hedit
  | scalar span value => cases hedit

end Edit

/-! ## Fixes -/

variable {text : String} {ctx : Context} {issue : Issue} {edit : Edit}

theorem eq_ok_of_map_some {ε α : Type} {x : Except ε α} {a : α} (h : x.map some = .ok (some a)) :
    x = .ok a := by
  cases x with
  | error e => cases h
  | ok b => rw [Option.some.inj (Except.ok.inj h)]

namespace Effect

theorem fits_declare {parameter : String} (hdoc : ctx.doc = .ofText text)
    (h : declare ctx parameter = .ok edit) : edit.Fits text.toList := by
  unfold declare at h
  dsimp only at h
  split at h
  · split at h
    · next tree htree => exact Edit.fits_insertMember (hdoc ▸ htree) h
    · cases h
  · split at h
    · next tree htree => exact Edit.fits_insertMember (hdoc ▸ htree) h
    · cases h

theorem fits_fix (hdoc : ctx.doc = .ofText text) (h : fix ctx issue = .ok (some edit)) :
    edit.Fits text.toList := by
  unfold fix at h
  split at h
  · split at h
    · cases h
    · exact fits_declare hdoc (eq_ok_of_map_some h)
  · split at h
    · split at h
      · cases h
      · obtain ⟨tree, htree, rfl⟩ := Option.map_eq_some_iff.mp (Except.ok.inj h)
        obtain ⟨path, -, hat⟩ := Option.bind_eq_some_iff.mp htree
        exact Edit.fits_replaceValue (hdoc ▸ hat) _
    · cases h

end Effect

namespace Reference

theorem fits_addId {tree : Tree} {entry : Part} {path : Path} {id : String}
    (hdoc : ctx.doc = .ofText text) (htree : ctx.doc.at? path = some tree)
    (h : addId ctx tree entry id = .ok (some edit)) : edit.Fits text.toList := by
  unfold addId at h
  split at h
  · obtain ⟨found, hfound, rfl⟩ := Option.map_eq_some_iff.mp (Except.ok.inj h)
    exact Edit.fits_replaceValue (hdoc ▸ hfound) _
  · exact Edit.fits_insertMember (hdoc ▸ htree) (eq_ok_of_map_some h)

theorem fits_fix (hdoc : ctx.doc = .ofText text) (h : fix ctx issue = .ok (some edit)) :
    edit.Fits text.toList := by
  unfold fix at h
  split at h
  · cases h
  · split at h
    · cases h
    · next tree htree =>
      dsimp only at h
      split at h
      · obtain ⟨id, -, rfl⟩ := Option.map_eq_some_iff.mp (Except.ok.inj h)
        exact Edit.fits_replaceValue (hdoc ▸ htree) _
      · split at h
        · split at h
          · cases h
          · split at h
            · cases h
            · exact fits_addId hdoc htree h
        · cases h

end Reference

namespace Assignment

theorem fits_fixName (hdoc : ctx.doc = .ofText text) (h : fixName ctx issue = .ok (some edit)) :
    edit.Fits text.toList := by
  unfold fixName at h
  split at h
  · cases h
  · obtain ⟨tree, htree, hname⟩ := Option.bind_eq_some_iff.mp (Except.ok.inj h)
    obtain ⟨name, -, rfl⟩ := Option.map_eq_some_iff.mp hname
    exact Edit.fits_replaceValue (hdoc ▸ htree) _

theorem fits_fixScope (hdoc : ctx.doc = .ofText text) (h : fixScope ctx issue = .ok (some edit)) :
    edit.Fits text.toList := by
  unfold fixScope at h
  split at h
  · cases h
  · split at h
    · cases h
    · next tree htree => exact Edit.fits_insertMember (hdoc ▸ htree) (eq_ok_of_map_some h)

end Assignment

theorem Rule.fits_fix {rule : Rule} (hdoc : ctx.doc = .ofText text)
    (h : rule.fix ctx issue = .ok (some edit)) : edit.Fits text.toList := by
  unfold Rule.fix at h
  split at h
  · cases rule with
    | effectParameter => exact Effect.fits_fix hdoc h
    | referenceIntegrity => exact Reference.fits_fix hdoc h
    | nameLength => exact Assignment.fits_fixName hdoc h
    | assignmentScope => exact Assignment.fits_fixScope hdoc h
    | schemaValidation | nonEmptyCollection | exclusiveReference => cases h
  · cases h

theorem Validator.fits_fix? {validator : Validator} {options : LintOptions}
    (hdoc : ctx.doc = .ofText text) (h : validator.fix? ctx options issue = some edit) :
    edit.Fits text.toList := by
  unfold Validator.fix? at h
  split at h
  · cases h
  · split at h
    · split at h
      · next hfix => exact Rule.fits_fix hdoc (h ▸ hfix)
      · cases h
    · cases h

end PolicyAudit
