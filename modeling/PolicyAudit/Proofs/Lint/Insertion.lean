-- SUMMARY: An object stays well written when a member is added to it.
import PolicyAudit.Proofs.Lint.Printing
import PolicyAudit.Proofs.Syntax.Rewriting

/-! ## Indentation

The line before a member may be repeated as indentation: its blanks belong to the gap there. -/

namespace PolicyAudit

open Text

variable {g line : List Char}

/-- Blanks at the end of a gap, on its last line, are a gap. They stand outside of comments. -/
theorem Gap.of_suffix (hg : Gap g) (h : line <:+ g) (hblank : ∀ c ∈ line, isBlank c = true)
    (hfeed : '\n' ∉ line) : Gap line := by
  induction hg with
  | nil =>
    rw [List.suffix_nil.mp h]
    exact .nil
  | blank hc hs ih =>
    rcases List.suffix_cons_iff.mp h with rfl | hsuffix
    · exact .blank hc hs
    · exact ih hsuffix
  | @lineComment body s _ _ ih =>
    have hend : '\n' :: s <:+ '/' :: '/' :: (body ++ '\n' :: s) := ⟨'/' :: '/' :: body, rfl⟩
    rcases List.suffix_or_suffix_of_suffix h hend with hsuffix | hsuffix
    · rcases List.suffix_cons_iff.mp hsuffix with rfl | hsuffix
      · exact absurd List.mem_cons_self hfeed
      · exact ih hsuffix
    · exact absurd (hsuffix.subset List.mem_cons_self) hfeed
  | @blockComment body s _ _ ih =>
    have hslash : '/' ∉ line := fun hmem => absurd (hblank _ hmem) (by decide)
    have hend : '/' :: s <:+ '/' :: '*' :: (body ++ '*' :: '/' :: s) := ⟨'/' :: '*' :: (body ++ ['*']), by simp⟩
    rcases List.suffix_or_suffix_of_suffix h hend with hsuffix | hsuffix
    · rcases List.suffix_cons_iff.mp hsuffix with rfl | hsuffix
      · exact absurd List.mem_cons_self hslash
      · exact ih hsuffix
    · exact absurd (hsuffix.subset List.mem_cons_self) hslash

/-- Blanks reach back to the last character that is none. -/
theorem suffix_of_blank {before : List Char} {c : Char} (hc : isBlank c = false)
    (h : line <:+ before ++ c :: g) (hblank : ∀ c ∈ line, isBlank c = true) : line <:+ g := by
  have hend : c :: g <:+ before ++ c :: g := List.suffix_append before _
  have hnot : c ∉ line := fun hmem => by rw [hblank c hmem] at hc; cases hc
  rcases List.suffix_or_suffix_of_suffix h hend with hsuffix | hsuffix
  · rcases List.suffix_cons_iff.mp hsuffix with rfl | hsuffix
    · exact absurd List.mem_cons_self hnot
    · exact hsuffix
  · exact absurd (hsuffix.subset List.mem_cons_self) hnot

theorem suffix_reverse_takeWhile (p : Char → Bool) (s : List Char) :
    (s.reverse.takeWhile p).reverse <:+ s := by
  have hprefix := List.takeWhile_prefix (l := s.reverse) p
  rwa [← List.reverse_suffix, List.reverse_reverse] at hprefix

/-- The indentation that is repeated is a gap. -/
theorem Edit.gap_of_ownLine? {doc : Document} {opened : Nat} {member : Span} {before rest : List Char}
    {c : Char} (hline : ownLine? doc opened member = some line)
    (htext : doc.text.toList = before ++ c :: g ++ rest)
    (hoffset : member.offset = byteLength (before ++ c :: g)) (hc : isBlank c = false) (hg : Gap g) :
    Gap line := by
  have hsplit : splitAtByte doc.text.toList member.offset = some (before ++ c :: g, rest) :=
    splitAtByte_eq_some_iff.mpr ⟨htext, hoffset.symm⟩
  rw [ownLine?, hsplit, Option.bind_eq_bind, Option.bind_some] at hline
  dsimp only at hline
  split at hline
  · next hall =>
    obtain rfl := Option.some.inj hline
    have hblank := List.all_eq_true.mp hall.2.2
    refine hg.of_suffix (suffix_of_blank hc (suffix_reverse_takeWhile _ _) hblank) hblank fun hmem => ?_
    have hfeed := List.all_eq_true.mp List.all_takeWhile _ (List.mem_reverse.mp hmem)
    simp at hfeed
  · cases hline

/-! ## A member more -/

namespace Writes

variable {depth pos : Nat} {found : List (Member Tree)} {last : Member Tree} {name : String} {value : Json}
variable {w k : List Char}

/-- What becomes of the members when one is added behind them. -/
def Adds (found : List (Member Tree)) (name : String) (value : Json) (members : List (Member Tree)) : Prop :=
  Tree.entries members = Tree.entries found ++ [(name, value)] ∧
    Tree.heads found <+: Tree.heads members

theorem exists_member (h : Spells depth (.member name value) k) (pos : Nat) :
    ∃ nameSpan tree, Writes depth pos (.member name nameSpan tree) k ∧ tree.toJson = value := by
  obtain ⟨_, hwrites, hmember⟩ := h.exists_writes pos
  cases hmember with
  | member _ nameSpan tree => exact ⟨nameSpan, tree, hwrites, rfl⟩

/-- A first member goes to the front of the gap. -/
theorem adds_first (h : Writes depth pos (.members []) w) (hmember : Spells depth (.member name value) k) :
    ∃ members, Writes depth pos (.members members) (k ++ w) ∧ Adds [] name value members := by
  cases h with
  | noMember hg =>
    obtain ⟨nameSpan, tree, hwrites, rfl⟩ := exists_member hmember (pos + byteLength [])
    exact ⟨_, by simpa using Writes.lastMember .nil hwrites hg, rfl, List.nil_prefix⟩

/-- Behind a part and the comma after it. -/
theorem pos_in_rest (pos : Nat) (g w g' pre : List Char) :
    pos + byteLength (g ++ (w ++ (g' ++ [',']))) + byteLength pre =
      pos + byteLength (g ++ (w ++ (g' ++ ',' :: pre))) := by
  simp only [byteLength_append, byteLength_cons, byteLength_nil]
  omega

/-- A member is added right behind the last one. What stands before that is a gap and before it a comma, or
nothing. -/
theorem adds_last (h : Writes depth pos (.members found) w) (hlast : found.getLast? = some last) :
    ∃ before g own after, w = before ++ (g ++ (own ++ after)) ∧ (∀ c ∈ before.getLast?, c = ',') ∧ Gap g ∧
      last.span = ⟨pos + byteLength (before ++ g), byteLength own⟩ ∧
      ∀ {g' k : List Char} {name : String} {value : Json}, Gap g' → Spells depth (.member name value) k →
        ∃ members, Writes depth pos (.members members)
            (before ++ (g ++ (own ++ ',' :: (g' ++ (k ++ after))))) ∧ Adds found name value members := by
  generalize hp : Piece.members found = p at h
  induction h generalizing found with
  | noMember =>
    obtain rfl := Piece.members.inj hp
    cases hlast
  | @lastMember _ pos name nameSpan tree g w g' hg hw hg' =>
    obtain rfl := Piece.members.inj hp
    obtain rfl := Option.some.inj hlast
    refine ⟨[], g, w, g', rfl, nofun, hg, rfl, fun {g'' k _ _} hg'' hmember => ?_⟩
    obtain ⟨nameSpan', tree', hnew, rfl⟩ := exists_member hmember
      (pos + byteLength (g ++ (w ++ ([] ++ [',']))) + byteLength g'')
    have hmembers := Writes.consMember hg hw .nil (.lastMember hg'' hnew hg')
    exact ⟨_, hmembers, rfl, List.prefix_append _ _⟩
  | @consMember _ pos name nameSpan tree members g w g' rest hg hw hg' hrest _ ih =>
    obtain rfl := Piece.members.inj hp
    cases members with
    | nil =>
      obtain rfl := Option.some.inj hlast
      cases hrest with
      | noMember hrest =>
        refine ⟨[], g, w, g' ++ ',' :: rest, rfl, nofun, hg, rfl, fun {g'' k _ _} hg'' hmember => ?_⟩
        obtain ⟨nameSpan', tree', hnew, rfl⟩ := exists_member hmember
          (pos + byteLength (g ++ (w ++ ([] ++ [',']))) + byteLength g'')
        have hmembers := Writes.consMember hg hw .nil (.consMember hg'' hnew hg' (.noMember hrest))
        exact ⟨_, hmembers, rfl, List.prefix_append _ _⟩
    | cons next members =>
      rw [List.getLast?_cons_cons] at hlast
      obtain ⟨before, g'', own, after, rfl, hcomma, hg'', hspan, hadds⟩ := ih hlast rfl
      refine ⟨g ++ (w ++ (g' ++ ',' :: before)), g'', own, after, by simp, ?_, hg'', ?_, fun hgap hmember => ?_⟩
      · intro c hc
        cases before with
        | nil => simpa [eq_comm] using hc
        | cons b before => exact hcomma c (by simpa using hc)
      · rw [hspan, pos_in_rest]
        simp
      · obtain ⟨members', hwrites, hentries, hheads⟩ := hadds hgap hmember
        refine ⟨_, by simpa using Writes.consMember hg hw hg' hwrites, ?_, ?_⟩
        · rw [Tree.entries_cons, Tree.entries_cons, hentries]
          rfl
        · rw [Tree.heads_cons, Tree.heads_cons]
          exact List.cons_prefix_cons.mpr ⟨rfl, hheads⟩
  | _ => cases hp

end Writes

end PolicyAudit
