-- SUMMARY: The grammar with places: the trees that stretches of text are written for.
import PolicyAudit.Proofs.Syntax.Grammar
import PolicyAudit.Proofs.Syntax.Value

/-! ## Trees in a text

The grammar says what a text stands for. A tree says more: where each of its parts is in the text. Here the
forms of the grammar come with the trees that they are read to, every span included. -/

namespace PolicyAudit

open Text

/-- The part of a tree that a stretch of text is written for. -/
inductive Piece where
  | value (tree : Tree)
  | items (items : List Tree)
  | member (name : String) (nameSpan : Span) (tree : Tree)
  | members (members : List (Member Tree))

/-- Whether a stretch of text that starts at byte `pos`, inside `depth` containers, is written for a part of
a tree. -/
inductive Writes : (depth pos : Nat) → Piece → List Char → Prop
  | scalar {depth pos : Nat} {value : Scalar} {w : List Char} (hdepth : depth ≤ Document.maxDepth)
      (hw : Literal value w) :
      Writes depth pos (.value (.scalar ⟨pos, byteLength w⟩ value)) w
  | array {depth pos : Nat} {items : List Tree} {w : List Char} (hdepth : depth ≤ Document.maxDepth)
      (hw : Writes (depth + 1) (pos + 1) (.items items) w) :
      Writes depth pos (.value (.array ⟨pos, byteLength ('[' :: (w ++ [']']))⟩ items))
        ('[' :: (w ++ [']']))
  | object {depth pos : Nat} {members : List (Member Tree)} {w : List Char}
      (hdepth : depth ≤ Document.maxDepth) (hw : Writes (depth + 1) (pos + 1) (.members members) w) :
      Writes depth pos (.value (.object ⟨pos, byteLength ('{' :: (w ++ ['}']))⟩ members))
        ('{' :: (w ++ ['}']))
  | noItem {depth pos : Nat} {g : List Char} (hg : Gap g) : Writes depth pos (.items []) g
  | lastItem {depth pos : Nat} {tree : Tree} {g w g' : List Char} (hg : Gap g)
      (hw : Writes depth (pos + byteLength g) (.value tree) w) (hg' : Gap g') :
      Writes depth pos (.items [tree]) (g ++ (w ++ g'))
  | consItem {depth pos : Nat} {tree : Tree} {items : List Tree} {g w g' rest : List Char} (hg : Gap g)
      (hw : Writes depth (pos + byteLength g) (.value tree) w) (hg' : Gap g')
      (hrest : Writes depth (pos + byteLength (g ++ (w ++ (g' ++ [','])))) (.items items) rest) :
      Writes depth pos (.items (tree :: items)) (g ++ (w ++ (g' ++ ',' :: rest)))
  | named {depth pos : Nat} {name : String} {tree : Tree} {k g g' w : List Char}
      (hk : Literal (.string name) k) (hg : Gap g) (hg' : Gap g')
      (hw : Writes depth (pos + byteLength (k ++ (g ++ ':' :: g'))) (.value tree) w) :
      Writes depth pos (.member name ⟨pos, byteLength k⟩ tree) (k ++ (g ++ ':' :: (g' ++ w)))
  | noMember {depth pos : Nat} {g : List Char} (hg : Gap g) : Writes depth pos (.members []) g
  | lastMember {depth pos : Nat} {name : String} {nameSpan : Span} {tree : Tree} {g w g' : List Char}
      (hg : Gap g) (hw : Writes depth (pos + byteLength g) (.member name nameSpan tree) w)
      (hg' : Gap g') :
      Writes depth pos (.members [⟨⟨pos + byteLength g, byteLength w⟩, name, nameSpan, some tree⟩])
        (g ++ (w ++ g'))
  | consMember {depth pos : Nat} {name : String} {nameSpan : Span} {tree : Tree}
      {members : List (Member Tree)} {g w g' rest : List Char} (hg : Gap g)
      (hw : Writes depth (pos + byteLength g) (.member name nameSpan tree) w) (hg' : Gap g')
      (hrest : Writes depth (pos + byteLength (g ++ (w ++ (g' ++ [','])))) (.members members) rest) :
      Writes depth pos
        (.members (⟨⟨pos + byteLength g, byteLength w⟩, name, nameSpan, some tree⟩ :: members))
        (g ++ (w ++ (g' ++ ',' :: rest)))

/-- Whether a text is a document with a tree: the tree's text between gaps. -/
def WritesDocument (tree : Tree) (text : List Char) : Prop :=
  ∃ g w g', Gap g ∧ Writes 0 (byteLength g) (.value tree) w ∧ FinalGap g' ∧ text = g ++ (w ++ g')

variable {depth pos pos' : Nat} {piece : Piece} {tree : Tree} {w w' : List Char}

theorem Writes.at_pos (h : Writes depth pos piece w) (hpos : pos = pos') : Writes depth pos' piece w :=
  hpos ▸ h

theorem Writes.as_text (h : Writes depth pos piece w) (hw : w = w') : Writes depth pos piece w' := hw ▸ h

/-- A tree extends over the text that it is written in. -/
theorem Writes.span_eq (h : Writes depth pos (.value tree) w) : tree.span = ⟨pos, byteLength w⟩ := by
  cases h with
  | scalar | array | object => rfl

theorem Writes.depth_le (h : Writes depth pos (.value tree) w) : depth ≤ Document.maxDepth := by
  cases h with
  | scalar hdepth | array hdepth | object hdepth => exact hdepth

/-! ## What a piece stands for -/

/-- The phrase of the grammar that a piece stands for. -/
def Piece.phrase : Piece → Phrase
  | value tree => .value tree.toJson
  | items found => .items (found.map Tree.toJson)
  | member name _ tree => .member name tree.toJson
  | members found => .members (Tree.entries found)

/-- What is written for a tree is spelled for its value. -/
theorem Writes.spells (h : Writes depth pos piece w) : Spells depth piece.phrase w := by
  induction h with
  | scalar hdepth hw => exact .scalar hdepth hw
  | array hdepth _ ih =>
    rw [Piece.phrase, Tree.toJson_array]
    exact .array hdepth ih
  | object hdepth _ ih =>
    rw [Piece.phrase, Tree.toJson_object]
    exact .object hdepth ih
  | noItem hg => exact .noItem hg
  | lastItem hg _ hg' ih => exact .lastItem hg ih hg'
  | consItem hg _ hg' _ ih ihrest => exact .consItem hg ih hg' ihrest
  | named hk hg hg' _ ih => exact .named hk hg hg' ih
  | noMember hg => exact .noMember hg
  | lastMember hg _ hg' ih => exact .lastMember hg ih hg'
  | consMember hg _ hg' _ ih ihrest => exact .consMember hg ih hg' ihrest

/-- A piece stands for a phrase. -/
inductive Piece.StandsFor : Piece → Phrase → Prop
  | value (tree : Tree) : StandsFor (.value tree) (.value tree.toJson)
  | items (items : List Tree) : StandsFor (.items items) (.items (items.map Tree.toJson))
  | member (name : String) (nameSpan : Span) (tree : Tree) :
      StandsFor (.member name nameSpan tree) (.member name tree.toJson)
  | members (members : List (Member Tree)) :
      StandsFor (.members members) (.members (Tree.entries members))

open Piece.StandsFor in
/-- What is spelled is written for some tree, wherever it stands. -/
theorem Spells.exists_writes {p : Phrase} (h : Spells depth p w) (pos : Nat) :
    ∃ piece : Piece, Writes depth pos piece w ∧ piece.StandsFor p := by
  induction h generalizing pos with
  | scalar hdepth hw => exact ⟨_, .scalar hdepth hw, .value _⟩
  | array hdepth _ ih =>
    obtain ⟨_, hw, hp⟩ := ih (pos + 1)
    cases hp with
    | items items => exact ⟨_, .array hdepth hw, Tree.toJson_array _ items ▸ .value _⟩
  | object hdepth _ ih =>
    obtain ⟨_, hw, hp⟩ := ih (pos + 1)
    cases hp with
    | members members => exact ⟨_, .object hdepth hw, Tree.toJson_object _ members ▸ .value _⟩
  | noItem hg => exact ⟨_, .noItem hg, .items []⟩
  | lastItem hg _ hg' ih =>
    obtain ⟨_, hw, hp⟩ := ih _
    cases hp with
    | value tree => exact ⟨_, .lastItem hg hw hg', .items [tree]⟩
  | consItem hg _ hg' _ ih ihrest =>
    obtain ⟨_, hw, hp⟩ := ih _
    obtain ⟨_, hrest, hps⟩ := ihrest _
    cases hp with
    | value tree =>
      cases hps with
      | items items => exact ⟨_, .consItem hg hw hg' hrest, .items (tree :: items)⟩
  | named hk hg hg' _ ih =>
    obtain ⟨_, hw, hp⟩ := ih _
    cases hp with
    | value tree => exact ⟨_, .named hk hg hg' hw, .member _ _ tree⟩
  | noMember hg => exact ⟨_, .noMember hg, .members []⟩
  | lastMember hg _ hg' ih =>
    obtain ⟨_, hw, hp⟩ := ih _
    cases hp with
    | member _ nameSpan tree => exact ⟨_, .lastMember hg hw hg', .members [⟨_, _, nameSpan, some tree⟩]⟩
  | consMember hg _ hg' _ ih ihrest =>
    obtain ⟨_, hw, hp⟩ := ih _
    obtain ⟨_, hrest, hps⟩ := ihrest _
    cases hp with
    | member _ nameSpan tree =>
      cases hps with
      | members members =>
        exact ⟨_, .consMember hg hw hg' hrest, .members (⟨_, _, nameSpan, some tree⟩ :: members)⟩

end PolicyAudit
