-- SUMMARY: Whatever is written for a tree by the grammar is read without a fault, and to that tree.
import PolicyAudit.Proofs.Syntax.Layout
import PolicyAudit.Proofs.Syntax.Literals
import PolicyAudit.Proofs.Syntax.Step

/-! ## Where words end -/

namespace PolicyAudit

theorem solid_of_beginsValue {c : Char} (hc : beginsValue c = true) (s : List Char) :
    Trivia.Solid (c :: s) := by
  refine Trivia.solid_cons ?_ (ne_of_beginsValue hc (by decide))
  cases hgap : isGap c with
  | false => rfl
  | true =>
    simp only [isGap, Bool.or_eq_true, beq_iff_eq] at hgap
    rcases hgap with ((rfl | rfl) | rfl) | rfl <;> exact absurd hc (by decide)

theorem EndsNumber.of_gap {g s : List Char} (hg : Gap g) (hs : EndsNumber s) :
    EndsNumber (g ++ s) := by
  cases hg with
  | nil => exact hs
  | @blank c g hc _ =>
    intro d hd
    obtain rfl : c = d := by simpa using hd
    simp only [isGap, Bool.or_eq_true, beq_iff_eq] at hc
    rcases hc with ((rfl | rfl) | rfl) | rfl <;> decide
  | lineComment | blockComment =>
    intro d hd
    obtain rfl : '/' = d := by simpa using hd
    decide

theorem EndsPart.solid {close : Char} {t s : List Char} (hclose : isGap close = false ∧ close ≠ '/')
    (h : EndsPart close t s) : Trivia.Solid t := by
  rcases h with rfl | ⟨rfl, rest, rfl⟩
  · exact Trivia.solid_cons (by decide) (by decide)
  · exact Trivia.solid_cons hclose.1 hclose.2

theorem EndsPart.endsNumber {close : Char} {t s : List Char}
    (hclose : Numeral.isNumeralChar close = false) (h : EndsPart close t s) : EndsNumber t := by
  rcases h with rfl | ⟨rfl, rest, rfl⟩
  · intro d hd
    obtain rfl : ',' = d := by simpa using hd
    decide
  · intro d hd
    obtain rfl : close = d := by simpa using hd
    exact hclose

/-! ## Scalars

Each reader takes a word that is written as it should be, reports no fault, and stops behind it. -/

namespace Cursor

variable {c : Cursor}

theorem quotation_of_decode {body text s : List Char} (hbody : Quoted.decode body = some text)
    (hc : c.rest = '"' :: (body ++ ['"']) ++ s) :
    c.quotationErrors = [] ∧ c.quotation.text = String.ofList text ∧
      (c.skip c.quotation.length).rest = s ∧
      c.spanOf c.quotation.length = ⟨c.pos, Text.byteLength ('"' :: (body ++ ['"']))⟩ := by
  have hq : c.quotation = ⟨body, true⟩ := by
    have := Quotation.scan_of_decode hbody s
    simpa [quotation, hc] using this
  have hrest : (c.skip c.quotation.length).rest = s := by
    rw [skip_rest, hc]
    apply List.drop_left'
    simp [hq, Quotation.length]
    omega
  refine ⟨?_, ?_, hrest, spanOf_eq (by rw [hrest, hc])⟩
  · simp [quotationErrors, hq, hbody]
  · simp [hq, Quotation.text, hbody]

theorem readNumber_of_ofChars? {n : Number} {w s : List Char} (hw : Number.ofChars? w = some n)
    (hs : EndsNumber s) (hc : c.rest = w ++ s) :
    c.readNumber.errors = [] ∧ c.readNumber.next.rest = s ∧
      c.readNumber.result = some (.scalar ⟨c.pos, Text.byteLength w⟩ (.number n)) := by
  have htoken : c.rest.takeWhile Numeral.isNumeralChar = w := by
    rw [hc]
    exact takeWhile_isNumeralChar (Number.ofChars?_spec hw).2 hs
  have hrest : (c.skip w.length).rest = s := by simp [hc]
  simp only [readNumber, htoken, hw, spanOf_eq (hc.trans (congrArg (w ++ ·) hrest.symm))]
  exact ⟨trivial, hrest, trivial⟩

theorem readWord_of_append {word s : List Char} {value : Scalar} (hc : c.rest = word ++ s) :
    (c.readWord word value).errors = [] ∧ (c.readWord word value).next.rest = s ∧
      (c.readWord word value).result = some (.scalar ⟨c.pos, Text.byteLength word⟩ value) := by
  have hprefix : word.isPrefixOf c.rest = true := by
    rw [hc]
    exact List.isPrefixOf_iff_prefix.2 (List.prefix_append word s)
  have hrest : (c.skip word.length).rest = s := by simp [hc]
  simp only [readWord, hprefix, if_true, spanOf_eq (hc.trans (congrArg (word ++ ·) hrest.symm))]
  exact ⟨trivial, hrest, trivial⟩

/-! ## Parts of containers

The readers of members and elements are complete as far as the reader of values is that they are
given. -/

/-- Whether a reader takes whatever is written for a tree inside `depth` containers, without a fault and
to that tree. -/
def CompleteAt (depth : Nat) (value : ValueReader) : Prop :=
  ∀ {c : Cursor} {tree : Tree} {w s : List Char}, Writes depth c.pos (.value tree) w → EndsNumber s →
    c.rest = w ++ s → (value c).errors = [] ∧ (value c).next.rest = s ∧ (value c).result = some tree

theorem readItemEnd_of_gap {g t s : List Char} (hg : Gap g) (ht : EndsPart ']' t s)
    (hc : c.rest = g ++ t) : c.readItemEnd.errors = [] ∧ c.readItemEnd.next.rest = s := by
  obtain ⟨herrors, hnext⟩ := readTrivia_of_gap hg (ht.solid (by decide)) hc
  rcases ht with rfl | ⟨rfl, rest, rfl⟩
  · simp [readItemEnd, herrors, peek?, hnext]
  · simp [readItemEnd, herrors, peek?, hnext]

theorem readMemberEnd_of_gap {g t s : List Char} (hg : Gap g) (ht : EndsPart '}' t s)
    (hc : c.rest = g ++ t) : c.readMemberEnd.errors = [] ∧ c.readMemberEnd.next.rest = s := by
  obtain ⟨herrors, hnext⟩ := readTrivia_of_gap hg (ht.solid (by decide)) hc
  rcases ht with rfl | ⟨rfl, rest, rfl⟩
  · simp [readMemberEnd, herrors, peek?, hnext]
  · simp [readMemberEnd, herrors, peek?, hnext]

variable {tree : Tree}

theorem readItem_of_writes {depth : Nat} {value : ValueReader} (hvalue : CompleteAt depth value)
    {w g t s : List Char} (hw : Writes depth c.pos (.value tree) w) (hg : Gap g)
    (ht : EndsPart ']' t s) (hc : c.rest = w ++ (g ++ t)) :
    (readItem value c).errors = [] ∧ (readItem value c).next.rest = s ∧
      (readItem value c).result = some tree := by
  obtain ⟨herrors, hnext, hresult⟩ := hvalue hw (.of_gap hg (ht.endsNumber (by decide))) hc
  have hlt : (value c).next.rest.length < c.rest.length := by
    obtain ⟨_, _, rfl, -⟩ := hw.spells.exists_head
    rw [hnext, hc]
    simp only [List.cons_append, List.length_cons, List.length_append]
    omega
  obtain ⟨hend, hrest⟩ := readItemEnd_of_gap hg ht hnext
  obtain ⟨hitem, herrors', hnext'⟩ := readItem_of_some hresult hlt
  simp [hitem, herrors', herrors, hend, hnext', hrest]

theorem readMemberValue_of_writes {depth : Nat} {value : ValueReader}
    (hvalue : CompleteAt depth value) (name : String) {g g' w s : List Char}
    (hg : Gap g) (hg' : Gap g')
    (hw : Writes depth (c.pos + Text.byteLength (g ++ ':' :: g')) (.value tree) w) (hs : EndsNumber s)
    (hc : c.rest = g ++ ':' :: (g' ++ (w ++ s))) :
    (readMemberValue value name c).errors = [] ∧ (readMemberValue value name c).next.rest = s ∧
      (readMemberValue value name c).result = some tree := by
  obtain ⟨herrors, hnext⟩ :=
    readTrivia_of_gap hg (Trivia.solid_cons (by decide) (by decide)) hc
  have hcolon : (c.readTrivia.next.skip 1).rest = g' ++ (w ++ s) := by simp [hnext]
  have hsolid : Trivia.Solid (w ++ s) := by
    obtain ⟨ch, rest, rfl, hch⟩ := hw.spells.exists_head
    exact solid_of_beginsValue hch _
  obtain ⟨herrors', hnext'⟩ := readTrivia_of_gap hg' hsolid hcolon
  have hpos : (c.readTrivia.next.skip 1).readTrivia.next.pos =
      c.pos + Text.byteLength (g ++ ':' :: g') :=
    (c.readTrivia.reaches.trans ((reaches_skip _ 1).trans (Reading.reaches _))).pos_eq
      (by rw [hnext', hc]; simp)
  obtain ⟨herrors'', hnext'', hresult⟩ := hvalue (hw.at_pos hpos.symm) hs hnext'
  simp [readMemberValue, peek?, hnext, herrors, herrors', herrors'', hnext'', hresult]

/-- A member is read up to its end, and then what separates it from the next one. -/
theorem exists_end_of_writes {depth : Nat} {value : ValueReader} (hvalue : CompleteAt depth value)
    {name : String} {nameSpan : Span} {w s : List Char}
    (hw : Writes depth c.pos (.member name nameSpan tree) w) (hs : EndsNumber s) (hc : c.rest = w ++ s) :
    ∃ d : Cursor, d.pos = c.pos + Text.byteLength w ∧ d.rest = s ∧
      (readMember value c).errors = d.readMemberEnd.errors ∧
      (readMember value c).next = d.readMemberEnd.next ∧
      (readMember value c).result = ⟨⟨c.pos, Text.byteLength w⟩, name, nameSpan, some tree⟩ := by
  cases hw with
  | @named _ _ _ _ k g' g'' w hk hg' hg'' hw =>
    cases hk with
    | @string body text hbody =>
      obtain ⟨hquote, htext, hname, hspan⟩ := quotation_of_decode hbody
        (hc.trans (List.append_assoc _ _ _))
      have hpos : (c.skip c.quotation.length).pos = c.pos + Text.byteLength ('"' :: (body ++ ['"'])) :=
        (c.reaches_skip _).pos_eq (by rw [hname, hc]; simp)
      obtain ⟨herrors, hnext, hresult⟩ := readMemberValue_of_writes hvalue
        (String.ofList text) hg' hg'' (c := c.skip c.quotation.length)
        (hw.at_pos (by rw [hpos, Text.byteLength_append ('"' :: (body ++ ['"'])), Nat.add_assoc]))
        hs (by rw [hname]; simp)
      refine ⟨_, ?_, hnext, ?_, ?_, ?_⟩
      · exact ((c.reaches_skip _).trans (Reading.reaches _)).pos_eq (by rw [hnext, hc])
      · simp [readMember, readName, hquote, htext, herrors, hresult, skipUnread]
      · simp [readMember, readName, htext, hresult, skipUnread]
      · have hstop : memberOf (String.ofList text) (c.spanOf c.quotation.length) (some tree) =
            ⟨⟨c.pos, Text.byteLength ('"' :: (body ++ ['"']) ++ (g' ++ ':' :: (g'' ++ w)))⟩,
              String.ofList text, ⟨c.pos, Text.byteLength ('"' :: (body ++ ['"']))⟩, some tree⟩ := by
          rw [memberOf, hspan, hw.span_eq]
          simp only [Span.between, Span.stop, Text.byteLength_append, Text.byteLength_cons]
          congr 2
          omega
        simpa [readMember, readName, htext, hresult, skipUnread] using hstop

theorem readMember_of_writes {depth : Nat} {value : ValueReader} (hvalue : CompleteAt depth value)
    {name : String} {nameSpan : Span} {w g t s : List Char}
    (hw : Writes depth c.pos (.member name nameSpan tree) w)
    (hg : Gap g) (ht : EndsPart '}' t s) (hc : c.rest = w ++ (g ++ t)) :
    (readMember value c).errors = [] ∧ (readMember value c).next.rest = s ∧
      (readMember value c).result = ⟨⟨c.pos, Text.byteLength w⟩, name, nameSpan, some tree⟩ := by
  obtain ⟨d, -, hd, herrors, hnext, hresult⟩ :=
    exists_end_of_writes hvalue hw (.of_gap hg (ht.endsNumber (by decide))) hc
  obtain ⟨hend, hrest⟩ := readMemberEnd_of_gap hg ht hd
  exact ⟨by rw [herrors, hend], by rw [hnext, hrest], hresult⟩

/-! ## Containers -/

variable {value : ValueReader} {opened depth pos : Nat}

/-- Whether the elements at the start of `s`, which is at byte `pos`, are read without a fault, with `s'`
left over. -/
def TakesItems (value : ValueReader) (opened pos : Nat) (s s' : List Char) (items : List Tree) : Prop :=
  ∀ c : Cursor, c.pos = pos → c.rest = s → (readItems value opened c).errors = [] ∧
    (readItems value opened c).next.rest = s' ∧ (readItems value opened c).result = items

theorem takesItems_nil {g : List Char} (hg : Gap g) (s : List Char) :
    TakesItems value opened pos (g ++ ']' :: s) s [] := by
  intro c _ hc
  obtain ⟨herrors, hnext⟩ := readTrivia_of_gap hg (Trivia.solid_cons (by decide) (by decide)) hc
  obtain ⟨hresult, herrors', hnext'⟩ := readItems_close value opened hnext
  simp [hresult, herrors', herrors, hnext']

theorem takesItems_cons (hvalue : CompleteAt depth value) {items : List Tree}
    {g w g' m s s' : List Char} (hg : Gap g)
    (hw : Writes depth (pos + Text.byteLength g) (.value tree) w) (hg' : Gap g')
    (ht : EndsPart ']' (m ++ s) s)
    (hrest : TakesItems value opened (pos + Text.byteLength (g ++ (w ++ (g' ++ m)))) s s' items) :
    TakesItems value opened pos (g ++ (w ++ (g' ++ (m ++ s)))) s' (tree :: items) := by
  intro c hpos hc
  subst hpos
  obtain ⟨ch, w', rfl, hch⟩ := hw.spells.exists_head
  obtain ⟨herrors, hnext⟩ := readTrivia_of_gap hg (solid_of_beginsValue hch _) hc
  have hstart : c.readTrivia.next.pos = c.pos + Text.byteLength g :=
    c.readTrivia.reaches.pos_eq (by rw [hnext, hc]; rfl)
  obtain ⟨hresult, herrors', hnext'⟩ := readItems_cons value opened hnext
    (ne_of_beginsValue hch (by decide))
  obtain ⟨hitem, hafter, htree⟩ := readItem_of_writes hvalue (hw.at_pos hstart.symm) hg' ht hnext
  obtain ⟨hmore, hend, hitems⟩ := hrest _
    ((c.readTrivia.reaches.trans (Reading.reaches _)).pos_eq (by rw [hafter, hc]; simp)) hafter
  simp [hresult, herrors', herrors, hitem, hnext', hmore, hend, htree, hitems]

theorem takesItems_of_writes (hvalue : CompleteAt depth value) (opened : Nat) {items : List Tree}
    {w : List Char} (hw : Writes depth pos (.items items) w) (s : List Char) :
    TakesItems value opened pos (w ++ ']' :: s) s items := by
  generalize hp : Piece.items items = p at hw
  induction hw generalizing items with
  | noItem hg =>
    obtain rfl := Piece.items.inj hp
    exact takesItems_nil hg s
  | lastItem hg hw hg' =>
    obtain rfl := Piece.items.inj hp
    have hrest (pos : Nat) : TakesItems value opened pos (']' :: s) s [] := takesItems_nil .nil s
    simpa using takesItems_cons (m := []) hvalue hg hw hg' (.inr ⟨rfl, s, rfl⟩) (hrest _)
  | consItem hg hw hg' _ _ ih =>
    obtain rfl := Piece.items.inj hp
    simpa using takesItems_cons (m := [',']) hvalue hg hw hg' (.inl rfl) (ih hvalue rfl)
  | _ => cases hp

/-- Whether the members at the start of `s`, which is at byte `pos`, are read without a fault, with `s'`
left over. -/
def TakesMembers (value : ValueReader) (opened pos : Nat) (s s' : List Char)
    (members : List (Member Tree)) : Prop :=
  ∀ c : Cursor, c.pos = pos → c.rest = s → (readMembers value opened c).errors = [] ∧
    (readMembers value opened c).next.rest = s' ∧ (readMembers value opened c).result = members

theorem takesMembers_nil {g : List Char} (hg : Gap g) (s : List Char) :
    TakesMembers value opened pos (g ++ '}' :: s) s [] := by
  intro c _ hc
  obtain ⟨herrors, hnext⟩ := readTrivia_of_gap hg (Trivia.solid_cons (by decide) (by decide)) hc
  obtain ⟨hresult, herrors', hnext'⟩ := readMembers_close value opened hnext
  simp [hresult, herrors', herrors, hnext']

theorem takesMembers_cons (hvalue : CompleteAt depth value) {name : String} {nameSpan : Span}
    {members : List (Member Tree)} {g w g' m s s' : List Char} (hg : Gap g)
    (hw : Writes depth (pos + Text.byteLength g) (.member name nameSpan tree) w) (hg' : Gap g')
    (ht : EndsPart '}' (m ++ s) s)
    (hrest : TakesMembers value opened (pos + Text.byteLength (g ++ (w ++ (g' ++ m)))) s s' members) :
    TakesMembers value opened pos (g ++ (w ++ (g' ++ (m ++ s)))) s'
      (⟨⟨pos + Text.byteLength g, Text.byteLength w⟩, name, nameSpan, some tree⟩ :: members) := by
  intro c hpos hc
  subst hpos
  obtain ⟨w', hhead⟩ : ∃ w', w = '"' :: w' := by
    cases hw with
    | named hk => cases hk with | string => exact ⟨_, rfl⟩
  obtain ⟨herrors, hnext⟩ := readTrivia_of_gap hg
    (by rw [hhead]; exact Trivia.solid_cons (by decide) (by decide)) hc
  have hstart : c.readTrivia.next.pos = c.pos + Text.byteLength g :=
    c.readTrivia.reaches.pos_eq (by rw [hnext, hc])
  obtain ⟨hresult, herrors', hnext'⟩ := readMembers_quote value opened
    (hnext.trans (by rw [hhead]; rfl))
  obtain ⟨hmember, hafter, hread⟩ := readMember_of_writes hvalue (hw.at_pos hstart.symm) hg' ht hnext
  obtain ⟨hmore, hend, hmembers⟩ := hrest _
    ((c.readTrivia.reaches.trans (Reading.reaches _)).pos_eq (by rw [hafter, hc]; simp)) hafter
  refine ⟨by simp [herrors', herrors, hmember, hmore], by rw [hnext', hend], ?_⟩
  rw [hresult, hread, hmembers, hstart]

theorem takesMembers_of_writes (hvalue : CompleteAt depth value) (opened : Nat)
    {members : List (Member Tree)} {w : List Char} (hw : Writes depth pos (.members members) w)
    (s : List Char) : TakesMembers value opened pos (w ++ '}' :: s) s members := by
  generalize hp : Piece.members members = p at hw
  induction hw generalizing members with
  | noMember hg =>
    obtain rfl := Piece.members.inj hp
    exact takesMembers_nil hg s
  | lastMember hg hw hg' =>
    obtain rfl := Piece.members.inj hp
    have hrest (pos : Nat) : TakesMembers value opened pos ('}' :: s) s [] := takesMembers_nil .nil s
    simpa using takesMembers_cons (m := []) hvalue hg hw hg' (.inr ⟨rfl, s, rfl⟩) (hrest _)
  | consMember hg hw hg' _ _ ih =>
    obtain rfl := Piece.members.inj hp
    simpa using takesMembers_cons (m := [',']) hvalue hg hw hg' (.inl rfl) (ih hvalue rfl)
  | _ => cases hp

/-! ## Values -/

theorem readValue_number {room : Nat} {ch : Char} {s : List Char} (hc : c.rest = ch :: s)
    (hch : ch = '-' ∨ ch.isDigit = true) : readValue (room + 1) c = c.readNumber := by
  have hne : ∀ {d : Char}, d.isDigit = false → d ≠ '-' → ch ≠ d := by
    rintro d hdigit hminus rfl
    rcases hch with h | h
    · exact hminus h
    · simp [hdigit] at h
  simp only [readValue, hc]
  rw [if_neg (hne (by decide) (by decide)), if_neg (hne (by decide) (by decide)),
    if_neg (hne (by decide) (by decide)), if_pos hch]

theorem readValue_of_literal (room : Nat) {value : Scalar} {w s : List Char}
    (hw : Literal value w) (hs : EndsNumber s) (hc : c.rest = w ++ s) :
    (readValue (room + 1) c).errors = [] ∧ (readValue (room + 1) c).next.rest = s ∧
      (readValue (room + 1) c).result = some (.scalar ⟨c.pos, Text.byteLength w⟩ value) := by
  cases hw with
  | null =>
    have hword : readValue (room + 1) c = c.readWord "null".toList .null := by
      simp [readValue, hc]
    rw [hword]
    exact readWord_of_append hc
  | true =>
    have hword : readValue (room + 1) c = c.readWord "true".toList (.bool true) := by
      simp [readValue, hc]
    rw [hword]
    exact readWord_of_append hc
  | false =>
    have hword : readValue (room + 1) c = c.readWord "false".toList (.bool false) := by
      simp [readValue, hc]
    rw [hword]
    exact readWord_of_append hc
  | number hn =>
    obtain ⟨⟨ch, rest, rfl, hch⟩, -⟩ := Number.ofChars?_spec hn
    rw [readValue_number hc hch]
    exact readNumber_of_ofChars? hn hs hc
  | string hbody =>
    have hstring : readValue (room + 1) c = c.readString := by
      simp [readValue, hc]
    obtain ⟨herrors, htext, hnext, hspan⟩ := quotation_of_decode hbody hc
    rw [hstring]
    exact ⟨herrors, hnext, by simp only [readString, htext, hspan]⟩

/-- A reader with room for the containers that may still open takes every tree. -/
theorem completeAt_readValue (room depth : Nat) (h : room + depth = Document.maxDepth + 1) :
    CompleteAt depth (readValue room) := by
  induction room generalizing depth with
  | zero =>
    intro c tree w s hw
    have := hw.depth_le
    omega
  | succ room ih =>
    intro c tree w s hw hs hc
    have hinner : CompleteAt (depth + 1) (readValue room) := ih (depth + 1) (by omega)
    cases hw with
    | scalar _ hw => exact readValue_of_literal room hw hs hc
    | array _ hw =>
      have hread : readValue (room + 1) c =
          readContainer .array (readItems (readValue room) c.pos (c.skip 1)) := by
        simp only [readValue, hc]
        rfl
      obtain ⟨herrors, hnext, hitems⟩ := takesItems_of_writes hinner c.pos hw s (c.skip 1)
        (pos_skip_one hc (by decide)) (by simp [hc])
      rw [hread, result_readContainer .array (by rw [hnext, hc]), hitems]
      exact ⟨herrors, hnext, rfl⟩
    | object _ hw =>
      have hread : readValue (room + 1) c =
          readContainer .object (readMembers (readValue room) c.pos (c.skip 1)) := by
        simp only [readValue, hc]
        rfl
      obtain ⟨herrors, hnext, hmembers⟩ := takesMembers_of_writes hinner c.pos hw s (c.skip 1)
        (pos_skip_one hc (by decide)) (by simp [hc])
      rw [hread, result_readContainer .object (by rw [hnext, hc]), hmembers]
      exact ⟨herrors, hnext, rfl⟩

end Cursor

end PolicyAudit
