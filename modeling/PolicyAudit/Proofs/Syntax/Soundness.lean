-- SUMMARY: Whatever is read without a fault is written, by the grammar, for the tree that is read.
import PolicyAudit.Proofs.Syntax.Layout
import PolicyAudit.Proofs.Syntax.Literals
import PolicyAudit.Proofs.Syntax.Step

/-! ## Scalars -/

namespace PolicyAudit

namespace Cursor

variable {c : Cursor}

/-- A string without a fault is a literal, and its text is what the literal stands for. -/
theorem literal_of_quotation {s : List Char} (hc : c.rest = '"' :: s)
    (h : c.quotationErrors = []) :
    ∃ w, c.rest = w ++ (c.skip c.quotation.length).rest ∧ Literal (.string c.quotation.text) w := by
  have hq : c.quotation = Quotation.scan s := by simp [quotation, hc]
  by_cases hclosed : c.quotation.closed = true
  · cases hbody : Quoted.decode c.quotation.body with
    | none => simp [quotationErrors, hclosed, hbody] at h
    | some text =>
      obtain ⟨rest, hs⟩ := Quotation.exists_of_closed (s := s) (by rw [← hq]; exact hclosed)
      rw [← hq] at hs
      have hsplit : c.rest = '"' :: (c.quotation.body ++ ['"']) ++ rest := by
        rw [hc, hs]
        simp
      have hrest : (c.skip c.quotation.length).rest = rest := by
        rw [skip_rest, hsplit]
        apply List.drop_left'
        simp [Quotation.length, hclosed]
        omega
      refine ⟨_, by rw [hrest]; exact hsplit, ?_⟩
      have htext : c.quotation.text = String.ofList text := by
        simp [Quotation.text, hclosed, hbody]
      rw [htext]
      exact .string hbody
  · simp [quotationErrors, hclosed] at h

theorem literal_of_readNumber (h : c.readNumber.errors = []) :
    ∃ n w, c.readNumber.result = some (.scalar ⟨c.pos, Text.byteLength w⟩ (.number n)) ∧
      c.rest = w ++ c.readNumber.next.rest ∧ Literal (.number n) w := by
  cases hn : Number.ofChars? (c.rest.takeWhile Numeral.isNumeralChar) with
  | none => simp [readNumber, hn] at h
  | some n =>
    have hw : c.rest = c.rest.takeWhile Numeral.isNumeralChar ++
        (c.skip (c.rest.takeWhile Numeral.isNumeralChar).length).rest :=
      (List.prefix_iff_eq_append.1 (List.takeWhile_prefix _)).symm
    refine ⟨n, c.rest.takeWhile Numeral.isNumeralChar, ?_, ?_, .number hn⟩
    · simp only [readNumber, hn, ← spanOf_eq hw]
    · simp only [readNumber, hn]
      exact hw

theorem append_of_readWord {word : List Char} {value : Scalar}
    (h : (c.readWord word value).errors = []) :
    (c.readWord word value).result = some (.scalar ⟨c.pos, Text.byteLength word⟩ value) ∧
      c.rest = word ++ (c.readWord word value).next.rest := by
  by_cases hword : word.isPrefixOf c.rest = true
  · obtain ⟨rest, hrest⟩ := List.isPrefixOf_iff_prefix.1 hword
    have hw : c.rest = word ++ (c.skip word.length).rest := by simp [← hrest]
    simp only [readWord, hword, if_true, ← spanOf_eq hw]
    exact ⟨trivial, hw⟩
  · simp [readWord, hword, fault] at h

/-! ## Parts of containers

Where a reader of values finds no value and no fault, the text has ended, and then the container that it
reads for is not closed. -/

/-- Whether whatever a reader takes without a fault is written for the tree it takes it for. -/
structure SoundAt (depth : Nat) (value : ValueReader) : Prop where
  writes : ∀ {c : Cursor} {tree : Tree}, (value c).errors = [] → (value c).result = some tree →
    ∃ w, c.rest = w ++ (value c).next.rest ∧ Writes depth c.pos (.value tree) w
  ended : ∀ {c : Cursor}, (value c).errors = [] → (value c).result = none →
    (value c).next.rest = []

/-- A gap that something stands behind. -/
theorem gap_of_readTrivia {s : List Char} {ch : Char} (h : c.readTrivia.errors = [])
    (hs : c.readTrivia.next.rest = ch :: s) :
    ∃ g, c.rest = g ++ ch :: s ∧ Gap g ∧ c.readTrivia.next.pos = c.pos + Text.byteLength g := by
  obtain ⟨g, hc, hg⟩ := exists_gap_of_readTrivia h
  have hpos := c.readTrivia.reaches.pos_eq hc
  rw [hs] at hc hg
  exact ⟨g, hc, hg.resolve_right (by simp), hpos⟩

/-- What ends a part of a container stands behind a gap, unless the text ends there. -/
theorem endsPart_of_gap {close : Char} {readEnd : (d : Cursor) → Reading d Unit}
    (hend : ∀ {d : Cursor} {ch : Char} {s : List Char}, d.rest = ch :: s → (readEnd d).errors = [] →
      EndsPart close (ch :: s) (readEnd d).next.rest)
    (h : (c.readTrivia.andThen fun _ d => readEnd d).errors = []) :
    (c.readTrivia.andThen fun _ d => readEnd d).next.rest = [] ∨
      ∃ g t, c.rest = g ++ t ∧ Gap g ∧
        EndsPart close t (c.readTrivia.andThen fun _ d => readEnd d).next.rest := by
  obtain ⟨hgap, herrors⟩ := List.append_eq_nil_iff.1 h
  cases hs : c.readTrivia.next.rest with
  | nil => exact .inl (andThen_rest_eq_nil _ hs)
  | cons ch s =>
    obtain ⟨g, hc, hg, -⟩ := gap_of_readTrivia hgap hs
    exact .inr ⟨g, ch :: s, hc, hg, hend hs herrors⟩

theorem endsPart_of_readItemEnd (h : c.readItemEnd.errors = []) :
    c.readItemEnd.next.rest = [] ∨
      ∃ g t, c.rest = g ++ t ∧ Gap g ∧ EndsPart ']' t c.readItemEnd.next.rest := by
  refine endsPart_of_gap ?_ h
  intro d ch s hs herrors
  simp only [peek?, hs, List.head?_cons] at herrors ⊢
  by_cases hcomma : ch = ','
  · exact .inl (by simp [hs, hcomma])
  · by_cases hclose : ch = ']'
    · exact .inr ⟨by simp [hs, hclose], s, by simp [hs, hclose]⟩
    · simp [hcomma, hclose, fault] at herrors

theorem endsPart_of_readMemberEnd (h : c.readMemberEnd.errors = []) :
    c.readMemberEnd.next.rest = [] ∨
      ∃ g t, c.rest = g ++ t ∧ Gap g ∧ EndsPart '}' t c.readMemberEnd.next.rest := by
  refine endsPart_of_gap ?_ h
  intro d ch s hs herrors
  simp only [peek?, hs, List.head?_cons] at herrors ⊢
  by_cases hcomma : ch = ','
  · exact .inl (by simp [hs, hcomma])
  · by_cases hclose : ch = '}'
    · exact .inr ⟨by simp [hs, hclose], s, by simp [hs, hclose]⟩
    · by_cases hquote : ch = '"' <;> simp [hcomma, hclose, hquote, fault] at herrors

variable {value : ValueReader} {depth : Nat}

/-- One element and its end. Where the text does not end, the element has a value. -/
theorem writes_of_readItem (hvalue : SoundAt depth value) (h : (readItem value c).errors = []) :
    (readItem value c).next.rest = [] ∨
      ∃ tree w g t, (readItem value c).result = some tree ∧ c.rest = w ++ (g ++ t) ∧
        Writes depth c.pos (.value tree) w ∧ Gap g ∧
        EndsPart ']' t (readItem value c).next.rest := by
  have hfound : (value c).errors = [] := by
    simp only [readItem, Reading.andThen_errors, List.append_eq_nil_iff] at h
    exact h.1
  cases hresult : (value c).result with
  | none => exact .inl (readItem_of_ended (hvalue.ended hfound hresult))
  | some tree =>
    obtain ⟨w, hc, hw⟩ := hvalue.writes hfound hresult
    have hlt : (value c).next.rest.length < c.rest.length := by
      obtain ⟨_, _, rfl, -⟩ := hw.spells.exists_head
      rw [hc]
      simp only [List.cons_append, List.length_cons, List.length_append]
      omega
    obtain ⟨hitem, herrors, hnext⟩ := readItem_of_some hresult hlt
    rw [hnext, hitem]
    rw [herrors, hfound] at h
    rcases endsPart_of_readItemEnd h with hended | ⟨g, t, hafter, hg, ht⟩
    · exact .inl hended
    · exact .inr ⟨tree, w, g, t, rfl, by rw [hc, hafter], hw, hg, ht⟩

theorem writes_of_readMemberValue (hvalue : SoundAt depth value) (name : String)
    (h : (readMemberValue value name c).errors = []) :
    match (readMemberValue value name c).result with
    | none => (readMemberValue value name c).next.rest = []
    | some tree => ∃ g g' w,
        c.rest = g ++ ':' :: (g' ++ (w ++ (readMemberValue value name c).next.rest)) ∧
        Gap g ∧ Gap g' ∧
        Writes depth (c.pos + Text.byteLength (g ++ ':' :: g')) (.value tree) w := by
  by_cases hcolon : c.readTrivia.next.peek? = some ':'
  · obtain ⟨s, hs⟩ : ∃ s, c.readTrivia.next.rest = ':' :: s := List.head?_eq_some_iff.1 hcolon
    have hread : ∃ r : Reading ((c.readTrivia.next.skip 1).readTrivia.next) (Option Tree),
        r = value _ ∧ (readMemberValue value name c).result = r.result ∧
        (readMemberValue value name c).next = r.next ∧
        (readMemberValue value name c).errors =
          c.readTrivia.errors ++ ((c.readTrivia.next.skip 1).readTrivia.errors ++ r.errors) := by
      refine ⟨value _, rfl, ?_⟩
      simp [readMemberValue, hcolon]
    obtain ⟨_, rfl, hresult, hnext, herrors⟩ := hread
    rw [herrors, List.append_eq_nil_iff, List.append_eq_nil_iff] at h
    obtain ⟨hgap, hgap', hfound⟩ := h
    rw [hresult, hnext]
    split
    · rename_i hnone
      exact hvalue.ended hfound hnone
    · rename_i tree hsome
      obtain ⟨w, hc, hw⟩ := hvalue.writes hfound hsome
      obtain ⟨ch, w', hhead, -⟩ := hw.spells.exists_head
      obtain ⟨g, hgc, hg, -⟩ := gap_of_readTrivia hgap hs
      obtain ⟨g', hgc', hg', -⟩ := gap_of_readTrivia hgap' (by rw [hc, hhead]; rfl)
      simp only [skip_rest, hs, List.drop_succ_cons, List.drop_zero] at hgc'
      have hbefore : c.rest = (g ++ ':' :: g') ++ (c.readTrivia.next.skip 1).readTrivia.next.rest := by
        rw [hgc, hgc', hc, hhead]
        simp
      refine ⟨g, g', w, ?_, hg, hg', hw.at_pos (Reaches.pos_eq ?_ hbefore)⟩
      · rw [hbefore, hc]
        simp
      · exact c.readTrivia.reaches.trans ((reaches_skip _ 1).trans (Reading.reaches _))
  · simp [readMemberValue, hcolon, fault] at h

/-- One member and its end. Where the text does not end, the member has a value. -/
theorem writes_of_readMember (hvalue : SoundAt depth value) {s : List Char}
    (hc : c.rest = '"' :: s) (h : (readMember value c).errors = []) :
    (readMember value c).next.rest = [] ∨
      ∃ name nameSpan tree w g t,
        (readMember value c).result = ⟨⟨c.pos, Text.byteLength w⟩, name, nameSpan, some tree⟩ ∧
        c.rest = w ++ (g ++ t) ∧ Writes depth c.pos (.member name nameSpan tree) w ∧ Gap g ∧
        EndsPart '}' t (readMember value c).next.rest := by
  have hsplit : c.quotationErrors = [] ∧
      (readMemberValue value c.quotation.text (c.skip c.quotation.length)).errors = [] := by
    simp only [readMember, readName, Reading.andThen_errors, List.append_eq_nil_iff] at h
    exact ⟨h.1, h.2.1⟩
  obtain ⟨k, hkc, hk⟩ := literal_of_quotation hc hsplit.1
  have hvalueWord := writes_of_readMemberValue hvalue c.quotation.text hsplit.2
  cases hresult :
      (readMemberValue value c.quotation.text (c.skip c.quotation.length)).result with
  | none =>
    rw [hresult] at hvalueWord
    exact .inl (readMember_of_ended hvalueWord)
  | some tree =>
    rw [hresult] at hvalueWord
    obtain ⟨g, g', w, hwc, hg, hg', hw⟩ := hvalueWord
    obtain ⟨hmember, herrors, hnext⟩ := readMember_of_some hresult
    rw [herrors, List.append_eq_nil_iff, List.append_eq_nil_iff] at h
    rw [hnext, hmember]
    rcases endsPart_of_readMemberEnd h.2.2 with hended | ⟨g'', t, hafter, hg'', ht⟩
    · exact .inl hended
    · have hpos : (c.skip c.quotation.length).pos + Text.byteLength (g ++ ':' :: g') =
          c.pos + Text.byteLength (k ++ (g ++ ':' :: g')) := by
        rw [(c.reaches_skip _).pos_eq hkc, Text.byteLength_append k, Nat.add_assoc]
      have hw' := hw.at_pos hpos
      refine .inr ⟨c.quotation.text, _, tree, _, g'', t, ?_, ?_, .named hk hg hg' hw', hg'', ht⟩
      · rw [memberOf, spanOf_eq hkc, hw'.span_eq]
        simp only [Span.between, Span.stop, Text.byteLength_append, Text.byteLength_cons]
        congr 2
        omega
      · rw [hkc, hwc, hafter]
        simp

/-! ## Containers -/

theorem writes_of_readItems (hvalue : SoundAt depth value) (opened : Nat)
    (h : (readItems value opened c).errors = []) :
    ∃ w, c.rest = w ++ ']' :: (readItems value opened c).next.rest ∧
      Writes depth c.pos (.items (readItems value opened c).result) w := by
  induction hn : c.rest.length using Nat.strongRecOn generalizing c with
  | _ n ih =>
    cases hs : c.readTrivia.next.rest with
    | nil => exact absurd h (readItems_end hs)
    | cons ch s =>
      by_cases hclose : ch = ']'
      · subst hclose
        obtain ⟨hresult, herrors, hnext⟩ := readItems_close value opened hs
        obtain ⟨g, hc, hg, -⟩ := gap_of_readTrivia (herrors ▸ h) hs
        exact ⟨g, by rw [hnext, hc], by rw [hresult]; exact .noItem hg⟩
      · obtain ⟨hresult, herrors, hnext⟩ :=
          readItems_cons value opened hs hclose
        rw [herrors, List.append_eq_nil_iff, List.append_eq_nil_iff] at h
        obtain ⟨⟨hgap, hitem⟩, hrest⟩ := h
        obtain ⟨g, hc, hg, hpos⟩ := gap_of_readTrivia hgap hs
        rw [← hs] at hc
        rcases writes_of_readItem hvalue hitem with
          hended | ⟨tree, w, g', t, htree, hwc, hw, hg', hcomma | ⟨rfl, r, hr⟩⟩
        · exact absurd hrest (readItems_end (Reaches.rest_eq_nil (Reading.reaches _) hended))
        · obtain ⟨w', hwc', hw'⟩ := ih _ (by rw [← hn, hc, hwc, hcomma]; simp; omega) hrest rfl
          have hafter : (readItem value c.readTrivia.next).next.pos =
              c.pos + Text.byteLength (g ++ (w ++ (g' ++ [',']))) :=
            (c.readTrivia.reaches.trans (Reading.reaches _)).pos_eq (by rw [hc, hwc, hcomma]; simp)
          refine ⟨_, ?_, by
            rw [hresult, htree]
            exact .consItem hg (hw.at_pos hpos) hg' (hw'.at_pos hafter)⟩
          rw [hc, hwc, hcomma, hwc', hnext]
          simp
        · obtain ⟨hresult', -, hnext'⟩ := readItems_close value opened
            (readTrivia_of_gap .nil (Trivia.solid_cons (by decide) (by decide)) hr).2
          refine ⟨_, ?_, by
            rw [hresult, htree, hresult']
            exact .lastItem hg (hw.at_pos hpos) hg'⟩
          rw [hc, hwc, hr, hnext, hnext']
          simp

theorem writes_of_readMembers (hvalue : SoundAt depth value) (opened : Nat)
    (h : (readMembers value opened c).errors = []) :
    ∃ w, c.rest = w ++ '}' :: (readMembers value opened c).next.rest ∧
      Writes depth c.pos (.members (readMembers value opened c).result) w := by
  induction hn : c.rest.length using Nat.strongRecOn generalizing c with
  | _ n ih =>
    cases hs : c.readTrivia.next.rest with
    | nil => exact absurd h (readMembers_end hs)
    | cons ch s =>
      by_cases hclose : ch = '}'
      · subst hclose
        obtain ⟨hresult, herrors, hnext⟩ :=
          readMembers_close value opened hs
        obtain ⟨g, hc, hg, -⟩ := gap_of_readTrivia (herrors ▸ h) hs
        exact ⟨g, by rw [hnext, hc], by rw [hresult]; exact .noMember hg⟩
      · by_cases hquote : ch = '"'
        · subst hquote
          obtain ⟨hresult, herrors, hnext⟩ :=
            readMembers_quote value opened hs
          rw [herrors, List.append_eq_nil_iff, List.append_eq_nil_iff] at h
          obtain ⟨⟨hgap, hmember⟩, hrest⟩ := h
          obtain ⟨g, hc, hg, hpos⟩ := gap_of_readTrivia hgap hs
          rw [← hs] at hc
          rcases writes_of_readMember hvalue hs hmember with
            hended | ⟨name, nameSpan, tree, w, g', t, hread, hwc, hw, hg', hcomma | ⟨rfl, r, hr⟩⟩
          · exact absurd hrest (readMembers_end (Reaches.rest_eq_nil (Reading.reaches _) hended))
          · obtain ⟨w', hwc', hw'⟩ := ih _ (by rw [← hn, hc, hwc, hcomma]; simp; omega) hrest rfl
            have hafter : (readMember value c.readTrivia.next).next.pos =
                c.pos + Text.byteLength (g ++ (w ++ (g' ++ [',']))) :=
              (c.readTrivia.reaches.trans (Reading.reaches _)).pos_eq (by rw [hc, hwc, hcomma]; simp)
            refine ⟨g ++ (w ++ (g' ++ ',' :: w')), ?_, ?_⟩
            · rw [hc, hwc, hcomma, hwc', hnext]
              simp
            · rw [hresult, hread, hpos]
              exact .consMember hg (hw.at_pos hpos) hg' (hw'.at_pos hafter)
          · obtain ⟨hresult', -, hnext'⟩ := readMembers_close value opened
              (readTrivia_of_gap .nil (Trivia.solid_cons (by decide) (by decide)) hr).2
            refine ⟨g ++ (w ++ g'), ?_, ?_⟩
            · rw [hc, hwc, hr, hnext, hnext']
              simp
            · rw [hresult, hread, hpos, hresult']
              exact .lastMember hg (hw.at_pos hpos) hg'
        · exact absurd h (readMembers_other hs hclose hquote)

/-! ## Values -/

/-- What is read for a container are its parts and the brackets around them. -/
theorem append_of_parts {α : Type} {parts : Reading (c.skip 1) α} {opening closing : Char}
    {s w : List Char} (hc : c.rest = opening :: s) (hw : (c.skip 1).rest = w ++ closing :: parts.next.rest) :
    c.rest = opening :: (w ++ [closing]) ++ parts.next.rest := by
  rw [skip_rest, hc, List.drop_succ_cons, List.drop_zero] at hw
  simp [hc, hw]

/-- Where text is left, a reading without a fault finds a value. -/
theorem writes_of_readValue {room : Nat} (hdepth : depth ≤ Document.maxDepth)
    (hinner : SoundAt (depth + 1) (readValue room)) {ch : Char} {s : List Char}
    (hc : c.rest = ch :: s) (h : (readValue (room + 1) c).errors = []) :
    ∃ tree w, (readValue (room + 1) c).result = some tree ∧
      c.rest = w ++ (readValue (room + 1) c).next.rest ∧ Writes depth c.pos (.value tree) w := by
  revert h
  refine readValue_of_head hc ?object ?array ?string ?number ?word ?noValue
  case object =>
    rintro rfl herrors
    obtain ⟨w, hw, hmembers⟩ := writes_of_readMembers hinner c.pos herrors
    have hread := append_of_parts hc hw
    refine ⟨_, _, result_readContainer .object hread, hread, .object hdepth ?_⟩
    exact hmembers.at_pos (pos_skip_one hc (by decide))
  case array =>
    rintro rfl herrors
    obtain ⟨w, hw, hitems⟩ := writes_of_readItems hinner c.pos herrors
    have hread := append_of_parts hc hw
    refine ⟨_, _, result_readContainer .array hread, hread, .array hdepth ?_⟩
    exact hitems.at_pos (pos_skip_one hc (by decide))
  case string =>
    rintro rfl herrors
    obtain ⟨w, hw, hliteral⟩ := literal_of_quotation hc herrors
    refine ⟨_, w, rfl, hw, ?_⟩
    rw [spanOf_eq hw]
    exact .scalar hdepth hliteral
  case number =>
    intro _ herrors
    obtain ⟨n, w, hresult, hw, hliteral⟩ := literal_of_readNumber herrors
    exact ⟨_, w, hresult, hw, .scalar hdepth hliteral⟩
  case word =>
    intro value word hword _ herrors
    obtain ⟨hresult, hw⟩ := append_of_readWord herrors
    exact ⟨_, word, hresult, hw, .scalar hdepth hword⟩
  case noValue => exact fun herrors => absurd herrors (List.cons_ne_nil _ _)

/-- Whatever is read with room for the containers that may still open is written for its tree. -/
theorem soundAt_readValue (room depth : Nat) (h : room + depth = Document.maxDepth + 1) :
    SoundAt depth (readValue room) := by
  induction room generalizing depth with
  | zero => exact ⟨fun herrors => by simp [readValue] at herrors,
      fun herrors => by simp [readValue] at herrors⟩
  | succ room ih =>
    have hinner : SoundAt (depth + 1) (readValue room) := ih (depth + 1) (by omega)
    have hdepth : depth ≤ Document.maxDepth := by omega
    constructor
    · intro c tree herrors hresult
      cases hc : c.rest with
      | nil => simp [readValue, hc] at hresult
      | cons ch s =>
        obtain ⟨tree', w, htree, hw, hword⟩ := writes_of_readValue hdepth hinner hc herrors
        obtain rfl := Option.some.inj (htree.symm.trans hresult)
        exact ⟨w, by rw [← hc, hw], hword⟩
    · intro c herrors hresult
      cases hc : c.rest with
      | nil => simp [readValue, hc]
      | cons ch s =>
        obtain ⟨tree, w, htree, -⟩ := writes_of_readValue hdepth hinner hc herrors
        exact absurd (htree.symm.trans hresult) (by simp)

end Cursor

end PolicyAudit
