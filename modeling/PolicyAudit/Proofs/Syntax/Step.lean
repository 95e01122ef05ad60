-- SUMMARY: What one round of reading members or elements does, and how a value is read from its first character on.
import PolicyAudit.Proofs.Syntax.Trivia

/-! ## Trivia at a cursor -/

namespace PolicyAudit

/-- What stands behind a part of a container and its gap: a comma, which belongs to it, or the closing
bracket, which does not. -/
def EndsPart (close : Char) (t s : List Char) : Prop :=
  t = ',' :: s ∨ t = s ∧ ∃ rest, s = close :: rest

namespace Cursor

/-- A gap is read without a fault, up to the token behind it. -/
theorem readTrivia_of_gap {c : Cursor} {g s : List Char} (hg : Gap g) (hs : Trivia.Solid s)
    (hc : c.rest = g ++ s) : c.readTrivia.errors = [] ∧ c.readTrivia.next.rest = s := by
  have hscan : Trivia.ofText c.rest = ⟨g.length, none⟩ := by
    rw [hc, Trivia.ofText, Trivia.scan_gap hg, Trivia.scan_of_solid hs]
    simp [Trivia.add]
  simp only [readTrivia, hscan, skip_rest]
  simp [hc]

/-- A gap at the end of the text is read to the end. -/
theorem readTrivia_of_finalGap {c : Cursor} (hc : FinalGap c.rest) :
    c.readTrivia.errors = [] ∧ c.readTrivia.next.rest = [] := by
  have hscan : Trivia.ofText c.rest = ⟨c.rest.length, none⟩ := Trivia.scan_finalGap hc
  simp [readTrivia, hscan]

/-- What is read without a fault is a gap, or else all that is left. -/
theorem exists_gap_of_readTrivia {c : Cursor} (h : c.readTrivia.errors = []) :
    ∃ g, c.rest = g ++ c.readTrivia.next.rest ∧
      (Gap g ∨ FinalGap g ∧ c.readTrivia.next.rest = []) := by
  have hopen : (Trivia.ofText c.rest).open? = none := by
    cases ht : (Trivia.ofText c.rest).open? with
    | none => rfl
    | some n => simp [readTrivia, ht] at h
  obtain ⟨g, rest, hc, hlen, hg⟩ := Trivia.exists_of_scan_plain hopen
  have hnext : c.readTrivia.next.rest = rest := by
    simp only [readTrivia, skip_rest, Trivia.ofText, hlen]
    simp [hc]
  exact ⟨g, by rw [hnext, hc], by rwa [hnext]⟩

/-! ## Places

Where reading has come to is known by the text in between. -/

section Places

variable {c d : Cursor} {w : List Char} {n : Nat}

theorem Reaches.pos_eq (h : c.Reaches d) (hw : c.rest = w ++ d.rest) :
    d.pos = c.pos + Text.byteLength w := by
  obtain ⟨n, rfl⟩ := h
  have htake : c.rest.take n = w := by
    apply (List.append_left_inj (c.rest.drop n)).mp
    rw [List.take_append_drop]
    exact hw
  rw [skip, htake]

theorem Reaches.between_eq (h : c.Reaches d) (hw : c.rest = w ++ d.rest) :
    Span.between c.pos d.pos = ⟨c.pos, Text.byteLength w⟩ := by
  rw [Span.between, h.pos_eq hw, Nat.add_sub_cancel_left]

theorem spanOf_eq (hw : c.rest = w ++ (c.skip n).rest) : c.spanOf n = ⟨c.pos, Text.byteLength w⟩ := by
  have hpos := (c.reaches_skip n).pos_eq hw
  simp only [skip] at hpos
  rw [spanOf, Nat.add_left_cancel hpos]

end Places

/-! ## Nothing left to read -/

theorem Reaches.rest_eq_nil {c d : Cursor} (h : c.Reaches d) (hc : c.rest = []) : d.rest = [] := by
  have := h.length_le
  simpa [hc] using this

/-- Reading on where nothing is left reads nothing. -/
theorem andThen_rest_eq_nil {c : Cursor} {α β : Type} {r : Reading c α}
    (f : α → (d : Cursor) → Reading d β) (h : r.next.rest = []) :
    (r.andThen f).next.rest = [] :=
  (f r.result r.next).reaches.rest_eq_nil h

theorem Reaches.pos_ne {c d : Cursor} (h : c.Reaches d) (hlt : d.rest.length < c.rest.length) :
    d.pos ≠ c.pos := by
  obtain ⟨n, rfl⟩ := h
  intro hpos
  have htake : c.rest.take n = [] := by
    apply Text.byteLength_eq_zero.1
    simp only [skip] at hpos
    omega
  have : (c.rest.take n).length = 0 := by simp [htake]
  simp only [skip_rest, List.length_drop, List.length_take] at hlt this
  omega

/-! ## Rounds of elements -/

variable {value : ValueReader} {opened : Nat} {c : Cursor}

theorem readItems_close (value : ValueReader) (opened : Nat) {s : List Char}
    (h : c.readTrivia.next.rest = ']' :: s) :
    (readItems value opened c).result = [] ∧
      (readItems value opened c).errors = c.readTrivia.errors ∧
      (readItems value opened c).next.rest = s := by
  rw [readItems]
  split
  · rename_i heq
    rw [h] at heq
    cases heq
  · rename_i heq
    rw [h] at heq
    obtain ⟨rfl, rfl⟩ := List.cons.inj heq
    simp [h]

/-- An element with a value is followed by what separates it from the next one. -/
theorem readItem_of_some {tree : Tree} (hresult : (value c).result = some tree)
    (hlt : (value c).next.rest.length < c.rest.length) :
    (readItem value c).result = some tree ∧
      (readItem value c).errors = (value c).errors ++ (value c).next.readItemEnd.errors ∧
      (readItem value c).next = (value c).next.readItemEnd.next := by
  have hpos : (value c).next.pos ≠ c.pos := (value c).reaches.pos_ne hlt
  have hstay : (value c).next.skipIf false = .done _ () := rfl
  simp [readItem, hresult, skipUnread, hpos, hstay]

theorem readItem_of_ended (h : (value c).next.rest = []) : (readItem value c).next.rest = [] :=
  andThen_rest_eq_nil _ h

theorem readItems_cons (value : ValueReader) (opened : Nat) {ch : Char} {s : List Char}
    (h : c.readTrivia.next.rest = ch :: s) (hch : ch ≠ ']') :
    let item := readItem value c.readTrivia.next
    let rest := readItems value opened item.next
    (readItems value opened c).result = item.result.toList ++ rest.result ∧
      (readItems value opened c).errors = c.readTrivia.errors ++ item.errors ++ rest.errors ∧
      (readItems value opened c).next = rest.next := by
  intro item rest
  rw [readItems]
  split
  · rename_i heq
    rw [h] at heq
    cases heq
  · rename_i heq
    rw [h] at heq
    obtain ⟨rfl, rfl⟩ := List.cons.inj heq
    rw [if_neg hch]
    exact ⟨rfl, rfl, rfl⟩

/-! ## Rounds of members -/

theorem readMembers_close (value : ValueReader) (opened : Nat) {s : List Char}
    (h : c.readTrivia.next.rest = '}' :: s) :
    (readMembers value opened c).result = [] ∧
      (readMembers value opened c).errors = c.readTrivia.errors ∧
      (readMembers value opened c).next.rest = s := by
  rw [readMembers]
  split
  · rename_i heq
    rw [h] at heq
    cases heq
  · rename_i heq
    rw [h] at heq
    obtain ⟨rfl, rfl⟩ := List.cons.inj heq
    simp [h]

/-- A member with a value is followed by what separates it from the next one. -/
theorem readMember_of_some {tree : Tree}
    (hresult : (readMemberValue value c.quotation.text (c.skip c.quotation.length)).result =
      some tree) :
    let found := readMemberValue value c.quotation.text (c.skip c.quotation.length)
    (readMember value c).result =
        memberOf c.quotation.text (c.spanOf c.quotation.length) (some tree) ∧
      (readMember value c).errors =
        c.quotationErrors ++ (found.errors ++ found.next.readMemberEnd.errors) ∧
      (readMember value c).next = found.next.readMemberEnd.next := by
  intro found
  simp [readMember, readName, found, hresult, skipUnread]

theorem readMember_of_ended
    (h : (readMemberValue value c.quotation.text (c.skip c.quotation.length)).next.rest = []) :
    (readMember value c).next.rest = [] := by
  rw [readMember, Reading.andThen_next]
  exact andThen_rest_eq_nil _ h

theorem readMembers_quote (value : ValueReader) (opened : Nat) {s : List Char}
    (h : c.readTrivia.next.rest = '"' :: s) :
    let member := readMember value c.readTrivia.next
    let rest := readMembers value opened member.next
    (readMembers value opened c).result = member.result :: rest.result ∧
      (readMembers value opened c).errors = c.readTrivia.errors ++ member.errors ++ rest.errors ∧
      (readMembers value opened c).next = rest.next := by
  intro member rest
  rw [readMembers]
  split
  · rename_i heq
    rw [h] at heq
    cases heq
  · rename_i heq
    rw [h] at heq
    obtain ⟨rfl, rfl⟩ := List.cons.inj heq
    rw [if_neg (by decide), if_pos rfl]
    exact ⟨rfl, rfl, rfl⟩

/-- What is no member's name is a fault. -/
theorem readMembers_other {ch : Char} {s : List Char} (h : c.readTrivia.next.rest = ch :: s)
    (hclose : ch ≠ '}') (hquote : ch ≠ '"') : (readMembers value opened c).errors ≠ [] := by
  rw [readMembers]
  split
  · rename_i heq
    rw [h] at heq
    cases heq
  · rename_i heq
    rw [h] at heq
    obtain ⟨rfl, rfl⟩ := List.cons.inj heq
    rw [if_neg hclose, if_neg hquote]
    simp [readNoMember, fault]

/-! ## Where parts come from

Every value in a container is what the reader of values found somewhere in it, and where the container
has no fault, that reading had none. -/

variable {tree : Tree}

/-- The value of a member is read somewhere behind its name. -/
theorem readMemberValue_of_some {name : String}
    (h : (readMemberValue value name c).result = some tree) :
    ∃ d, c.Reaches d ∧ (value d).result = some tree ∧
      (value d).next = (readMemberValue value name c).next ∧
      ((readMemberValue value name c).errors = [] → (value d).errors = []) := by
  by_cases hcolon : c.readTrivia.next.peek? = some ':'
  · refine ⟨(c.readTrivia.next.skip 1).readTrivia.next, ?_, ?_⟩
    · exact c.readTrivia.reaches.trans ((reaches_skip _ 1).trans (Reading.reaches _))
    · simp only [readMemberValue, Reading.andThen_result, hcolon, if_true] at h
      simp only [readMemberValue, Reading.andThen_next, Reading.andThen_errors, hcolon, if_true,
        List.append_eq_nil_iff]
      exact ⟨h, trivial, fun herrors => herrors.2.2⟩
  · simp [readMemberValue, hcolon] at h

theorem exists_of_mem_readItems (h : tree ∈ (readItems value opened c).result) :
    ∃ d, c.Reaches d ∧ (value d).result = some tree ∧
      ((readItems value opened c).errors = [] → (value d).errors = []) := by
  fun_induction readItems value opened c with
  | case1 => cases h
  | case2 => cases h
  | case3 c gap ch tail hgap _ item hlt rest ih =>
    simp only [List.append_eq_nil_iff]
    rcases List.mem_append.mp h with hitem | hrest
    · refine ⟨gap.next, gap.reaches, Option.mem_toList.mp hitem, ?_⟩
      rintro ⟨⟨-, herrors⟩, -⟩
      simp only [item, readItem, Reading.andThen_errors, List.append_eq_nil_iff] at herrors
      exact herrors.1
    · obtain ⟨d, hd, hvalue, herrors⟩ := ih hrest
      exact ⟨d, gap.reaches.trans (item.reaches.trans hd), hvalue, fun hnone => herrors hnone.2⟩

theorem exists_of_mem_readMembers {m : Member Tree} (h : m ∈ (readMembers value opened c).result)
    (hm : m.value? = some tree) :
    ∃ d, c.Reaches d ∧ (value d).result = some tree ∧
      ((readMembers value opened c).errors = [] → (value d).errors = []) := by
  fun_induction readMembers value opened c with
  | case1 => cases h
  | case2 => cases h
  | case3 c gap tail member rest hgap _ hlt ih =>
    simp only [List.append_eq_nil_iff]
    rcases List.mem_cons.mp h with rfl | hrest
    · obtain ⟨d, hd, hvalue, -, herrors⟩ := readMemberValue_of_some hm
      refine ⟨d, gap.reaches.trans ((reaches_skip _ _).trans hd), hvalue, ?_⟩
      rintro ⟨⟨-, hmember⟩, -⟩
      simp only [member, readMember, readName, Reading.andThen_errors,
        List.append_eq_nil_iff] at hmember
      exact herrors hmember.2.1
    · obtain ⟨d, hd, hvalue, herrors⟩ := ih hrest
      exact ⟨d, gap.reaches.trans (member.reaches.trans hd), hvalue, fun hnone => herrors hnone.2⟩
  | case4 c gap ch tail hgap _ _ past hlt rest ih =>
    simp only [List.append_eq_nil_iff]
    obtain ⟨d, hd, hvalue, herrors⟩ := ih h
    exact ⟨d, gap.reaches.trans (past.reaches.trans hd), hvalue, fun hnone => herrors hnone.2⟩

/-! ## Values -/

theorem exists_scalar_of_readNumber (h : c.readNumber.result = some tree) :
    ∃ span value, tree = .scalar span value := by
  simp only [readNumber] at h
  split at h
  · exact ⟨_, _, (Option.some.inj h).symm⟩
  · cases h

theorem exists_scalar_of_readWord {word : List Char} {value : Scalar}
    (h : (c.readWord word value).result = some tree) : ∃ span value, tree = .scalar span value := by
  simp only [readWord] at h
  split at h
  · exact ⟨_, _, (Option.some.inj h).symm⟩
  · cases h

/-- A container of the parts that are read behind its opening bracket. -/
def readContainer {α : Type} (make : Span → List α → Tree) (parts : Reading (c.skip 1) (List α)) :
    Reading c (Option Tree) where
  result := some (make (.between c.pos parts.next.pos) parts.result)
  errors := parts.errors
  next := parts.next
  reaches := (c.reaches_skip 1).trans parts.reaches

/-- A container covers all that is read for it, its brackets included. -/
theorem result_readContainer {α : Type} (make : Span → List α → Tree) {parts : Reading (c.skip 1) (List α)}
    {w : List Char} (hw : c.rest = w ++ parts.next.rest) :
    (readContainer make parts).result = some (make ⟨c.pos, Text.byteLength w⟩ parts.result) := by
  rw [readContainer, ((c.reaches_skip 1).trans parts.reaches).between_eq hw]

theorem pos_skip_one {ch : Char} {s : List Char} (hc : c.rest = ch :: s) (hbyte : ch.utf8Size = 1) :
    (c.skip 1).pos = c.pos + 1 := by
  simp [skip, hc, hbyte]

/-- The first character of a value tells how it is read. What holds of every way of reading one holds of the
reading of values. -/
@[elab_as_elim]
theorem readValue_of_head {room : Nat} {motive : Reading c (Option Tree) → Prop} {ch : Char} {s : List Char}
    (hc : c.rest = ch :: s)
    (object : ch = '{' → motive (readContainer .object (readMembers (readValue room) c.pos (c.skip 1))))
    (array : ch = '[' → motive (readContainer .array (readItems (readValue room) c.pos (c.skip 1))))
    (string : ch = '"' → motive c.readString)
    (number : ch = '-' ∨ ch.isDigit = true → motive c.readNumber)
    (word : ∀ {value word}, Literal value word → word ≠ [] → motive (c.readWord word value))
    (noValue : motive ((c.fault .noValue ch.utf8Size).map fun _ => none)) :
    motive (readValue (room + 1) c) := by
  simp only [readValue, hc]
  split
  · next hbrace => exact object hbrace
  split
  · next hbracket => exact array hbracket
  split
  · next hquote => exact string hquote
  split
  · next hdigit => exact number hdigit
  split
  · exact word .true (by decide)
  split
  · exact word .false (by decide)
  split
  · exact word .null (by decide)
  · exact noValue

/-- What is read is an object or an array, read part by part, or it has no parts. -/
theorem readValue_cases {room : Nat} (h : (readValue (room + 1) c).result = some tree) :
    (∃ span, tree = .object span (readMembers (readValue room) c.pos (c.skip 1)).result ∧
      (readValue (room + 1) c).errors = (readMembers (readValue room) c.pos (c.skip 1)).errors) ∨
    (∃ span, tree = .array span (readItems (readValue room) c.pos (c.skip 1)).result ∧
      (readValue (room + 1) c).errors = (readItems (readValue room) c.pos (c.skip 1)).errors) ∨
    ∃ span value, tree = .scalar span value := by
  cases hc : c.rest with
  | nil => simp [readValue, hc] at h
  | cons ch s =>
    revert h
    refine readValue_of_head hc ?object ?array ?string ?number ?word ?noValue
    case object => exact fun _ h => .inl ⟨_, (Option.some.inj h).symm, rfl⟩
    case array => exact fun _ h => .inr (.inl ⟨_, (Option.some.inj h).symm, rfl⟩)
    case string => exact fun _ h => .inr (.inr ⟨_, _, (Option.some.inj h).symm⟩)
    case number => exact fun _ h => .inr (.inr (exists_scalar_of_readNumber h))
    case word => exact fun _ _ h => .inr (.inr (exists_scalar_of_readWord h))
    case noValue => rintro ⟨⟩

end Cursor

/-! ## Documents -/

/-- The tree of a document is a value that is read somewhere in the text, without a fault if the document has
none. -/
theorem Document.readValue_of_tree? {text : String} {tree : Tree} (h : (ofText text).tree? = some tree) :
    ∃ c, (⟨0, text.toList⟩ : Cursor).Reaches c ∧ (c.readValue (maxDepth + 1)).result = some tree ∧
      ((ofText text).errors = [] → (c.readValue (maxDepth + 1)).errors = []) := by
  let gap := Cursor.readTrivia ⟨0, text.toList⟩
  by_cases hend : gap.next.rest = []
  · simp [ofText, readRoot, gap, hend] at h
  · have hroot : readRoot gap.next = gap.next.readValue (maxDepth + 1) := if_neg hend
    refine ⟨gap.next, gap.reaches, hroot ▸ h, fun herrors => ?_⟩
    simp only [ofText, List.append_eq_nil_iff] at herrors
    exact hroot ▸ herrors.1.1.2

end PolicyAudit
