-- SUMMARY: The tolerant reader of values.
import PolicyAudit.Syntax.Cursor
import PolicyAudit.Syntax.Token

/-! ## Tolerant reading

The reader accepts JSON with comments and trailing commas. It never gives up: a fault is recorded, the
text up to the next comma or closing bracket is skipped, and reading goes on there. -/

namespace PolicyAudit

namespace Cursor

/-- Reads blanks and comments. -/
def readTrivia (c : Cursor) : Reading c Unit :=
  let t := Trivia.ofText c.rest
  let next := c.skip t.length
  { result := ()
    errors := match t.open? with
      | some bytes => [⟨.openComment, ⟨next.pos - bytes, bytes⟩⟩]
      | none => []
    next
    reaches := c.reaches_skip t.length }

/-- Skips to where reading can go on after a fault. -/
def readJunk (c : Cursor) : Reading c Unit :=
  ⟨(), [], c.skip (Junk.length c.rest), c.reaches_skip _⟩

/-- Records a fault that covers `bytes` bytes from here on, and reads nothing. -/
def fault (c : Cursor) (fault : Fault) (bytes : Nat) : Reading c Unit :=
  ⟨(), [⟨fault, ⟨c.pos, bytes⟩⟩], c, .refl c⟩

/-- Moves on by one character where `moves` holds. -/
def skipIf (moves : Bool) (c : Cursor) : Reading c Unit :=
  if moves then ⟨(), [], c.skip 1, c.reaches_skip 1⟩ else .done c ()

/-- Some text is used up when a cursor that has not moved moves now. -/
theorem skipIf_length_lt {c d : Cursor} {moves : Bool} (hr : c.Reaches d) (h : c.rest ≠ [])
    (hm : d.pos = c.pos → moves = true) :
    (d.skipIf moves).next.rest.length < c.rest.length := by
  unfold skipIf
  split
  · by_cases h0 : d.rest = []
    · have hle : (d.skip 1).rest.length ≤ d.rest.length := (reaches_skip d 1).length_le
      rw [h0] at hle
      exact Nat.lt_of_le_of_lt hle (List.length_pos_iff.2 h)
    · exact Nat.lt_of_lt_of_le (skip_length_lt h0 (by decide)) hr.length_le
  · rename_i hne
    exact hr.length_lt fun hp => hne (hm hp)

/-- The character at the cursor. -/
def peek? (c : Cursor) : Option Char := c.rest.head?

/-- The quotation at an opening quotation mark. -/
def quotation (c : Cursor) : Quotation := Quotation.scan c.rest.tail

/-- The faults of the quotation at an opening quotation mark. -/
def quotationErrors (c : Cursor) : List SyntaxError :=
  let q := c.quotation
  let span := c.spanOf q.length
  if ¬q.closed then [⟨.openString, span⟩]
  else if (Quoted.decode q.body).isNone then [⟨.badEscape, span⟩]
  else []

/-! ## Scalars -/

/-- Reads a string. -/
def readString (c : Cursor) : Reading c (Option Tree) :=
  let q := c.quotation
  { result := some (.scalar (c.spanOf q.length) (.string q.text))
    errors := c.quotationErrors
    next := c.skip q.length
    reaches := c.reaches_skip _ }

/-- Reads a number: the longest run of characters that numerals are made of, which must be one. -/
def readNumber (c : Cursor) : Reading c (Option Tree) :=
  let token := c.rest.takeWhile Numeral.isNumeralChar
  let span := c.spanOf token.length
  match Number.ofChars? token with
  | some n =>
    ⟨some (.scalar span (.number n)), [], c.skip token.length, c.reaches_skip _⟩
  | none =>
    ⟨none, [⟨.badNumber (String.ofList token), span⟩], c.skip token.length, c.reaches_skip _⟩

/-- Reads one of the fixed words. Where another word stands, nothing is read. -/
def readWord (c : Cursor) (word : List Char) (value : Scalar) : Reading c (Option Tree) :=
  if word.isPrefixOf c.rest then
    ⟨some (.scalar (c.spanOf word.length) value), [], c.skip word.length, c.reaches_skip _⟩
  else
    let length := Text.byteLength (c.rest.takeWhile Char.isAlphanum)
    (c.fault .noValue (max length 1)).map fun _ => none

/-! ## Containers -/

/-- A reader of the value at a cursor. -/
abbrev ValueReader : Type := (c : Cursor) → Reading c (Option Tree)

/-- Reads the value after a member's name and colon. Without a colon there is no value. -/
def readMemberValue (value : ValueReader) (name : String) (c : Cursor) :
    Reading c (Option Tree) :=
  c.readTrivia.andThen fun _ d =>
    if d.peek? = some ':' then
      let colon : Reading d Unit := ⟨(), [], d.skip 1, d.reaches_skip 1⟩
      (colon.andThen fun _ e => e.readTrivia).andThen fun _ e => value e
    else (d.fault (.noColon name) 0).map fun _ => none

/-- Skips to the end of a member or element that has no value. -/
def skipUnread (found : Option Tree) (c : Cursor) : Reading c (Option Tree) :=
  match found with
  | some tree => .done c (some tree)
  | none => c.readJunk.map fun _ => none

/-- Reads what separates a member from the next one. -/
def readMemberEnd (c : Cursor) : Reading c Unit :=
  c.readTrivia.andThen fun _ d =>
    match d.peek? with
    | none => .done d ()
    | some ch =>
      if ch = ',' then ⟨(), [], d.skip 1, d.reaches_skip 1⟩
      else if ch = '}' then .done d ()
      else if ch = '"' then d.fault .noComma 0
      else
        (d.fault .noCommaOrBrace 1).andThen fun _ e =>
          e.readJunk.andThen fun _ f => f.skipIf (f.peek? = some ',')

/-- Reads a member's name at an opening quotation mark. -/
def readName (c : Cursor) : Reading c String :=
  ⟨c.quotation.text, c.quotationErrors, c.skip c.quotation.length, c.reaches_skip _⟩

/-- The member with a name and perhaps a value. -/
def memberOf (name : String) (nameSpan : Span) (found : Option Tree) : Member Tree :=
  let stop := match found with
    | some tree => tree.span.stop
    | none => nameSpan.stop
  ⟨.between nameSpan.offset stop, name, nameSpan, found⟩

/-- Reads a member and what separates it from the next one. -/
def readMember (value : ValueReader) (c : Cursor) : Reading c (Member Tree) :=
  c.readName.andThen fun name d =>
    (readMemberValue value name d).andThen fun found e =>
      (skipUnread found e).andThen fun _ f =>
        f.readMemberEnd.map fun _ => memberOf name (c.spanOf c.quotation.length) found

theorem readMember_length_lt {value : ValueReader} {c : Cursor} (h : c.rest ≠ []) :
    (readMember value c).next.rest.length < c.rest.length := by
  have hname : c.readName.next.rest.length < c.rest.length :=
    skip_length_lt h c.quotation.length_pos
  refine Nat.lt_of_le_of_lt (Reaches.length_le ?_) hname
  exact (Reading.reaches _).trans ((Reading.reaches _).trans (Reading.reaches _))

/-- Reads past something that is no member's name, and past the comma after it. -/
def readNoMember (c : Cursor) : Reading c Unit :=
  (c.fault .noName 1).andThen fun _ d =>
    d.readJunk.andThen fun _ e => e.skipIf (e.peek? = some ',' ∨ e.pos = c.pos)

theorem readNoMember_length_lt {c : Cursor} (h : c.rest ≠ []) :
    c.readNoMember.next.rest.length < c.rest.length :=
  skipIf_length_lt c.readJunk.reaches h fun hp => by
    have : c.readJunk.next.pos = c.pos := hp
    simp [fault, this]

/-- Reads the members of an object up to and with its closing brace. The object opened at byte
`opened`. -/
def readMembers (value : ValueReader) (opened : Nat) (c : Cursor) :
    Reading c (List (Member Tree)) :=
  let gap := c.readTrivia
  match h : gap.next.rest with
  | [] => ⟨[], gap.errors ++ [⟨.openObject, ⟨opened, 1⟩⟩], gap.next, gap.reaches⟩
  | ch :: _ =>
    if ch = '}' then
      ⟨[], gap.errors, gap.next.skip 1, gap.reaches.trans (gap.next.reaches_skip 1)⟩
    else if ch = '"' then
      let member := readMember value gap.next
      have hlt : member.next.rest.length < c.rest.length :=
        Nat.lt_of_lt_of_le (readMember_length_lt (by simp [h])) gap.reaches.length_le
      let rest := readMembers value opened member.next
      { result := member.result :: rest.result
        errors := gap.errors ++ member.errors ++ rest.errors
        next := rest.next
        reaches := gap.reaches.trans (member.reaches.trans rest.reaches) }
    else
      let past := gap.next.readNoMember
      have hlt : past.next.rest.length < c.rest.length :=
        Nat.lt_of_lt_of_le (readNoMember_length_lt (by simp [h])) gap.reaches.length_le
      let rest := readMembers value opened past.next
      { result := rest.result
        errors := gap.errors ++ past.errors ++ rest.errors
        next := rest.next
        reaches := gap.reaches.trans (past.reaches.trans rest.reaches) }
termination_by c.rest.length

/-- An object is not read without fault where the text ends before its brace. -/
theorem readMembers_end {value : ValueReader} {opened : Nat} {c : Cursor}
    (h : c.readTrivia.next.rest = []) :
    (readMembers value opened c).errors ≠ [] := by
  rw [readMembers]
  split
  · simp
  · rename_i heq
    rw [h] at heq
    cases heq

/-- Reads what separates an element from the next one. -/
def readItemEnd (c : Cursor) : Reading c Unit :=
  c.readTrivia.andThen fun _ d =>
    match d.peek? with
    | none => .done d ()
    | some ch =>
      if ch = ',' then ⟨(), [], d.skip 1, d.reaches_skip 1⟩
      else if ch = ']' then .done d ()
      else d.fault .noComma 0

/-- Reads an element and what separates it from the next one. -/
def readItem (value : ValueReader) (c : Cursor) : Reading c (Option Tree) :=
  (value c).andThen fun found d =>
    (skipUnread found d).andThen fun _ e =>
      (e.skipIf (e.pos = c.pos)).andThen fun _ f => f.readItemEnd.map fun _ => found

theorem readItem_length_lt {value : ValueReader} {c : Cursor} (h : c.rest ≠ []) :
    (readItem value c).next.rest.length < c.rest.length := by
  have hunread := (value c).reaches.trans (skipUnread (value c).result (value c).next).reaches
  exact Nat.lt_of_le_of_lt (readItemEnd _).reaches.length_le
    (skipIf_length_lt hunread h fun hpos => decide_eq_true hpos)

/-- Reads the elements of an array up to and with its closing bracket. The array opened at byte
`opened`. -/
def readItems (value : ValueReader) (opened : Nat) (c : Cursor) : Reading c (List Tree) :=
  let gap := c.readTrivia
  match h : gap.next.rest with
  | [] => ⟨[], gap.errors ++ [⟨.openArray, ⟨opened, 1⟩⟩], gap.next, gap.reaches⟩
  | ch :: _ =>
    if ch = ']' then
      ⟨[], gap.errors, gap.next.skip 1, gap.reaches.trans (gap.next.reaches_skip 1)⟩
    else
      let item := readItem value gap.next
      have hlt : item.next.rest.length < c.rest.length :=
        Nat.lt_of_lt_of_le (readItem_length_lt (by simp [h])) gap.reaches.length_le
      let rest := readItems value opened item.next
      { result := item.result.toList ++ rest.result
        errors := gap.errors ++ item.errors ++ rest.errors
        next := rest.next
        reaches := gap.reaches.trans (item.reaches.trans rest.reaches) }
termination_by c.rest.length

/-- An array is not read without fault where the text ends before its bracket. -/
theorem readItems_end {value : ValueReader} {opened : Nat} {c : Cursor}
    (h : c.readTrivia.next.rest = []) :
    (readItems value opened c).errors ≠ [] := by
  rw [readItems]
  split
  · simp
  · rename_i heq
    rw [h] at heq
    cases heq

/-! ## Values -/

/-- Reads a value that may hold `room - 1` levels of containers. Without room the rest of the text is
given up. -/
def readValue : (room : Nat) → ValueReader
  | 0, c => ⟨none, [⟨.tooDeep, ⟨c.pos, 1⟩⟩], c.atEnd, c.reaches_skip _⟩
  | room + 1, c =>
    match c.rest with
    | [] => .done c none
    | ch :: _ =>
      if ch = '{' then
        let members := readMembers (readValue room) c.pos (c.skip 1)
        { result := some (.object (.between c.pos members.next.pos) members.result)
          errors := members.errors
          next := members.next
          reaches := (c.reaches_skip 1).trans members.reaches }
      else if ch = '[' then
        let items := readItems (readValue room) c.pos (c.skip 1)
        { result := some (.array (.between c.pos items.next.pos) items.result)
          errors := items.errors
          next := items.next
          reaches := (c.reaches_skip 1).trans items.reaches }
      else if ch = '"' then c.readString
      else if ch = '-' ∨ ch.isDigit then c.readNumber
      else if ch = 't' then c.readWord "true".toList (.bool true)
      else if ch = 'f' then c.readWord "false".toList (.bool false)
      else if ch = 'n' then c.readWord "null".toList .null
      else (c.fault .noValue ch.utf8Size).map fun _ => none

end Cursor

end PolicyAudit
