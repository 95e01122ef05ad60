-- SUMMARY: Reading a text byte by byte, with a cursor that is just a number.
import Mathlib.Data.PFun
import PolicyAudit.Proofs.Syntax.Bytes
import PolicyAudit.Proofs.Syntax.Slice

/-! ## Scans

A reader goes from character to character, so it cannot leave the text or stand inside a character. A scan does
the same on the bytes of the text, with nothing to hold it back: its cursor is set to any number, its loops
go on for as long as they do, and it asks for parts of the text by their bytes. Where a loop does not end, or where
the text has no such part, the scan has no outcome. What happens on the way is noted. -/

/-- What a scan comes to, if it comes to anything. -/
abbrev ScanOutcome : Type → Type := Part

namespace PolicyAudit

open Text

/-- What happens in a scan. -/
inductive ScanEvent where
  /-- The cursor is set. -/
  | move (pos : Nat)
  /-- A loop over members, elements or skipped text goes round again. -/
  | round (before after : Nat)
  /-- A part of the text is taken. -/
  | slice (start stop : Nat)
  /-- A value is asked for inside `depth` containers. -/
  | call (depth : Nat)
  /-- A value inside `depth` containers is not refused. -/
  | value (depth : Nat)
deriving DecidableEq, Repr

/-- Whether what happens is in order: the cursor stays in the text, a round moves it on, a part of the text begins
and ends between two characters, and no value is read that is nested too deep. -/
def ScanEvent.Sound (text : List Char) : ScanEvent → Prop
  | move pos => pos ≤ byteLength text
  | round before after => before < after
  | slice start stop =>
    start ≤ stop ∧ stop ≤ byteLength text ∧ isBoundary text start = true ∧ isBoundary text stop = true
  | call depth => depth ≤ Document.maxDepth + 1
  | value depth => depth ≤ Document.maxDepth

/-- How far a scan has come, the faults it has found, and what has happened. -/
structure Scanner where
  pos : Nat
  errors : List SyntaxError
  events : List ScanEvent

/-- A scan, which may have no outcome. -/
abbrev Scan (α : Type) : Type := StateT Scanner ScanOutcome α

namespace Scan

variable (text : List Char)

/-! ### Steps -/

def note (event : ScanEvent) : Scan Unit := modify fun s => { s with events := s.events ++ [event] }

def report (fault : Fault) (offset length : Nat) : Scan Unit :=
  modify fun s => { s with errors := s.errors ++ [⟨fault, ⟨offset, length⟩⟩] }

def cursor : Scan Nat := do return (← get).pos

def seek (pos : Nat) : Scan Unit := do
  modify fun s => { s with pos }
  note (.move pos)

def advance (n : Nat) : Scan Unit := do seek ((← cursor) + n)

def peek : Scan (Option UInt8) := do return (bytes text)[← cursor]?

def onlyIf (holds : Bool) (m : Scan Unit) : Scan Unit := if holds then m else pure ()

/-- Takes a part of the text, which must begin and end between two characters. -/
def slice (start stop : Nat) : Scan (List Char) := do
  note (.slice start stop)
  let part? := if start ≤ stop then (Span.between start stop).slice? text else none
  fun s => (Part.ofOption part?).map (·, s)

/-- Goes round a loop until it is left. A round leaves it with a result on the left, or goes on with what is on
the right. -/
def loop {σ ρ : Type} (body : σ → Scan (ρ ⊕ σ)) (init : σ) : Scan ρ := fun s =>
  PFun.fix (fun (a, s) => (body a s).map fun (next, s') => next.map (·, s') (·, s')) (init, s)

/-- A loop that moves the cursor, with a note of each round that goes on. -/
def rounds {σ ρ : Type} (body : σ → Scan (ρ ⊕ σ)) (init : σ) : Scan ρ :=
  loop (fun a => do
    let before ← cursor
    let next ← body a
    let after ← cursor
    onlyIf next.isRight (note (.round before after))
    return next) init

/-- The byte from which on a text first continues in some way. -/
def findByte? (here : List Char → Bool) : List Char → Option Nat
  | [] => none
  | c :: rest => if here (c :: rest) then some 0 else (findByte? here rest).map (· + c.utf8Size)

/-! ### Tokens -/

/-- One byte on, as long as there is one to keep. -/
def whileRound (keep : UInt8 → Bool) : Scan (Unit ⊕ Unit) := do
  match ← peek text with
  | none => return .inl ()
  | some b =>
    if keep b then
      advance 1
      return .inr ()
    else return .inl ()

/-- Moves on behind the bytes to keep. -/
def skipWhile (keep : UInt8 → Bool) : Scan Unit := loop (fun _ => whileRound text keep) ()

/-- Moves on behind the block comment that is opened at the cursor. -/
def skipBlock : Scan Unit := do
  let start ← cursor
  let rest ← slice text (start + 2) (byteLength text)
  match findByte? ['*', '/'].isPrefixOf rest with
  | some offset => seek (start + 2 + offset + 2)
  | none =>
    seek (byteLength text)
    report .openComment start (byteLength text - start)

/-- A blank or a comment. -/
def triviaRound : Scan (Unit ⊕ Unit) := do
  let start ← cursor
  match (bytes text)[start]? with
  | none => return .inl ()
  | some b =>
    if isGapByte b then
      advance 1
      return .inr ()
    else if b = byte '/' then
      if (bytes text)[start + 1]? = some (byte '/') then
        skipWhile text (· ≠ byte '\n')
        return .inr ()
      else if (bytes text)[start + 1]? = some (byte '*') then
        skipBlock text
        return .inr ()
      else return .inl ()
    else return .inl ()

/-- Moves on behind blanks and comments. -/
def skipTrivia : Scan Unit := loop (fun _ => triviaRound text) ()

/-- A byte of a string. A backslash takes the next byte along, even where the text has ended. -/
def stringRound (index : Nat) : Scan ((Nat × Bool) ⊕ Nat) := do
  match (bytes text)[index]? with
  | none => return .inl (index, false)
  | some b =>
    if b = byte '\\' then return .inr (index + 2)
    else if b = byte '"' then return .inl (index + 1, true)
    else if b = byte '\n' then return .inl (index, false)
    else return .inr (index + 1)

/-- The byte behind the string that goes on at byte `index`, and whether a quotation mark closes it. -/
def stringEnd (index : Nat) : Scan (Nat × Bool) := loop (stringRound text) index

/-- Reads the string at an opening quotation mark. -/
def scanString : Scan (Span × String) := do
  let start ← cursor
  let (index, closed) ← stringEnd text (start + 1)
  let stop := min index (byteLength text)
  seek stop
  if closed then
    let quoted ← slice text start stop
    match Quoted.decode quoted.tail.dropLast with
    | some said => return (.between start stop, String.ofList said)
    | none =>
      report .badEscape start (stop - start)
      let body ← slice text (start + 1) (stop - 1)
      return (.between start stop, String.ofList body)
  else
    report .openString start (stop - start)
    let body ← slice text (start + 1) stop
    return (.between start stop, String.ofList (trimEnd body))

/-- Moves on behind the string at an opening quotation mark, whatever is wrong with it. -/
def skipString : Scan Unit := do
  let errors := (← get).errors
  let _ ← scanString text
  modify fun s => { s with errors := s.errors.take errors.length }

/-- A scalar: where it stands, and its value. -/
def scalarAt (span : Span) (value : Scalar) : Tree × Json := (.scalar span value, .scalar value)

def scanNumber : Scan (Option (Tree × Json)) := do
  let start ← cursor
  skipWhile text isNumeralByte
  let stop ← cursor
  let token ← slice text start stop
  match Number.ofChars? token with
  | some n => return some (scalarAt (.between start stop) (.number n))
  | none =>
    report (.badNumber (String.ofList token)) start (stop - start)
    return none

def scanWord (word : List Char) (value : Scalar) : Scan (Option (Tree × Json)) := do
  let start ← cursor
  let rest ← slice text start (byteLength text)
  if word.isPrefixOf rest then
    advance (byteLength word)
    return some (scalarAt (.between start (← cursor)) value)
  else
    let length := (findByte? (fun s => !s.head?.any Char.isAlphanum) rest).getD (byteLength text - start)
    report .noValue start (max length 1)
    return none

/-! ### Skipped text -/

/-- A string, or a byte. In a container that `close` closes, skipping stops at a comma or a closing bracket. -/
def junkRound (close : Char) (depth : Nat) : Scan (Unit ⊕ Nat) := do
  match ← peek text with
  | none => return .inl ()
  | some b =>
    if b = byte '"' then
      skipString text
      return .inr depth
    else if b = byte '{' ∨ b = byte '[' then
      advance 1
      return .inr (depth + 1)
    else if (b = byte '}' ∨ b = byte ']') ∧ 0 < depth then
      advance 1
      return .inr (depth - 1)
    else if depth = 0 ∧ (b = byte ',' ∨ b = byte close) then return .inl ()
    else if b = byte '}' ∨ b = byte ']' then return .inl ()
    else
      advance 1
      return .inr depth

/-- Moves on to where a container that `close` closes can be read on. -/
def skipJunk (close : Char) : Scan Unit := rounds (junkRound text close) 0

/-- Moves on behind something that is no member's name, and behind the comma after it. -/
def skipNoName : Scan Unit := do
  let before ← cursor
  report .noName before 1
  skipJunk text '}'
  let after ← cursor
  onlyIf ((bytes text)[after]? = some (byte ',') ∨ after = before) (advance 1)

/-- Moves on behind what separates a member from the next one. -/
def endMember : Scan Unit := do
  skipTrivia text
  let start ← cursor
  match (bytes text)[start]? with
  | none => return
  | some b =>
    if b = byte ',' then advance 1
    else if b = byte '}' then return
    else if b = byte '"' then report .noComma start 0
    else
      report .noCommaOrBrace start 1
      skipJunk text '}'
      onlyIf ((← peek text) = some (byte ',')) (advance 1)

/-- Moves on behind an element at byte `start` that has no value. -/
def skipNoItem (start : Nat) : Scan Unit := do
  skipJunk text ']'
  let after ← cursor
  onlyIf (after = start ∧ (bytes text)[after]? ≠ some (byte ']')) (advance 1)

/-- Moves on behind what separates an element from the next one. -/
def endItem : Scan Unit := do
  skipTrivia text
  let start ← cursor
  match (bytes text)[start]? with
  | none => return
  | some b =>
    if b = byte ',' then advance 1
    else if b = byte ']' then return
    else report .noComma start 0

/-! ### Containers

A scan of containers builds the tree and the value side by side. The values of the members are kept by their names,
and of several members of one name the first that has a value is kept. -/

/-- Reads the value after a member's name and colon. -/
def scanMemberValue (value : Scan (Option (Tree × Json))) (name : String) : Scan (Option (Tree × Json)) := do
  skipTrivia text
  let start ← cursor
  if (bytes text)[start]? = some (byte ':') then
    advance 1
    skipTrivia text
    value
  else
    report (.noColon name) start 0
    return none

/-- Reads a member at the quotation mark that opens its name. -/
def scanMember (value : Scan (Option (Tree × Json))) : Scan (Member Tree × Option Json) := do
  let (span, name) ← scanString text
  let found? ← scanMemberValue text value name
  onlyIf found?.isNone (skipJunk text '}')
  endMember text
  return (Cursor.memberOf name span (found?.map Prod.fst), found?.map Prod.snd)

/-- The values of the members so far and one more, if it has a value and its name is new. -/
def keepValue (values : Keyed Json) (name : String) (value? : Option Json) : Keyed Json :=
  value?.elim values fun value => Keyed.insertNew name value values

/-- A member, or what is no member. -/
def membersRound (value : Scan (Option (Tree × Json))) (opened : Nat) (found : List (Member Tree) × Keyed Json) :
    Scan ((List (Member Tree) × Keyed Json) ⊕ (List (Member Tree) × Keyed Json)) := do
  skipTrivia text
  match ← peek text with
  | none =>
    report .openObject opened 1
    return .inl found
  | some b =>
    if b = byte '}' then
      advance 1
      return .inl found
    else if b = byte '"' then
      let (member, value?) ← scanMember text value
      return .inr (found.1 ++ [member], keepValue found.2 member.name value?)
    else
      skipNoName text
      return .inr found

/-- Reads the members of the object that was opened at byte `opened`. -/
def scanMembers (value : Scan (Option (Tree × Json))) (opened : Nat) : Scan (List (Member Tree) × Keyed Json) :=
  rounds (membersRound text value opened) ([], [])

/-- Reads an element. -/
def scanItem (value : Scan (Option (Tree × Json))) : Scan (Option (Tree × Json)) := do
  let start ← cursor
  let item? ← value
  onlyIf item?.isNone (skipNoItem text start)
  endItem text
  return item?

/-- An element, or what is none. -/
def itemsRound (value : Scan (Option (Tree × Json))) (opened : Nat) (found : List Tree × List Json) :
    Scan ((List Tree × List Json) ⊕ (List Tree × List Json)) := do
  skipTrivia text
  match ← peek text with
  | none =>
    report .openArray opened 1
    return .inl found
  | some b =>
    if b = byte ']' then
      advance 1
      return .inl found
    else
      let item? ← scanItem text value
      return .inr (found.1 ++ (item?.map Prod.fst).toList, found.2 ++ (item?.map Prod.snd).toList)

/-- Reads the elements of the array that was opened at byte `opened`. -/
def scanItems (value : Scan (Option (Tree × Json))) (opened : Nat) : Scan (List Tree × List Json) :=
  rounds (itemsRound text value opened) ([], [])

/-! ### Values -/

/-- Reads the value inside `depth` containers, with its tree. -/
def scanValue (depth : Nat) : Scan (Option (Tree × Json)) := do
  note (.call depth)
  let start ← cursor
  if Document.maxDepth < depth then
    report .tooDeep start 1
    seek (byteLength text)
    return none
  else
    note (.value depth)
    match (bytes text)[start]? with
    | none => return none
    | some b =>
      if b = byte '{' then
        advance 1
        let (members, values) ← scanMembers text (scanValue (depth + 1)) start
        return some (.object (.between start (← cursor)) members, .object values)
      else if b = byte '[' then
        advance 1
        let (items, values) ← scanItems text (scanValue (depth + 1)) start
        return some (.array (.between start (← cursor)) items, .array values)
      else if b = byte '"' then
        let (span, said) ← scanString text
        return some (scalarAt span (.string said))
      else if b = byte '-' ∨ isDigitByte b then scanNumber text
      else if b = byte 't' then scanWord text "true".toList (.bool true)
      else if b = byte 'f' then scanWord text "false".toList (.bool false)
      else if b = byte 'n' then scanWord text "null".toList .null
      else
        let rest ← slice text start (byteLength text)
        report .noValue start ((rest.head?.map Char.utf8Size).getD 1)
        return none
termination_by Document.maxDepth + 1 - depth

/-- Reads the value of a document. -/
def scanRoot : Scan (Option (Tree × Json)) := do
  let start ← cursor
  if start < byteLength text then scanValue text 0
  else
    report .emptyDocument start 0
    return none

/-- Reads a document. -/
def scanDocument : Scan (Option (Tree × Json)) := do
  skipTrivia text
  let root? ← scanRoot text
  skipTrivia text
  let stop ← cursor
  onlyIf (root?.isSome ∧ stop < byteLength text) (report .trailingContent stop (byteLength text - stop))
  return root?

end Scan

end PolicyAudit
