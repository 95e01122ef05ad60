-- SUMMARY: Edits of a document's text.
import PolicyAudit.Error
import PolicyAudit.Json.Printer
import PolicyAudit.Syntax.Document

/-! ## Edits

An edit replaces one stretch of a text. It is meant for the text it was computed for, and applies to
any text in which its ends are boundaries. -/

namespace PolicyAudit

/-- A replacement of the bytes from `start` up to `stop`. -/
structure Edit where
  /-- The same stretch by lines and columns. -/
  range : Range
  start : Nat
  stop : Nat
  text : String
deriving DecidableEq, Repr

namespace Edit

/-- The text after an edit, where the edit fits. -/
def result? (edit : Edit) (text : List Char) : Option (List Char) :=
  if edit.start ≤ edit.stop then
    match Text.splitAtByte text edit.start, Text.splitAtByte text edit.stop with
    | some (before, _), some (_, after) => some (before ++ edit.text.toList ++ after)
    | _, _ => none
  else none

/-- The text after an edit. -/
def apply (edit : Edit) (text : String) : Except AuditError String :=
  match edit.result? text.toList with
  | some edited => .ok (String.ofList edited)
  | none =>
    .error (.fix "edit"
      s!"range {edit.start}..{edit.stop} does not fit a document of {text.utf8ByteSize} bytes")

/-- Puts `text` in the place of a span. -/
def replace (doc : Document) (span : Span) (text : List Char) : Edit :=
  ⟨doc.rangeOf span, span.offset, span.stop, String.ofList text⟩

/-- Puts `text` at an offset. -/
def insert (doc : Document) (offset : Nat) (text : List Char) : Edit :=
  replace doc ⟨offset, 0⟩ text

/-- Puts the compact text of a value in the place of a tree. -/
def replaceValue (doc : Document) (tree : Tree) (value : Json) : Edit :=
  replace doc tree.span value.compact

/-! ## New members

A new member goes after the last one of its object. Where the last member stands alone at the start
of its line, the new one gets a line of its own with the same indentation, and otherwise it follows
on the line. -/

/-- The text with an indentation after each line feed. -/
def indentLines (indent : List Char) (text : List Char) : List Char :=
  text.flatMap fun c => if c = '\n' then c :: indent else [c]

/-- The indentation of a member that starts its line inside an object that opens at byte `opened`. -/
def ownLine? (doc : Document) (opened : Nat) (member : Span) : Option (List Char) := do
  let (before, _) ← Text.splitAtByte doc.text.toList member.offset
  let line := (before.reverse.takeWhile (· ≠ '\n')).reverse
  let start := member.offset - Text.byteLength line
  if '\n' ∈ before ∧ opened < start ∧ line.all Text.isBlank then some line else none

/-- Adds a member to an object, where the tree is one. -/
def insertMember (doc : Document) (tree : Tree) (name : String) (value : Json) :
    Except AuditError Edit :=
  match tree with
  | .object span members =>
    let quoted := Quoted.render name
    match members.getLast? with
    | none => .ok (insert doc (span.offset + 1) (quoted ++ ':' :: ' ' :: value.compact))
    | some last =>
      let text := match ownLine? doc span.offset last.span with
        | some indent =>
          ',' :: '\n' :: indent ++ quoted ++ ':' :: ' ' :: indentLines indent (value.indented 0)
        | none => ',' :: ' ' :: quoted ++ ':' :: ' ' :: value.compact
      .ok (insert doc last.span.stop text)
  | _ => .error (.fix name "target is not an object")

end Edit

end PolicyAudit
