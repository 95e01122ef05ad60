-- SUMMARY: Where in a document a path leads.
import PolicyAudit.Syntax.Document

/-! ## Places of paths

A finding about a value is shown at the name of the member that holds the value, or at the value
itself in an array. Findings about the whole document stand on its first line. Where the tree has no
such part, the last name of the path is looked for in the text. -/

namespace PolicyAudit.Document

/-- How a range was found. -/
inductive Evidence where
  | tree
  | text
  | nothing
deriving DecidableEq, Repr

/-- The range of a path in the tree. -/
def placeInTree? (doc : Document) (path : Path) : Option Range :=
  doc.tree?.bind fun tree =>
    if path.isEmpty then some doc.firstLine
    else
      match tree.memberAt? path with
      | some member => some (doc.rangeOf member.nameSpan)
      | none => (doc.at? path).map fun found => doc.rangeOf found.span

/-- The last name of a path. -/
def lastName? (path : Path) : Option String :=
  path.reverse.findSome? fun
    | .name name => some name
    | .index _ => none

/-- Whether a text starts with a quoted name, blanks and a colon. -/
def startsWithName (quoted text : List Char) : Bool :=
  quoted.isPrefixOf text
    && ((text.drop quoted.length).dropWhile Text.isBlank).head? == some ':'

/-- The number of bytes before the first place that starts with a quoted name, blanks and a
colon. -/
def findName? (quoted : List Char) : List Char → Option Nat
  | [] => none
  | c :: rest =>
    if startsWithName quoted (c :: rest) then some 0
    else (findName? quoted rest).map (c.utf8Size + ·)

/-- The range of the last name of a path where the text first has it as a member's name. -/
def placeInText? (doc : Document) (path : Path) : Option Range :=
  (lastName? path).bind fun name =>
    let quoted := '"' :: name.toList ++ ['"']
    (findName? quoted doc.text.toList).map fun start =>
      .ofOffsets doc.text.toList start (start + Text.byteLength quoted)

/-- The range of a path, and how it was found. -/
def locate (doc : Document) (path : Path) : Range × Evidence :=
  match doc.placeInTree? path with
  | some range => (range, .tree)
  | none =>
    match doc.placeInText? path with
    | some range => (range, .text)
    | none => (doc.firstLine, .nothing)

end PolicyAudit.Document
