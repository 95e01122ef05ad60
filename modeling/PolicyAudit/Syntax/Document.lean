-- SUMMARY: Documents: a text, its tree, its faults and its places.
import PolicyAudit.Syntax.Reader
import PolicyAudit.Text.Position

/-! ## Documents -/

namespace PolicyAudit

/-- A text together with what reading it found. -/
structure Document where
  text : String
  /-- The tree, unless nothing could be read. -/
  tree? : Option Tree
  /-- The faults in the order they were met. -/
  errors : List SyntaxError
deriving Repr

namespace Document

/-- The greatest number of containers around a value. -/
def maxDepth : Nat := 128

/-- Reads the value of a document. There must be something to read. -/
def readRoot (c : Cursor) : Reading c (Option Tree) :=
  if c.rest = [] then (c.fault .emptyDocument 0).map fun _ => none
  else c.readValue (maxDepth + 1)

/-- The fault that a text goes on where the document has ended. -/
def trailingErrors (c : Cursor) : List SyntaxError :=
  if c.rest = [] then [] else [⟨.trailingContent, ⟨c.pos, Text.byteLength c.rest⟩⟩]

/-- Reads a text. -/
def ofText (text : String) : Document :=
  let start : Cursor := ⟨0, text.toList⟩
  let gap := start.readTrivia
  let root := readRoot gap.next
  let trailing := root.next.readTrivia
  { text
    tree? := root.result
    errors := gap.errors ++ root.errors ++ trailing.errors ++
      if root.result.isSome then trailingErrors trailing.next else [] }

/-- The value, unless nothing could be read. -/
def value? (doc : Document) : Option Json := doc.tree?.map Tree.toJson

/-- Whether the text was read without a fault. -/
def isClean (doc : Document) : Bool := doc.errors.isEmpty && doc.tree?.isSome

/-- The part of the tree at a path. -/
def at? (doc : Document) (path : Path) : Option Tree := doc.tree?.bind (·.at? path)

/-! ## Places -/

/-- The lines and columns of a span. -/
def rangeOf (doc : Document) (span : Span) : Range :=
  .ofOffsets doc.text.toList span.offset span.stop

/-- The first line. -/
def firstLine (doc : Document) : Range := .firstLine doc.text.toList

/-- The lines and columns of the part at a path, or else the first line. -/
def rangeAt (doc : Document) (path : Path) : Range :=
  match doc.at? path with
  | some tree => doc.rangeOf tree.span
  | none => doc.firstLine

end Document

end PolicyAudit
