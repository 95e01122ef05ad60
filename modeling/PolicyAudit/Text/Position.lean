-- SUMMARY: Lines, columns and ranges of a text.
import PolicyAudit.Text.Offset

/-! ## Positions

A position is a line and a column, both counted from zero. A line feed ends a line, and a column
counts characters, so a position means the same whatever the encoding. -/

namespace PolicyAudit

/-- A place between two characters of a text. -/
structure Position where
  line : Nat
  column : Nat
deriving DecidableEq, Repr, Inhabited

namespace Position

/-- Positions are ordered by line, and on one line by column. -/
def before (p q : Position) : Bool :=
  p.line < q.line || (p.line == q.line && p.column ≤ q.column)

/-- The position after reading one more character. -/
def next (p : Position) (c : Char) : Position :=
  if c = '\n' then ⟨p.line + 1, 0⟩ else ⟨p.line, p.column + 1⟩

/-- The position reached from `p` after the whole characters among the first `offset` bytes. -/
def advance (p : Position) : List Char → Nat → Position
  | [], _ => p
  | c :: cs, offset =>
    if c.utf8Size ≤ offset then (p.next c).advance cs (offset - c.utf8Size) else p

/-- The position of a byte offset. An offset inside a character counts as the start of that
character, and one past the end as the end. -/
def ofOffset (text : List Char) (offset : Nat) : Position := advance ⟨0, 0⟩ text offset

end Position

/-! ## Ranges -/

/-- The part of a text from one position up to another. -/
structure Range where
  start : Position
  stop : Position
deriving DecidableEq, Repr

namespace Range

/-- The empty range at the start of a text. -/
def zero : Range := ⟨⟨0, 0⟩, ⟨0, 0⟩⟩

instance : Inhabited Range := ⟨zero⟩

/-- Whether `inner` lies within `outer`. -/
def contains (outer inner : Range) : Bool :=
  outer.start.before inner.start && inner.stop.before outer.stop

/-- The range of the bytes from `start` up to `stop`, empty when `stop` comes first. -/
def ofOffsets (text : List Char) (start stop : Nat) : Range :=
  ⟨Position.ofOffset text start, Position.ofOffset text (max stop start)⟩

/-- The form shown to people, who count lines and columns from one. The end line is left out when
it is the start line. -/
def render (r : Range) : String :=
  let start := s!"{r.start.line + 1}:{r.start.column + 1}"
  if r.start.line = r.stop.line then
    s!"{start}-{r.stop.column + 1}"
  else
    s!"{start}-{r.stop.line + 1}:{r.stop.column + 1}"

/-- The range of the first line of a text, without its line feed. -/
def firstLine (text : List Char) : Range :=
  ofOffsets text 0 (Text.byteLength (text.takeWhile (· ≠ '\n')))

end Range

end PolicyAudit
