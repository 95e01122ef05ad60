-- SUMMARY: The extent of blanks, comments, strings and skipped text.
import PolicyAudit.Json.Numeral
import PolicyAudit.Json.Quoted
import PolicyAudit.Text.Blank
import PolicyAudit.Text.Offset

/-! ## Trivia

Trivia are blanks and comments. A line comment runs from `//` up to the line feed, and a block comment
from `/*` through the first `*/` after it. A block comment that is not closed runs to the end. -/

namespace PolicyAudit

/-- The blanks that may stand between tokens. -/
def isGap (c : Char) : Bool := c == ' ' || c == '\t' || c == '\n' || c == '\r'

/-- How much trivia stands at the start of a text. -/
structure Trivia where
  /-- The number of characters. -/
  length : Nat
  /-- The number of bytes of a comment that is still open where the text ends. -/
  open? : Option Nat
deriving Repr, DecidableEq

namespace Trivia

/-- What the text being scanned is part of. -/
inductive Mode where
  | plain
  | lineComment
  | blockComment (bytes : Nat)

/-- The same with `n` more characters in front. -/
def add (n : Nat) (t : Trivia) : Trivia := { t with length := t.length + n }

/-- The trivia at the start of a text. -/
def scan : Mode → List Char → Trivia
  | .plain, '/' :: '/' :: rest => (scan .lineComment rest).add 2
  | .plain, '/' :: '*' :: rest => (scan (.blockComment 2) rest).add 2
  | .plain, c :: rest => if isGap c then (scan .plain rest).add 1 else ⟨0, none⟩
  | .lineComment, '\n' :: rest => (scan .plain rest).add 1
  | .lineComment, _ :: rest => (scan .lineComment rest).add 1
  | .blockComment _, '*' :: '/' :: rest => (scan .plain rest).add 2
  | .blockComment n, c :: rest => (scan (.blockComment (n + c.utf8Size)) rest).add 1
  | .blockComment n, [] => ⟨0, some n⟩
  | _, [] => ⟨0, none⟩

@[simp] theorem scan_nil : scan .plain [] = ⟨0, none⟩ := by
  simp [scan]

/-- The trivia at the start of a text. -/
def ofText (text : List Char) : Trivia := scan .plain text

end Trivia

/-! ## Strings -/

namespace Quotation

/-- What a quoted string says. One that is not closed says what stands in it up to its trailing
blanks, and one with an escape that means nothing says what is written. -/
def text (q : Quotation) : String :=
  String.ofList <|
    if q.closed then (Quoted.decode q.body).getD q.body else Text.trimEnd q.body

end Quotation

/-! ## Skipped text

After a fault, reading goes on at the next comma or closing bracket of the container it is in. What
lies inside strings and inner containers does not count. -/

namespace Junk

/-- Whether the text being skipped is inside a string, and in how many inner containers. -/
inductive Mode where
  | outside (depth : Nat)
  | inside (depth : Nat)

/-- The number of characters before the next comma of the container, or before a bracket that closes
more than was opened. -/
def scan : Mode → List Char → Nat
  | _, [] => 0
  | .inside depth, '"' :: rest => scan (.outside depth) rest + 1
  | .inside depth, '\n' :: rest => scan (.outside depth) rest + 1
  | .inside depth, '\\' :: _ :: rest => scan (.inside depth) rest + 2
  | .inside depth, _ :: rest => scan (.inside depth) rest + 1
  | .outside depth, c :: rest =>
    if c = '"' then scan (.inside depth) rest + 1
    else if c = '{' ∨ c = '[' then scan (.outside (depth + 1)) rest + 1
    else if c = '}' ∨ c = ']' then
      if 0 < depth then scan (.outside (depth - 1)) rest + 1 else 0
    else if depth = 0 ∧ c = ',' then 0
    else scan (.outside depth) rest + 1

/-- The number of characters to skip. -/
def length (text : List Char) : Nat := scan (.outside 0) text

end Junk

end PolicyAudit
