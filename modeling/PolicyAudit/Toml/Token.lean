-- SUMMARY: The tokens of a TOML text.
import PolicyAudit.Json.Quoted

/-! ## Strings

Strings stand between quotation marks, with escapes, or between apostrophes, without. Three marks in
a row open a string that may go over several lines. No control character but the tab stands in a
string. -/

namespace PolicyAudit.Toml

/-- Whether a character may stand in a string or a comment. -/
def isTextChar (c : Char) : Bool := c == '\t' || (0x20 ≤ c.toNat && c.toNat != 0x7F)

/-- The characters between words on a line. -/
def isLineBlank (c : Char) : Bool := c == ' ' || c == '\t'

/-- Whether a text starts with a line end. -/
def startsLineEnd : List Char → Bool
  | '\n' :: _ => true
  | '\r' :: '\n' :: _ => true
  | _ => false

/-- The character that a short escape names. -/
def shortEscape? (c : Char) : Option Char :=
  if c = '"' ∨ c = '\\' then some c
  else if c = 'b' then some '\x08'
  else if c = 't' then some '\t'
  else if c = 'n' then some '\n'
  else if c = 'f' then some '\x0c'
  else if c = 'r' then some '\r'
  else if c = 'e' then some '\x1b'
  else none

/-- The character with the number that hexadecimal digits denote. -/
def scalar? (digits : List Char) : Option Char := do
  let values ← digits.mapM Quoted.hexValue?
  let code := values.foldl (fun acc d => acc * 16 + d) 0
  if code.isValidChar then some (Char.ofNat code) else none

/-- The text that the body of an escaped string stands for. A backslash before the end of a line
takes along all blanks and line ends after it, which `trimming` is about. -/
def unescape (trimming : Bool) : List Char → Option (List Char)
  | [] => some []
  | '\\' :: 'x' :: a :: b :: rest => do
    let c ← scalar? [a, b]
    (unescape false rest).map (c :: ·)
  | '\\' :: 'u' :: a :: b :: c :: d :: rest => do
    let c ← scalar? [a, b, c, d]
    (unescape false rest).map (c :: ·)
  | '\\' :: 'U' :: a :: b :: c :: d :: e :: f :: g :: h :: rest => do
    let c ← scalar? [a, b, c, d, e, f, g, h]
    (unescape false rest).map (c :: ·)
  | '\\' :: c :: rest =>
    match shortEscape? c with
    | some e => (unescape false rest).map (e :: ·)
    | none =>
      if startsLineEnd ((c :: rest).dropWhile isLineBlank) then unescape true rest else none
  | c :: rest =>
    if c = '\\' then none
    else if trimming ∧ (isLineBlank c ∨ c = '\n' ∨ c = '\r') then unescape true rest
    else (unescape false rest).map (c :: ·)

/-- What stands before the end of a string in triple marks, and what after it. The last three of a
row of up to five marks end the string. -/
def blockBody? (mark : Char) (escaped : Bool) : List Char → Option (List Char × List Char)
  | [] => none
  | c :: rest =>
    let marks := ((c :: rest).takeWhile (· = mark)).length
    if ¬escaped ∧ 3 ≤ marks then
      some (List.replicate (min marks 5 - 3) mark, (c :: rest).drop (min marks 5))
    else
      let escaped := !escaped && c == '\\' && mark == '"'
      (blockBody? mark escaped rest).map fun (body, after) => (c :: body, after)

/-- Whether lines hold nothing but text, line ends included. -/
def isBlockText : List Char → Bool
  | [] => true
  | '\n' :: rest => isBlockText rest
  | '\r' :: '\n' :: rest => isBlockText rest
  | c :: rest => isTextChar c && isBlockText rest

/-- The text without a line end at its start. -/
def dropLineEnd : List Char → List Char
  | '\n' :: rest => rest
  | '\r' :: '\n' :: rest => rest
  | rest => rest

/-! ## Tokens -/

/-- A token. Comments count as blanks. -/
inductive Token where
  /-- One of `.`, `,`, `=`, brackets and braces. -/
  | mark (c : Char)
  | lineEnd
  | blank
  /-- A row of other characters. -/
  | word (text : List Char)
  /-- A string on one line. -/
  | quoted (text : String)
  /-- A string in triple marks. -/
  | block (text : String)
deriving DecidableEq, Repr

/-- The characters that are tokens by themselves. -/
def isMark (c : Char) : Bool := ['.', ',', '=', '[', ']', '{', '}'].contains c

/-- The characters of words. -/
def isWordChar (c : Char) : Bool :=
  isTextChar c && !isMark c && !isLineBlank c && c != '"' && c != '\'' && c != '#'

/-- The string in triple marks after its opening, and what follows it. -/
def block? (mark : Char) (text : List Char) : Option (Token × List Char) := do
  let (body, rest) ← blockBody? mark false (dropLineEnd text)
  if isBlockText body then
    let decoded ← if mark = '"' then unescape false body else some body
    some (.block (String.ofList decoded), rest)
  else none

/-- The string in single marks after its opening, and what follows it. -/
def quoted? (mark : Char) (text : List Char) : Option (Token × List Char) :=
  if mark = '"' then
    let q := Quotation.scan text
    if q.closed ∧ q.body.all isTextChar then
      (unescape false q.body).map fun decoded =>
        (.quoted (String.ofList decoded), text.drop (q.body.length + 1))
    else none
  else
    let body := text.takeWhile (· ≠ mark)
    if body.length < text.length ∧ body.all isTextChar then
      some (.quoted (String.ofList body), text.drop (body.length + 1))
    else none

/-- The first token of a text that is not empty, and what follows it. -/
def token? : List Char → Option (Token × List Char)
  | [] => none
  | '\n' :: rest => some (.lineEnd, rest)
  | '\r' :: '\n' :: rest => some (.lineEnd, rest)
  | '"' :: '"' :: '"' :: rest => block? '"' rest
  | '\'' :: '\'' :: '\'' :: rest => block? '\'' rest
  | c :: rest =>
    if isMark c then some (.mark c, rest)
    else if isLineBlank c then some (.blank, rest.dropWhile isLineBlank)
    else if c = '#' then some (.blank, rest.dropWhile isTextChar)
    else if c = '"' ∨ c = '\'' then quoted? c rest
    else if isWordChar c then
      some (.word (c :: rest.takeWhile isWordChar), rest.dropWhile isWordChar)
    else none

/-- The tokens of a text that has at most `room` of them. -/
def tokensWithin? : (room : Nat) → List Char → Option (List Token)
  | _, [] => some []
  | 0, _ => none
  | room + 1, text => do
    let (token, rest) ← token? text
    (tokensWithin? room rest).map (token :: ·)

/-- The tokens of a text, a byte order mark at its start aside. -/
def tokens? (text : List Char) : Option (List Token) :=
  let text := match text with
    | '\uFEFF' :: rest => rest
    | text => text
  tokensWithin? text.length text

end PolicyAudit.Toml
