-- SUMMARY: Reading TOML.
import PolicyAudit.Text.Split
import PolicyAudit.Toml.Token
import PolicyAudit.Toml.Value

/-! ## Numbers

The digits of a number may be grouped by single underscores. A decimal integer has no superfluous
zeros; an unsigned one may be hexadecimal, octal or binary. An integer fits 128 bits, with a sign or
without. Dates are not read. -/

namespace PolicyAudit.Toml

/-- The digits of a numeral, without the underscores between them. -/
def digits? (isDigit : Char → Bool) (text : List Char) : Option (List Char) :=
  let groups := Text.pieces '_' text
  if groups.all fun group => !group.isEmpty && group.all isDigit then some groups.flatten else none

/-- The number that digits denote in a base. -/
def valueOf (base : Nat) (digits : List Char) : Nat :=
  digits.foldl (fun acc c => acc * base + (Quoted.hexValue? c).getD 0) 0

/-- Whether a character is a digit of a base of sixteen at most. -/
def isDigitOf (base : Nat) (c : Char) : Bool := (Quoted.hexValue? c).any (· < base)

/-- The number that a numeral of a base denotes. -/
def natural? (base : Nat) (text : List Char) : Option Nat :=
  (digits? (isDigitOf base) text).map (valueOf base)

/-- The number that a decimal numeral without superfluous zeros denotes. -/
def decimal? (text : List Char) : Option Nat :=
  if text.head? = some '0' ∧ text ≠ ['0'] then none else natural? 10 text

/-- A text without the sign before it, and whether that is a minus sign. -/
def splitSign : List Char → Bool × List Char
  | '-' :: rest => (true, rest)
  | '+' :: rest => (false, rest)
  | rest => (false, rest)

/-- Whether an integer fits 128 bits, with a sign or without. -/
def fits (value : Int) : Bool := -0x80000000000000000000000000000000 ≤ value && value < 0x100000000000000000000000000000000

/-- The integer that a word denotes, of any size. -/
def unbounded? : List Char → Option Int
  | '0' :: 'x' :: rest => (natural? 16 rest).map Int.ofNat
  | '0' :: 'o' :: rest => (natural? 8 rest).map Int.ofNat
  | '0' :: 'b' :: rest => (natural? 2 rest).map Int.ofNat
  | word =>
    let (negative, rest) := splitSign word
    (decimal? rest).map fun n => if negative then -Int.ofNat n else Int.ofNat n

/-- The integer that a word denotes. -/
def integer? (word : List Char) : Option Int := (unbounded? word).filter fits

/-- Whether a word is a number with a fraction or an exponent, or no finite number. -/
def isFloat (word : List Char) : Bool :=
  let (_, rest) := splitSign word
  let whole := rest.takeWhile fun c => c != '.' && c != 'e' && c != 'E'
  let digits (text : List Char) : Bool := (natural? 10 text).isSome
  let isExponent (text : List Char) : Bool := digits (splitSign text).2
  rest = ['i', 'n', 'f'] || rest = ['n', 'a', 'n'] ||
    ((decimal? whole).isSome && match rest.drop whole.length with
      | '.' :: tail =>
        let fraction := tail.takeWhile fun c => c != 'e' && c != 'E'
        digits fraction && match tail.drop fraction.length with
          | [] => true
          | _ :: exponent => isExponent exponent
      | _ :: exponent => isExponent exponent
      | [] => false)

/-- The value of a word that is no string. -/
def wordValue? (word : List Char) : Option Toml :=
  if word = "true".toList then some (.boolean true)
  else if word = "false".toList then some (.boolean false)
  else
    match integer? word with
    | some value => some (.integer value)
    | none => if isFloat word then some (.float (String.ofList word)) else none

/-! ## Keys -/

/-- Whether a word may stand as a key without quotation marks. -/
def isBareKey (word : List Char) : Bool :=
  word.all fun c => c.isAlphanum || c == '_' || c == '-'

/-- The tokens after the blanks of a line. -/
def skipBlanks (tokens : List Token) : List Token := tokens.dropWhile (· = .blank)

/-- The tokens after blanks and line ends. -/
def skipLines (tokens : List Token) : List Token :=
  tokens.dropWhile fun token => token = .blank || token = .lineEnd

/-- One part of a key. -/
def part? : Token → Option String
  | .word text => if isBareKey text then some (String.ofList text) else none
  | .quoted text => some text
  | _ => none

/-- The greatest number of parts of a key, and of brackets and braces around a value. -/
def maxDepth : Nat := 80

/-- A dotted key of at most `room` parts: those before the last, the last, and the tokens after it. -/
def keyWithin? : (room : Nat) → List Token → Option ((List String × String) × List Token)
  | 0, _ => none
  | room + 1, tokens =>
    match skipBlanks tokens with
    | [] => none
    | token :: rest => do
      let first ← part? token
      match skipBlanks rest with
      | .mark '.' :: rest =>
        let ((path, last), rest) ← keyWithin? room rest
        some ((first :: path, last), rest)
      | rest => some (([], first), rest)

/-- A dotted key: the parts before the last, the last, and the tokens after it. -/
def key? (tokens : List Token) : Option ((List String × String) × List Token) :=
  keyWithin? maxDepth tokens

/-! ## Values

Between the tokens of an array or a table in braces there may be line ends and comments, but not
inside a dotted key. -/

/-- The word at the start of tokens, points included. -/
def joinWord : List Token → List Char × List Token
  | .word text :: rest =>
    let (more, rest) := joinWord rest
    (text ++ more, rest)
  | .mark '.' :: rest =>
    let (more, rest) := joinWord rest
    ('.' :: more, rest)
  | rest => ([], rest)

mutual

/-- The value at the start of tokens, with room for `depth` brackets and braces around parts. -/
def readValue? : (room depth : Nat) → List Token → Option (Toml × List Token)
  | room + 1, depth + 1, .mark '[' :: rest =>
    (readItems? room depth rest).map fun (items, rest) => (.array .closed items, rest)
  | room + 1, depth + 1, .mark '{' :: rest => readMembers? room depth (.table .closed []) rest
  | _, _, .quoted text :: rest => some (.string text, rest)
  | _, _, .block text :: rest => some (.string text, rest)
  | _, _, tokens => do
    let (word, rest) := joinWord tokens
    let value ← wordValue? word
    some (value, rest)

/-- The elements of an array up to its closing bracket. -/
def readItems? : (room depth : Nat) → List Token → Option (List Toml × List Token)
  | 0, _, _ => none
  | room + 1, depth, tokens =>
    match skipLines tokens with
    | .mark ']' :: rest => some ([], rest)
    | tokens => do
      let (item, rest) ← readValue? room depth tokens
      match skipLines rest with
      | .mark ',' :: rest =>
        let (items, rest) ← readItems? room depth rest
        some (item :: items, rest)
      | .mark ']' :: rest => some ([item], rest)
      | _ => none

/-- A table with the entries up to its closing brace. -/
def readMembers? : (room depth : Nat) → Toml → List Token → Option (Toml × List Token)
  | 0, _, _, _ => none
  | room + 1, depth, whole, tokens =>
    match skipLines tokens with
    | .mark '}' :: rest => some (whole, rest)
    | tokens => do
      let ((path, key), rest) ← key? tokens
      match skipLines rest with
      | .mark '=' :: rest =>
        let (item, rest) ← readValue? room depth (skipLines rest)
        let whole ← assign? path key item whole
        match skipLines rest with
        | .mark ',' :: rest => readMembers? room depth whole rest
        | .mark '}' :: rest => some (whole, rest)
        | _ => none
      | _ => none

end

/-! ## Documents

A document is a row of lines: headers that open a table, and bindings in the table opened last. -/

/-- What has been read: the whole table, and where the table is that was opened last. -/
structure Progress where
  table : Toml
  place : List String

/-- The rest after the end of a line. -/
def lineEnd? (tokens : List Token) : Option (List Token) :=
  match skipBlanks tokens with
  | [] => some []
  | .lineEnd :: rest => some rest
  | _ => none

/-- The header of one more table of an array, after its opening brackets. -/
def elementHeader? (progress : Progress) (tokens : List Token) : Option (Progress × List Token) := do
  let ((path, key), rest) ← key? tokens
  match rest with
  | .mark ']' :: .mark ']' :: rest =>
    let table ← descend? false (openElement? key) path progress.table
    some (⟨table, path ++ [key]⟩, ← lineEnd? rest)
  | _ => none

/-- The header of a table, after its opening bracket. -/
def tableHeader? (progress : Progress) (tokens : List Token) : Option (Progress × List Token) := do
  let ((path, key), rest) ← key? tokens
  match rest with
  | .mark ']' :: rest =>
    let table ← descend? false (openTable? key) path progress.table
    some (⟨table, path ++ [key]⟩, ← lineEnd? rest)
  | _ => none

/-- A binding in the table opened last. -/
def binding? (progress : Progress) (tokens : List Token) : Option (Progress × List Token) := do
  let ((path, key), rest) ← key? tokens
  match rest with
  | .mark '=' :: rest =>
    let rest := skipBlanks rest
    let (value, rest) ← readValue? (2 * rest.length) maxDepth rest
    let table ← descend? false (assign? path key value) progress.place progress.table
    some (⟨table, progress.place⟩, ← lineEnd? rest)
  | _ => none

/-- Reads the lines of a document that has at most `room` tokens. -/
def lines? : (room : Nat) → Progress → List Token → Option Progress
  | 0, progress, tokens => if tokens.isEmpty then some progress else none
  | room + 1, progress, tokens =>
    match skipLines tokens with
    | [] => some progress
    | .mark '[' :: .mark '[' :: rest => do
      let (progress, rest) ← elementHeader? progress rest
      lines? room progress rest
    | .mark '[' :: rest => do
      let (progress, rest) ← tableHeader? progress rest
      lines? room progress rest
    | tokens => do
      let (progress, rest) ← binding? progress tokens
      lines? room progress rest

/-- The table that a text describes. -/
def ofText? (text : String) : Option Toml := do
  let tokens ← tokens? text.toList
  let progress ← lines? tokens.length ⟨.table .headed [], []⟩ tokens
  some progress.table

end PolicyAudit.Toml
