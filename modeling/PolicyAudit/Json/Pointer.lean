-- SUMMARY: JSON pointers, the textual form of paths.
import PolicyAudit.Json.Value
import PolicyAudit.Text.Split

/-! ## Pointers

A pointer writes a slash before each key of a path. In a name `~` is written `~0` and `/` is written
`~1`. Reading takes a token made of digits as a position, as long as it fits 64 bits. -/

namespace PolicyAudit.Pointer

/-- The written form of a name. -/
def escape : List Char → List Char
  | [] => []
  | '~' :: rest => '~' :: '0' :: escape rest
  | '/' :: rest => '~' :: '1' :: escape rest
  | c :: rest => c :: escape rest

/-- The text with `~1` read as a slash, from left to right. -/
def unescapeSlash : List Char → List Char
  | [] => []
  | '~' :: '1' :: rest => '/' :: unescapeSlash rest
  | c :: rest => c :: unescapeSlash rest

/-- The text with `~0` read as a tilde, from left to right. -/
def unescapeTilde : List Char → List Char
  | [] => []
  | '~' :: '0' :: rest => '~' :: unescapeTilde rest
  | c :: rest => c :: unescapeTilde rest

/-- The name that a written form stands for. -/
def unescape (token : List Char) : List Char := unescapeTilde (unescapeSlash token)

/-- The number that a text of decimal digits denotes, when it fits 64 bits. -/
def word? (token : List Char) : Option Nat :=
  if token ≠ [] ∧ token.all Char.isDigit then
    let n := token.foldl (fun acc c => acc * 10 + (c.toNat - '0'.toNat)) 0
    if n < 0x10000000000000000 then some n else none
  else none

/-- The number that a text of decimal digits denotes, perhaps after a plus sign, when it fits 64
bits. -/
def position? : List Char → Option Nat
  | '+' :: digits => word? digits
  | digits => word? digits

/-- The key that a token stands for. -/
def key (token : List Char) : Key :=
  let name := unescape token
  match word? name with
  | some index => .index index
  | none => .name (String.ofList name)

/-- The tokens of a pointer: what stands after its first slash, split at the other slashes. -/
def tokens (pointer : List Char) : List (List Char) := (Text.pieces '/' pointer).tail

/-- The path that a pointer leads along. What stands before its first slash does not count. -/
def read (pointer : String) : Path := (tokens pointer.toList).map key

/-- The written form of a key. -/
def writeKey : Key → List Char
  | .name name => escape name.toList
  | .index index => (toString index).toList

/-- The pointer of a path. -/
def write (path : Path) : String :=
  String.ofList (path.flatMap fun key => '/' :: writeKey key)

end PolicyAudit.Pointer
