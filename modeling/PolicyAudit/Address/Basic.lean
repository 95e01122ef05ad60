-- SUMMARY: Addresses, their parts, their text and its reading.
import PolicyAudit.Json.Quoted
import PolicyAudit.Text.Split

/-! ## Addresses

An address has a path and up to four parts around it: a scheme, an authority, a query and a fragment.
One without a scheme is relative to another address. Each part admits its own ASCII characters, and
any octet as a percent sign with two hexadecimal digits. -/

namespace PolicyAudit

/-- Who keeps the thing at an address: a host, perhaps with a user and a port. -/
structure Authority where
  user? : Option (List Char)
  host : List Char
  port? : Option (List Char)
deriving DecidableEq, Repr

/-- An address, absolute or relative. -/
structure Address where
  scheme? : Option (List Char)
  authority? : Option Authority
  path : List Char
  query? : Option (List Char)
  fragment? : Option (List Char)
deriving DecidableEq, Repr

/-! ## Writing -/

/-- The text of an authority. -/
def Authority.render (authority : Authority) : List Char :=
  (match authority.user? with
    | some user => user ++ ['@']
    | none => []) ++
  authority.host ++
  (match authority.port? with
    | some port => ':' :: port
    | none => [])

namespace Address

/-- The text of an address. -/
def render (address : Address) : List Char :=
  (match address.scheme? with
    | some scheme => scheme ++ [':']
    | none => []) ++
  (match address.authority? with
    | some authority => '/' :: '/' :: authority.render
    | none => []) ++
  address.path ++
  (match address.query? with
    | some query => '?' :: query
    | none => []) ++
  (match address.fragment? with
    | some fragment => '#' :: fragment
    | none => [])

/-- The text of an address, as a string. -/
def text (address : Address) : String := String.ofList address.render

/-! ## Characters -/

/-- Whether a character is a hexadecimal digit. -/
def isHexDigit (c : Char) : Bool := (Quoted.hexValue? c).isSome

/-- Whether a character means the same as its percent form. -/
def isPlain (c : Char) : Bool := c.isAlphanum || ['-', '.', '_', '~'].contains c

/-- Whether a character sets apart what stands inside one part. -/
def isDelimiter (c : Char) : Bool :=
  ['!', '$', '&', '\'', '(', ')', '*', '+', ',', ';', '='].contains c

/-- The characters of hosts. -/
def isHostChar (c : Char) : Bool := isPlain c || isDelimiter c

/-- The characters of users. -/
def isUserChar (c : Char) : Bool := isHostChar c || c == ':'

/-- The characters of paths. -/
def isPathChar (c : Char) : Bool := isUserChar c || c == '@' || c == '/'

/-- The characters of queries and fragments. -/
def isQueryChar (c : Char) : Bool := isPathChar c || c == '?'

/-- Whether a text has nothing but allowed characters and percent forms. -/
def isWritten (allowed : Char → Bool) : List Char → Bool
  | [] => true
  | '%' :: a :: b :: rest => isHexDigit a && isHexDigit b && isWritten allowed rest
  | c :: rest => c != '%' && allowed c && isWritten allowed rest

/-- Whether a text is a scheme. -/
def isScheme : List Char → Bool
  | [] => false
  | c :: rest =>
    c.isAlpha && rest.all fun c => c.isAlphanum || ['+', '-', '.'].contains c

/-! ## Hosts in brackets -/

/-- Whether a text is a group of a numeric host. -/
def isGroup (text : List Char) : Bool :=
  !text.isEmpty && text.length ≤ 4 && text.all isHexDigit

/-- Whether a text is a decimal octet without superfluous zeros. -/
def isOctet (text : List Char) : Bool :=
  !text.isEmpty && text.length ≤ 3 && text.all Char.isDigit
    && (text.head? != some '0' || text.length == 1)
    && text.foldl (fun acc c => acc * 10 + (c.toNat - '0'.toNat)) 0 < 256

/-- Whether a text is four decimal octets. -/
def isOctets (text : List Char) : Bool :=
  let octets := Text.pieces '.' text
  octets.length == 4 && octets.all isOctet

/-- The number of groups in a row of them, where four octets at the end count for two. -/
def groups? (octetsAllowed : Bool) (text : List Char) : Option Nat :=
  if text.isEmpty then some 0
  else
    let row := Text.pieces ':' text
    if row.all isGroup then some row.length
    else if octetsAllowed && row.dropLast.all isGroup && isOctets (row.getLastD []) then
      some (row.length + 1)
    else none

/-- What stands before and after the first two colons in a row. -/
def splitDoubleColon? : List Char → Option (List Char × List Char)
  | [] => none
  | ':' :: ':' :: rest => some ([], rest)
  | c :: rest => (splitDoubleColon? rest).map fun (before, after) => (c :: before, after)

/-- Whether a text is a numeric host of eight groups, of which two colons may leave some out. -/
def isNumericHost (text : List Char) : Bool :=
  match splitDoubleColon? text with
  | none => groups? true text == some 8
  | some (before, after) =>
    match groups? false before, groups? true after with
    | some n, some m => n + m < 8
    | _, _ => false

/-- Whether a text is a host of a kind that has a version. -/
def isVersionedHost (text : List Char) : Bool :=
  match text with
  | v :: rest =>
    let version := rest.takeWhile isHexDigit
    (v == 'v' || v == 'V') && !version.isEmpty &&
      match rest.drop version.length with
      | '.' :: name => !name.isEmpty && name.all isUserChar
      | _ => false
  | [] => false

/-! ## Octets -/

/-- The octets of a text, percent forms counted as the octets they name. -/
def octets : List Char → List UInt8
  | [] => []
  | '%' :: a :: b :: rest =>
    match Quoted.hexValue? a, Quoted.hexValue? b with
    | some x, some y => (x * 16 + y).toUInt8 :: octets rest
    | _, _ => '%'.toUInt8 :: octets (a :: b :: rest)
  | c :: rest => String.utf8EncodeChar c ++ octets rest

/-- The text that the octets of a written text are the UTF-8 form of. A text without percent forms
stands for itself. -/
def decode? (text : List Char) : Option (List Char) :=
  if text.contains '%' then (String.fromUTF8? ⟨(octets text).toArray⟩).map String.toList
  else some text

/-! ## Reading -/

/-- What stands before the first occurrence of a mark, and what after it. -/
def cut (mark : Char) (text : List Char) : List Char × Option (List Char) :=
  let before := text.takeWhile (· ≠ mark)
  (before, (text.drop before.length).tail?)

/-- The host and the port in a text. -/
def hostAndPort? : List Char → Option (List Char × Option (List Char))
  | '[' :: rest =>
    match cut ']' rest with
    | (inner, some after) =>
      if isNumericHost inner || isVersionedHost inner then
        let host := '[' :: inner ++ [']']
        match after with
        | [] => some (host, none)
        | ':' :: port => if port.all Char.isDigit then some (host, some port) else none
        | _ => none
      else none
    | (_, none) => none
  | text =>
    let (host, port?) := cut ':' text
    if isWritten isHostChar host && (port?.all fun port => port.all Char.isDigit) then
      some (host, port?)
    else none

/-- The authority that a text is. -/
def readAuthority? (text : List Char) : Option Authority :=
  match cut '@' text with
  | (_, none) => (hostAndPort? text).map fun (host, port?) => ⟨none, host, port?⟩
  | (user, some rest) =>
    if isWritten isUserChar user then
      (hostAndPort? rest).map fun (host, port?) => ⟨some user, host, port?⟩
    else none

/-- The scheme before the first colon, which comes before any slash, and the text after it. -/
def splitScheme? (text : List Char) : Option (Option (List Char) × List Char) :=
  let first := text.takeWhile fun c => c ≠ ':' ∧ c ≠ '/'
  match text.drop first.length with
  | ':' :: rest => if isScheme first then some (some first, rest) else none
  | _ => some (none, text)

/-- The authority after two slashes, and the path after it. -/
def splitAuthority? : List Char → Option (Option Authority × List Char)
  | '/' :: '/' :: rest =>
    let first := rest.takeWhile (· ≠ '/')
    (readAuthority? first).map fun authority => (some authority, rest.drop first.length)
  | path => some (none, path)

/-- The address that a text is. -/
def ofText? (text : List Char) : Option Address := do
  let (text, fragment?) := cut '#' text
  let (text, query?) := cut '?' text
  let (scheme?, text) ← splitScheme? text
  let (authority?, path) ← splitAuthority? text
  if isWritten isPathChar path && query?.all (isWritten isQueryChar)
      && fragment?.all (isWritten isQueryChar) then
    some ⟨scheme?, authority?, path, query?, fragment?⟩
  else none

/-- Whether a text is an absolute address. -/
def isAbsolute (text : String) : Bool :=
  (ofText? text.toList).any (·.scheme?.isSome)

/-- Whether a text is an address, absolute or relative. -/
def isReference (text : String) : Bool := (ofText? text.toList).isSome

/-- The address without its fragment. -/
def whole (address : Address) : Address := { address with fragment? := none }

end Address

end PolicyAudit
