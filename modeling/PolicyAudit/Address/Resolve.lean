-- SUMMARY: The normal form of addresses, and addresses relative to others.
import PolicyAudit.Address.Basic

/-! ## Normal form

Two addresses with one normal form lead to the same place. Schemes and hosts are in lower case, the
digits of percent forms in upper case, and plain characters have no percent form. A port that the
scheme implies is left out, and a path from the root has no steps to the same or the next higher
level. -/

namespace PolicyAudit.Address

/-- The text with percent forms in normal form, and in lower case otherwise where that is asked
for. -/
def normalizeText (lower : Bool) : List Char → List Char
  | [] => []
  | '%' :: a :: b :: rest =>
    let code := (Quoted.hexValue? a).getD 0 * 16 + (Quoted.hexValue? b).getD 0
    if isPlain (Char.ofNat code) then
      (if lower then (Char.ofNat code).toLower else Char.ofNat code) :: normalizeText lower rest
    else '%' :: a.toUpper :: b.toUpper :: normalizeText lower rest
  | c :: rest => (if lower then c.toLower else c) :: normalizeText lower rest

/-- The segments of a path after those `kept`, last first, with the steps to the same and the next
higher level carried out. -/
def walk (kept : List (List Char)) : List (List Char) → List (List Char)
  | [] => kept.reverse
  | [last] =>
    if last = ['.'] then ([] :: kept).reverse
    else if last = ['.', '.'] then ([] :: kept.tail).reverse
    else (last :: kept).reverse
  | segment :: rest =>
    if segment = ['.'] then walk kept rest
    else if segment = ['.', '.'] then walk kept.tail rest
    else walk (segment :: kept) rest

/-- A path from the root with its steps carried out. -/
def straighten : List Char → List Char
  | '/' :: rest => '/' :: ['/'].intercalate (walk [] (Text.pieces '/' rest))
  | path => path

/-- A path that cannot be taken for an authority. -/
def guardPath (hasAuthority : Bool) : List Char → List Char
  | '/' :: '/' :: rest => if hasAuthority then '/' :: '/' :: rest else '/' :: '.' :: '/' :: '/' :: rest
  | path => path

/-- The ports that schemes imply. -/
def impliedPorts : List (String × String) :=
  [("ftp", "21"), ("http", "80"), ("https", "443"), ("ws", "80"), ("wss", "443")]

/-- A port unless it is empty or implied by the scheme. -/
def normalizePort (scheme? : Option (List Char)) (port? : Option (List Char)) :
    Option (List Char) :=
  port?.filter fun port =>
    !port.isEmpty && !(scheme?.any fun scheme =>
      impliedPorts.contains (String.ofList scheme, String.ofList (port.dropWhile (· = '0'))))

/-- An authority in normal form, after a scheme. -/
def normalizeAuthority (scheme? : Option (List Char)) (authority : Authority) : Authority :=
  ⟨authority.user?.map (normalizeText false), normalizeText true authority.host,
    normalizePort scheme? authority.port?⟩

/-- The normal form of an address. -/
def normalize (address : Address) : Address :=
  let scheme? := address.scheme?.map fun scheme => scheme.map Char.toLower
  let path := normalizeText false address.path
  let path := if scheme?.isSome then straighten path else path
  ⟨scheme?, address.authority?.map (normalizeAuthority scheme?),
    guardPath address.authority?.isSome path, address.query?.map (normalizeText false),
    address.fragment?.map (normalizeText false)⟩

/-! ## Relative addresses -/

/-- A relative path after the last slash of another. -/
def mergePath (base : Address) (path : List Char) : List Char :=
  if base.authority?.isSome ∧ base.path.isEmpty then '/' :: path
  else (base.path.reverse.dropWhile (· ≠ '/')).reverse ++ path

/-- Whether addresses may be relative to this one by their paths. -/
def isHierarchical (base : Address) : Bool :=
  base.authority?.isSome || base.path.head? == some '/'

/-- The absolute address of one that is relative to `base`, parts that it has in place of those of
the base. -/
def against (base reference : Address) : Address :=
  if reference.scheme?.isSome then reference
  else if reference.authority?.isSome then { reference with scheme? := base.scheme? }
  else if reference.path.isEmpty then
    { base with
      query? := if reference.query?.isSome then reference.query? else base.query?
      fragment? := reference.fragment? }
  else
    let path :=
      if reference.path.head? = some '/' then reference.path else mergePath base reference.path
    ⟨base.scheme?, base.authority?, path, reference.query?, reference.fragment?⟩

/-- The address that a text leads to from `base`, in normal form. A base with a fragment leads
nowhere, and one without a hierarchy only to its own fragments and to absolute addresses. -/
def resolve? (base : Address) (text : String) : Option Address := do
  let reference ← ofText? text.toList
  let isOwn := text.isEmpty || text.toList.head? == some '#'
  if base.fragment?.isSome then none
  else if !base.isHierarchical && reference.scheme?.isNone && !isOwn then none
  else some ((base.against reference).normalize)

/-- Where the addresses start that have no other base. -/
def root : Address := ⟨some "json-schema".toList, some ⟨none, [], none⟩, ['/'], none, none⟩

end PolicyAudit.Address
