-- SUMMARY: The compact and the indented form of a JSON value.
import PolicyAudit.Decimal.Shortest
import PolicyAudit.Json.Quoted
import PolicyAudit.Json.Value

/-! ## Scalars -/

namespace PolicyAudit

/-- Doubles are written without an exponent while the leading digit stands between the fifth place
after the point and the sixteenth before it, and a whole number ends in `.0`. An exponent has its
sign. -/
def Number.layout : Decimal.Layout := ⟨-5, 15, ['e'], ['+'], ['.', '0']⟩

/-- The text of a number. A double that is not finite is written as `null`. -/
def Number.render : Number → List Char
  | .int value => (toString value).toList
  | .float value => (Number.layout.writeFloat? value).getD ['n', 'u', 'l', 'l']

/-- The text of a quoted string. -/
def Quoted.render (s : String) : List Char := '"' :: Quoted.encode s.toList ++ ['"']

/-- The text of a scalar. -/
def Scalar.render : Scalar → List Char
  | .null => ['n', 'u', 'l', 'l']
  | .bool true => ['t', 'r', 'u', 'e']
  | .bool false => ['f', 'a', 'l', 's', 'e']
  | .number value => value.render
  | .string value => Quoted.render value

/-! ## The compact form

No blanks at all: `{"a":1,"b":[1,2]}`. -/

namespace Json

mutual

/-- The compact text of a value. -/
def compact : Json → List Char
  | .scalar value => value.render
  | .array items => '[' :: compactItems true items ++ [']']
  | .object members => '{' :: compactMembers true members ++ ['}']

/-- The elements, with a comma before each but the first. -/
def compactItems (first : Bool) : List Json → List Char
  | [] => []
  | item :: rest => (if first then [] else [',']) ++ item.compact ++ compactItems false rest

/-- The members, with a comma before each but the first. -/
def compactMembers (first : Bool) : List (String × Json) → List Char
  | [] => []
  | (name, value) :: rest =>
    (if first then [] else [',']) ++ Quoted.render name ++ ':' :: value.compact
      ++ compactMembers false rest

end

/-! ## The indented form

Each element and each member stands on a line of its own, two blanks further in than its container;
an empty container stays on one line. -/

/-- A line feed and the indentation of a level. -/
def lineBreak (level : Nat) : List Char := '\n' :: List.replicate (2 * level) ' '

mutual

/-- The indented text of a value that stands at a level. -/
def indented (level : Nat) : Json → List Char
  | .scalar value => value.render
  | .array [] => ['[', ']']
  | .array items => '[' :: indentedItems (level + 1) true items ++ lineBreak level ++ [']']
  | .object [] => ['{', '}']
  | .object members => '{' :: indentedMembers (level + 1) true members ++ lineBreak level ++ ['}']

/-- The elements on lines of their own, with a comma before each but the first. -/
def indentedItems (level : Nat) (first : Bool) : List Json → List Char
  | [] => []
  | item :: rest =>
    (if first then [] else [',']) ++ lineBreak level ++ item.indented level
      ++ indentedItems level false rest

/-- The members on lines of their own, with a comma before each but the first. -/
def indentedMembers (level : Nat) (first : Bool) : List (String × Json) → List Char
  | [] => []
  | (name, value) :: rest =>
    (if first then [] else [',']) ++ lineBreak level ++ Quoted.render name ++ ':' :: ' ' ::
      value.indented level ++ indentedMembers level false rest

end

/-- The compact text of a value. -/
def render (value : Json) : String := String.ofList value.compact

/-- The indented text of a value. -/
def pretty (value : Json) : String := String.ofList (value.indented 0)

end Json

end PolicyAudit
