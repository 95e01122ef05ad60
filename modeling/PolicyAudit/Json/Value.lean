-- SUMMARY: JSON values, their members and elements, and paths into them.
import PolicyAudit.Keyed

/-! ## Values

A number is exact when its text is an integer of 64 bits, signed or unsigned, and a double otherwise.
Reading keeps the members of an object by ascending name, so equal objects have one form. A value
that is made to be written may list its members in the order in which they are to be shown. -/

namespace PolicyAudit

/-- A JSON number. -/
inductive Number where
  | int (value : Int)
  | float (value : Float)
deriving Repr, Inhabited

/-- A value without parts. -/
inductive Scalar where
  | null
  | bool (value : Bool)
  | number (value : Number)
  | string (value : String)
deriving Repr, Inhabited

/-- A JSON value. -/
inductive Json where
  | scalar (value : Scalar)
  | array (items : List Json)
  | object (members : List (String × Json))
deriving Repr

namespace Json

instance : Inhabited Json := ⟨.scalar .null⟩

/-- The value `null`. -/
@[match_pattern] abbrev null : Json := .scalar .null

/-- A truth value. -/
@[match_pattern] abbrev bool (value : Bool) : Json := .scalar (.bool value)

/-- A string value. -/
@[match_pattern] abbrev string (value : String) : Json := .scalar (.string value)

/-- A number value. -/
@[match_pattern] abbrev number (value : Number) : Json := .scalar (.number value)

/-- A natural number as a value. -/
abbrev nat (value : Nat) : Json := .number (.int value)

/-- The object with the given members. Of two members of one name the first counts. -/
def ofMembers (members : List (String × Json)) : Json :=
  .object (members.foldl (fun acc (name, value) => Keyed.insertNew name value acc) [])

/-! ## Looking into a value -/

/-- The members of an object. -/
def members? : Json → Option (Keyed Json)
  | .object members => some members
  | _ => none

/-- The elements of an array. -/
def items? : Json → Option (List Json)
  | .array items => some items
  | _ => none

/-- The text of a string. -/
def string? : Json → Option String
  | .string value => some value
  | _ => none

/-- The value of a number that is a natural number below 2^64. -/
def nat? : Json → Option Nat
  | .number (.int value) => if 0 ≤ value ∧ value < 0x10000000000000000 then some value.toNat else none
  | _ => none

/-- The value of a truth value. -/
def bool? : Json → Option Bool
  | .bool value => some value
  | _ => none

def isObject : Json → Bool
  | .object _ => true
  | _ => false

def isArray : Json → Bool
  | .array _ => true
  | _ => false

/-- The value of the member called `name`. -/
def get? (value : Json) (name : String) : Option Json :=
  value.members?.bind (Keyed.find? name)

/-- The object without the member called `name`. -/
def erase (value : Json) (name : String) : Json :=
  match value with
  | .object members => .object (Keyed.erase name members)
  | value => value

/-- The value of a member is smaller than the object. -/
theorem sizeOf_get?_lt {value found : Json} {name : String}
    (h : value.get? name = some found) : sizeOf found < sizeOf value := by
  cases value with
  | object members =>
    have hf : Keyed.find? name members = some found := h
    suffices sizeOf found < sizeOf members by simp; omega
    clear h
    induction members with
    | nil => simp at hf
    | cons e rest ih =>
      obtain ⟨k, v⟩ := e
      simp only [Keyed.find?_cons] at hf
      split at hf
      · simp only [Option.some.injEq] at hf; subst hf; simp; omega
      · have := ih hf; simp; omega
  | _ => simp [get?, members?] at h

end Json

/-! ## Paths -/

/-- One way into a value: the name of a member or the position of an element. -/
inductive Key where
  | name (name : String)
  | index (index : Nat)
deriving DecidableEq, Repr, Inhabited

/-- The way from a value to one of its parts. -/
abbrev Path : Type := List Key

namespace Json

/-- The member or element that a key leads to. -/
def child? : Json → Key → Option Json
  | .object members, .name name => Keyed.find? name members
  | .array items, .index index => items[index]?
  | _, _ => none

/-- The part of a value at a path. -/
def at? (value : Json) : Path → Option Json
  | [] => some value
  | key :: path => (value.child? key).bind (·.at? path)

/-- A name leads from an object to its member of that name, and a position from an array to the element there.
Nothing else leads anywhere. -/
theorem child?_cases {value child : Json} {key : Key} (h : value.child? key = some child) :
    (∃ members name, value = .object members ∧ key = .name name ∧ Keyed.find? name members = some child) ∨
    ∃ items index, value = .array items ∧ key = .index index ∧ items[index]? = some child := by
  cases value with
  | object members =>
    cases key with
    | name name => exact .inl ⟨members, name, rfl, rfl, h⟩
    | index index => cases h
  | array items =>
    cases key with
    | name name => cases h
    | index index => exact .inr ⟨items, index, rfl, rfl, h⟩
  | scalar value => cases h

@[simp] theorem at?_nil (value : Json) : value.at? [] = some value := by
  simp [at?]

theorem at?_cons (value : Json) (key : Key) (path : Path) :
    value.at? (key :: path) = (value.child? key).bind (·.at? path) := by
  rw [at?]

/-- Following two paths in turn is following the first and then the second. -/
theorem at?_append (value : Json) (p q : Path) :
    value.at? (p ++ q) = (value.at? p).bind (·.at? q) := by
  induction p generalizing value with
  | nil => simp
  | cons key p ih =>
    rw [List.cons_append, at?_cons, at?_cons]
    cases value.child? key with
    | none => rfl
    | some found => exact ih found

end Json

end PolicyAudit
