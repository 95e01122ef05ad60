-- SUMMARY: TOML values and the growth of tables.
import PolicyAudit.Keyed

/-! ## Values

A table or an array remembers how it came to be, because that decides what later lines of its text
may add to it. -/

namespace PolicyAudit

/-- How a table or an array came to be. -/
inductive Standing where
  /-- Written between braces or brackets, and complete. -/
  | closed
  /-- Opened by a header of its own. -/
  | headed
  /-- Passed through by the header of another table. -/
  | implied
  /-- Passed through by a dotted key. -/
  | dotted
deriving DecidableEq, Repr

/-- A TOML value. -/
inductive Toml where
  | string (text : String)
  | integer (value : Int)
  | boolean (value : Bool)
  /-- A number that is not written as an integer. -/
  | float (text : String)
  | array (standing : Standing) (items : List Toml)
  | table (standing : Standing) (entries : List (String × Toml))
deriving Repr

namespace Toml

instance : Inhabited Toml := ⟨.table .closed []⟩

/-- The text of a string. -/
def string? : Toml → Option String
  | .string text => some text
  | _ => none

/-- The value of a truth value. -/
def bool? : Toml → Option Bool
  | .boolean value => some value
  | _ => none

/-- The value of an integer that is a natural number below 2^64. -/
def nat? : Toml → Option Nat
  | .integer value => if 0 ≤ value ∧ value < 0x10000000000000000 then some value.toNat else none
  | _ => none

/-- The elements of an array. -/
def items? : Toml → Option (List Toml)
  | .array _ items => some items
  | _ => none

/-- The entries of a table. -/
def entries? : Toml → Option (Keyed Toml)
  | .table _ entries => some entries
  | _ => none

/-! ## Growth

A path of keys leads from a table to one further in, which is made where there is none. It leads
into the last table of an array of headed tables, never into what is closed, and a dotted key never
into a table with a header of its own. -/

/-- Changes the table that a path of keys leads to. -/
def descend? (isDotted : Bool) (change : Toml → Option Toml) : List String → Toml → Option Toml
  | [], value => change value
  | key :: path, .table standing entries => do
    let child ← match Keyed.find? key entries with
      | none => descend? isDotted change path (.table (if isDotted then .dotted else .implied) [])
      | some (.table .closed _) => none
      | some (.table .headed inner) =>
        if isDotted then none else descend? isDotted change path (.table .headed inner)
      | some (.table standing inner) => descend? isDotted change path (.table standing inner)
      | some (.array .headed items) => do
        let last ← items.getLast?
        let last ← descend? isDotted change path last
        some (.array .headed (items.dropLast ++ [last]))
      | some _ => none
    some (.table standing (Keyed.insert key child entries))
  | _ :: _, _ => none

/-- Opens the table called `key`, which has no header yet. -/
def openTable? (key : String) : Toml → Option Toml
  | .table standing entries =>
    match Keyed.find? key entries with
    | none => some (.table standing (Keyed.insert key (.table .headed []) entries))
    | some (.table .implied inner) =>
      some (.table standing (Keyed.insert key (.table .headed inner) entries))
    | some _ => none
  | _ => none

/-- Opens one more table in the array called `key`. -/
def openElement? (key : String) : Toml → Option Toml
  | .table standing entries =>
    let items? := match Keyed.find? key entries with
      | none => some []
      | some (.array .headed items) => some items
      | some _ => none
    items?.map fun items =>
      .table standing (Keyed.insert key (.array .headed (items ++ [.table .headed []])) entries)
  | _ => none

/-- Binds `key`, which is not bound yet, in a table that dotted keys made or no dotted key did. -/
def bind? (isDotted : Bool) (key : String) (value : Toml) : Toml → Option Toml
  | .table standing entries =>
    if (standing = .dotted) ≠ (isDotted = true) then none
    else
      match Keyed.find? key entries with
      | none => some (.table standing (Keyed.insert key value entries))
      | some _ => none
  | _ => none

/-- Binds a dotted key in a table: the last part inside the table that the others lead to. -/
def assign? (path : List String) (key : String) (value table : Toml) : Option Toml :=
  descend? (!path.isEmpty) (bind? (!path.isEmpty) key value) path table

end Toml

end PolicyAudit
