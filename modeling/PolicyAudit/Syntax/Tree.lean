-- SUMMARY: Syntax trees with byte spans, and walking and looking into them.
import PolicyAudit.Json.Value

/-! ## Spans -/

namespace PolicyAudit

/-- A stretch of a text, in bytes. -/
structure Span where
  offset : Nat
  length : Nat
deriving DecidableEq, Repr, Inhabited

namespace Span

/-- The byte after the last one. -/
def stop (s : Span) : Nat := s.offset + s.length

/-- The stretch from one offset up to another. -/
def between (start stop : Nat) : Span := ⟨start, stop - start⟩

end Span

/-! ## Trees

A tree keeps the members of an object as they were written: in their order, duplicates included, and
with no value where reading found none. -/

/-- A member of an object. It extends from its name to the end of its value, or to the end of its
name when it has no value. -/
structure Member (ν : Type) where
  span : Span
  name : String
  nameSpan : Span
  value? : Option ν
deriving Repr

/-- A value together with the places of its parts. -/
inductive Tree where
  | object (span : Span) (members : List (Member Tree))
  | array (span : Span) (items : List Tree)
  | scalar (span : Span) (value : Scalar)
deriving Repr, Inhabited

namespace Tree

/-- Where a tree stands in its text. -/
def span : Tree → Span
  | .object span _ | .array span _ | .scalar span _ => span

def isObject : Tree → Bool
  | .object .. => true
  | _ => false

/-- The text of a string. -/
def string? : Tree → Option String
  | .scalar _ (.string value) => some value
  | _ => none

/-- The members of an object, and nothing for any other tree. -/
def members : Tree → List (Member Tree)
  | .object _ members => members
  | _ => []

/-! ## The value of a tree -/

mutual

/-- The value that a tree stands for. Of the members of one name the first that has a value
counts. -/
def toJson : Tree → Json
  | .object _ members => .object (membersToJson [] members)
  | .array _ items => .array (itemsToJson items)
  | .scalar _ value => .scalar value

/-- The values of the elements. -/
def itemsToJson : List Tree → List Json
  | [] => []
  | item :: rest => item.toJson :: itemsToJson rest

/-- Adds the members that have a value and whose name is new. -/
def membersToJson (acc : Keyed Json) : List (Member Tree) → Keyed Json
  | [] => acc
  | ⟨_, name, _, some value⟩ :: rest =>
    membersToJson (Keyed.insertNew name value.toJson acc) rest
  | ⟨_, _, _, none⟩ :: rest => membersToJson acc rest

end

/-! ## Looking into a tree -/

/-- The first member called `name`. -/
def member? (tree : Tree) (name : String) : Option (Member Tree) :=
  tree.members.find? (·.name = name)

/-- The part that a key leads to. A name leads to the value of its first member, if that has one. -/
def child? : Tree → Key → Option Tree
  | .object span members, .name name =>
    ((Tree.object span members).member? name).bind (·.value?)
  | .array _ items, .index index => items[index]?
  | _, _ => none

/-- The part of a tree at a path. -/
def at? (tree : Tree) : Path → Option Tree
  | [] => some tree
  | key :: path => (tree.child? key).bind (·.at? path)

/-- The member that holds the value at a path, whose last key must be a name. -/
def memberAt? (tree : Tree) (path : Path) : Option (Member Tree) :=
  match path.getLast? with
  | some (.name name) => (tree.at? path.dropLast).bind (·.member? name)
  | _ => none

/-- A name leads from an object to the value of its first member of that name, and a position from an array to
the element there. Nothing else leads anywhere. -/
theorem child?_cases {tree sub : Tree} {key : Key} (h : tree.child? key = some sub) :
    (∃ span members name member, tree = .object span members ∧ key = .name name ∧
      members.find? (·.name = name) = some member ∧ member.value? = some sub) ∨
    ∃ span items index, tree = .array span items ∧ key = .index index ∧ items[index]? = some sub := by
  cases tree with
  | object span members =>
    cases key with
    | name name =>
      obtain ⟨member, hmember, hvalue⟩ := Option.bind_eq_some_iff.mp h
      exact .inl ⟨span, members, name, member, rfl, rfl, hmember, hvalue⟩
    | index index => cases h
  | array span items =>
    cases key with
    | name name => cases h
    | index index => exact .inr ⟨span, items, index, rfl, rfl, h⟩
  | scalar span value => cases h

@[simp] theorem at?_nil (tree : Tree) : tree.at? [] = some tree := by
  simp [at?]

theorem at?_cons (tree : Tree) (key : Key) (path : Path) :
    tree.at? (key :: path) = (tree.child? key).bind (·.at? path) := by
  rw [at?]

theorem at?_append (tree : Tree) (p q : Path) :
    tree.at? (p ++ q) = (tree.at? p).bind (·.at? q) := by
  induction p generalizing tree with
  | nil => simp
  | cons key p ih =>
    rw [List.cons_append, at?_cons, at?_cons]
    cases tree.child? key with
    | none => rfl
    | some found => exact ih found

/-! ## Walking a tree

A walk lists every part with its path, each before its own parts, in the order of the text. Members
without a value have nothing to list. -/

mutual

/-- The parts of a tree that stands at `path`. -/
def walkFrom (path : Path) : Tree → List (Path × Tree)
  | .object span members => (path, .object span members) :: walkMembers path members
  | .array span items => (path, .array span items) :: walkItems path 0 items
  | .scalar span value => [(path, .scalar span value)]

/-- The parts of the elements from position `index` on. -/
def walkItems (path : Path) (index : Nat) : List Tree → List (Path × Tree)
  | [] => []
  | item :: rest => item.walkFrom (path ++ [.index index]) ++ walkItems path (index + 1) rest

/-- The parts of the members' values. -/
def walkMembers (path : Path) : List (Member Tree) → List (Path × Tree)
  | [] => []
  | ⟨_, name, _, some value⟩ :: rest =>
    value.walkFrom (path ++ [.name name]) ++ walkMembers path rest
  | ⟨_, _, _, none⟩ :: rest => walkMembers path rest

end

/-- Every part of a tree with its path. -/
def walk (tree : Tree) : List (Path × Tree) := tree.walkFrom []

end Tree

end PolicyAudit
