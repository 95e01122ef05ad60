-- SUMMARY: Reading strict JSON.
import PolicyAudit.Json.Numeral
import PolicyAudit.Json.Quoted
import PolicyAudit.Json.Value

/-! ## Strict JSON

Strict JSON has no comments, no trailing commas and nothing after its value. Of two members of one
name the last counts. A value lies inside at most 127 containers. Each reader returns what is left
of the text, which is shorter than what it was given. -/

namespace PolicyAudit.Json

/-- A text left over from a longer one. -/
private abbrev Shorter (s : List Char) : Type := { r : List Char // r.length < s.length }

/-- The blanks of JSON. -/
def isSpace (c : Char) : Bool := c == ' ' || c == '\t' || c == '\n' || c == '\r'

private def skipSpace (s : List Char) : List Char := s.dropWhile isSpace

private theorem skipSpace_length_le (s : List Char) : (skipSpace s).length ≤ s.length :=
  (List.dropWhile_suffix isSpace).length_le

private theorem length_lt_of_skipSpace {s t : List Char} {c : Char} (h : skipSpace s = c :: t) :
    t.length < s.length :=
  calc t.length < (c :: t).length := Nat.lt_succ_self t.length
    _ = (skipSpace s).length := by rw [h]
    _ ≤ s.length := skipSpace_length_le s

/-- The string after an opening quotation mark. -/
private def readString? (s : List Char) : Option (String × Shorter ('"' :: s)) :=
  let q := Quotation.scan s
  if q.closed then
    (Quoted.decode q.body).map fun text =>
      (String.ofList text, ⟨('"' :: s).drop q.length, by
        have := q.length_pos
        simp only [List.length_drop, List.length_cons]; omega⟩)
  else none

/-- The elements of an array after its opening bracket, one at least. -/
private def readItems? (value : (s : List Char) → Option (Json × Shorter s)) (s : List Char) :
    Option (List Json × Shorter s) :=
  match value s with
  | none => none
  | some (item, ⟨r, hr⟩) =>
    match h : skipSpace r with
    | ',' :: t =>
      have hlt := Nat.lt_trans (length_lt_of_skipSpace h) hr
      have ht := Nat.lt_of_le_of_lt (skipSpace_length_le t) hlt
      match readItems? value (skipSpace t) with
      | none => none
      | some (items, ⟨u, hu⟩) => some (item :: items, ⟨u, Nat.lt_trans hu ht⟩)
    | ']' :: t => some ([item], ⟨t, Nat.lt_trans (length_lt_of_skipSpace h) hr⟩)
    | _ => none
termination_by s.length
decreasing_by exact ht

/-- The members of an object after its opening brace, one at least. -/
private def readMembers? (value : (s : List Char) → Option (Json × Shorter s)) (s : List Char) :
    Option (List (String × Json) × Shorter s) :=
  match s with
  | '"' :: s =>
    match readString? s with
    | none => none
    | some (name, ⟨r, hr⟩) =>
      match h : skipSpace r with
      | ':' :: t =>
        match value (skipSpace t) with
        | none => none
        | some (item, ⟨u, hu⟩) =>
          have ht := Nat.lt_of_lt_of_le hu (skipSpace_length_le t)
          have hut := Nat.lt_trans ht (Nat.lt_trans (length_lt_of_skipSpace h) hr)
          match h' : skipSpace u with
          | ',' :: v =>
            have hlt := Nat.lt_trans (length_lt_of_skipSpace h') hut
            have hv := Nat.lt_of_le_of_lt (skipSpace_length_le v) hlt
            match readMembers? value (skipSpace v) with
            | none => none
            | some (members, ⟨w, hw⟩) => some ((name, item) :: members, ⟨w, Nat.lt_trans hw hv⟩)
          | '}' :: v => some ([(name, item)], ⟨v, Nat.lt_trans (length_lt_of_skipSpace h') hut⟩)
          | _ => none
      | _ => none
  | _ => none
termination_by s.length
decreasing_by exact hv

/-- A fixed word at the start of a text. -/
private def readWord? (word : List Char) (value : Json) (s : List Char) :
    Option (Json × Shorter s) :=
  if h : word.isPrefixOf s ∧ word ≠ [] then
    some (value, ⟨s.drop word.length, by
      have h1 := (List.isPrefixOf_iff_prefix.1 h.1).length_le
      have h2 := List.length_pos_iff.2 h.2
      simp only [List.length_drop]; omega⟩)
  else none

/-- A numeral at the start of a text. -/
private def readNumber? (s : List Char) : Option (Json × Shorter s) :=
  let token := s.takeWhile Numeral.isNumeralChar
  if h : token = [] then none
  else
    (Number.ofChars? token).map fun n => (.number n, ⟨s.drop token.length, by
      have h1 : token.length ≤ s.length := (List.takeWhile_prefix _).length_le
      have h2 := List.length_pos_iff.2 h
      simp only [List.length_drop]; omega⟩)

/-- The value at the start of a text, which may hold `room` levels of containers. -/
private def readValue? : (room : Nat) → (s : List Char) → Option (Json × Shorter s)
  | _, '"' :: s => (readString? s).map fun (text, rest) => (.string text, rest)
  | room + 1, '[' :: s =>
    match h : skipSpace s with
    | ']' :: t => some (.array [], ⟨t, Nat.lt_succ_of_lt (length_lt_of_skipSpace h)⟩)
    | t => (readItems? (readValue? room) t).map fun (items, ⟨u, hu⟩) =>
      (.array items, ⟨u, Nat.lt_succ_of_lt (Nat.lt_of_lt_of_le (h ▸ hu) (skipSpace_length_le s))⟩)
  | room + 1, '{' :: s =>
    match h : skipSpace s with
    | '}' :: t => some (.object [], ⟨t, Nat.lt_succ_of_lt (length_lt_of_skipSpace h)⟩)
    | t => (readMembers? (readValue? room) t).map fun (members, ⟨u, hu⟩) =>
      (.object (members.foldl (fun acc (name, value) => Keyed.insert name value acc) []),
        ⟨u, Nat.lt_succ_of_lt (Nat.lt_of_lt_of_le (h ▸ hu) (skipSpace_length_le s))⟩)
  | _, 't' :: s => readWord? "true".toList (.bool true) ('t' :: s)
  | _, 'f' :: s => readWord? "false".toList (.bool false) ('f' :: s)
  | _, 'n' :: s => readWord? "null".toList .null ('n' :: s)
  | _, s => readNumber? s

/-- The number of containers that strict JSON may nest. -/
private def strictRoom : Nat := 127

/-- The value that a text is strict JSON of. -/
def ofText? (text : String) : Option Json :=
  match readValue? strictRoom (skipSpace text.toList) with
  | some (value, ⟨rest, _⟩) => if (skipSpace rest).isEmpty then some value else none
  | none => none

end PolicyAudit.Json
