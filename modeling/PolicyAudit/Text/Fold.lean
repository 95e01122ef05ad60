-- SUMMARY: ASCII case folding and substring search.

/-! ## Letters without case

Names and scope paths are compared with the case of ASCII letters ignored and all other characters
taken as they are. -/

namespace PolicyAudit.Text

/-- The text with its ASCII letters in lower case. -/
def foldCase (s : String) : String := String.ofList (s.toList.map Char.toLower)

/-- Whether two texts differ at most in the case of ASCII letters. -/
def sameFolded (a b : String) : Bool := foldCase a == foldCase b

/-! ## Substrings -/

/-- Whether `needle` occurs in a text. -/
def occursIn (needle : List Char) : List Char → Bool
  | [] => needle.isEmpty
  | c :: cs => needle.isPrefixOf (c :: cs) || occursIn needle cs

/-- Whether `needle` occurs in `text`. -/
def contains (text needle : String) : Bool := occursIn needle.toList text.toList

theorem occursIn_iff (needle text : List Char) :
    occursIn needle text = true ↔ needle <:+: text := by
  induction text with
  | nil => simp [occursIn, List.isEmpty_iff]
  | cons c cs ih => simp [occursIn, ih, List.infix_cons_iff]

end PolicyAudit.Text
