-- SUMMARY: The pieces of a text between marks.

/-! ## Pieces

A text with `n` marks has `n + 1` pieces, some of them perhaps empty. -/

namespace PolicyAudit.Text

/-- The pieces of a text between the occurrences of a mark. -/
def pieces (mark : Char) : List Char → List (List Char)
  | [] => [[]]
  | c :: rest =>
    if c = mark then [] :: pieces mark rest
    else
      match pieces mark rest with
      | [] => [[c]]
      | piece :: others => (c :: piece) :: others

/-- The pieces of a string between the occurrences of a mark. -/
def split (mark : Char) (text : String) : List String :=
  (pieces mark text.toList).map String.ofList

end PolicyAudit.Text
