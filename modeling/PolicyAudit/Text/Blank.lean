-- SUMMARY: Blank characters and trimming.

/-! ## Blank characters

A character is blank when it has the Unicode property White_Space. Trimming removes blanks from
the ends of a text, and a text is blank when nothing else is in it. -/

namespace PolicyAudit.Text

/-- The characters with the Unicode property White_Space, twenty-five in all. -/
def isBlank (c : Char) : Bool :=
  let n := c.toNat
  (0x09 ≤ n && n ≤ 0x0D) || n == 0x20 || n == 0x85 || n == 0xA0 || n == 0x1680
    || (0x2000 ≤ n && n ≤ 0x200A) || n == 0x2028 || n == 0x2029 || n == 0x202F
    || n == 0x205F || n == 0x3000

/-- The text without its leading blanks. -/
def trimStart (s : List Char) : List Char := s.dropWhile isBlank

/-- The text without its trailing blanks. -/
def trimEnd (s : List Char) : List Char := (s.reverse.dropWhile isBlank).reverse

/-- The text without the blanks at either end. -/
def trim (s : List Char) : List Char := trimEnd (trimStart s)

/-- Whether a text holds blanks only. -/
def blank (s : String) : Bool := s.toList.all isBlank

end PolicyAudit.Text
