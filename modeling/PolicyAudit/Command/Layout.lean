-- SUMMARY: Styled text and the layout of results for people.
import PolicyAudit.Lint.Issue

/-! ## Styles

A styled text stands between a sequence that turns its style on and one that turns all styles off.
Without colors, text stays as it is. -/

namespace PolicyAudit

/-- How a text stands out. -/
inductive Style where
  | red
  | green
  | yellow
  | blue
  | cyan
  | bold
  | boldRed
  | dimmed
deriving DecidableEq, Repr

namespace Style

/-- The parameters that turn a style on. -/
def code : Style → String
  | red => "31"
  | green => "32"
  | yellow => "33"
  | blue => "34"
  | cyan => "36"
  | bold => "1"
  | boldRed => "1;31"
  | dimmed => "2"

/-- The sequence that turns a style on. -/
def on (style : Style) : String := "\x1b[" ++ style.code ++ "m"

/-- The sequence that turns all styles off. -/
def off : String := "\x1b[0m"

end Style

/-- Whether text may be colored. -/
structure Palette where
  colored : Bool

namespace Palette

/-- A text in a style, which is turned on again wherever the text turns styles off. -/
def paint (palette : Palette) (style : Style) (text : String) : String :=
  if palette.colored then
    style.on ++ text.replace Style.off (Style.off ++ style.on) ++ Style.off
  else text

/-- The word for a severity. -/
def severity (palette : Palette) (severity : Severity) : String :=
  let style := match severity with
    | .error => Style.boldRed
    | .warning => .yellow
    | .info => .blue
  palette.paint style severity.label

/-! ## Lines -/

/-- A text made longer by blanks at its end. -/
def padEnd (width : Nat) (text : String) : String :=
  text ++ String.ofList (List.replicate (width - text.length) ' ')

/-- A text made longer by blanks at its start. -/
def padStart (width : Nat) (text : String) : String :=
  String.ofList (List.replicate (width - text.length) ' ') ++ text

/-- The lines of a title. -/
def title (palette : Palette) (text : String) : List String := [palette.paint .bold text, ""]

/-- The lines of a heading: its text, and a rule as long as the text has bytes. -/
def heading (palette : Palette) (text : String) : List String :=
  [palette.paint .bold text, String.ofList (List.replicate (max text.utf8ByteSize 3) '-')]

/-- The width of the names of entries. -/
def entryWidth : Nat := 12

/-- The line of a named value. -/
def entry (palette : Palette) (name value : String) : String :=
  palette.paint .dimmed (padEnd entryWidth name) ++ " " ++ value

/-- Lines as they are printed. -/
def print (lines : List String) : String := "\n".intercalate lines ++ "\n"

end Palette

end PolicyAudit
