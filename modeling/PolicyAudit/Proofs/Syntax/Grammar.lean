-- SUMMARY: The grammar of documents: gaps, literals, values and what they stand for.
import PolicyAudit.Syntax.Document

/-! ## Gaps

Blanks and comments may stand between any two tokens. A line comment goes up to the next line feed, and
only at the end of the text may the line feed be missing. A block comment is closed by the first `*/`
after its opening, so `/*/` is still open. -/

namespace PolicyAudit

/-- Blanks and comments that any text may follow. -/
inductive Gap : List Char → Prop
  | nil : Gap []
  | blank {c : Char} {s : List Char} (hc : isGap c = true) : Gap s → Gap (c :: s)
  | lineComment {body s : List Char} (hbody : '\n' ∉ body) :
      Gap s → Gap ('/' :: '/' :: (body ++ '\n' :: s))
  | blockComment {body s : List Char} (hbody : ¬['*', '/'] <:+: body ++ ['*']) :
      Gap s → Gap ('/' :: '*' :: (body ++ '*' :: '/' :: s))

/-- Blanks and comments at the end of a text, the last one perhaps a line comment without a line
feed. -/
inductive FinalGap : List Char → Prop
  | closed {s : List Char} : Gap s → FinalGap s
  | lineComment {s body : List Char} (hbody : '\n' ∉ body) :
      Gap s → FinalGap (s ++ '/' :: '/' :: body)

theorem Gap.append {s t : List Char} (hs : Gap s) (ht : Gap t) : Gap (s ++ t) := by
  induction hs with
  | nil => exact ht
  | blank hc _ ih => exact .blank hc ih
  | lineComment hbody _ ih => simpa using Gap.lineComment hbody ih
  | blockComment hbody _ ih => simpa using Gap.blockComment hbody ih

theorem FinalGap.append {s t : List Char} (hs : Gap s) (ht : FinalGap t) : FinalGap (s ++ t) := by
  cases ht with
  | closed ht => exact .closed (hs.append ht)
  | lineComment hbody ht =>
    rw [← List.append_assoc]
    exact .lineComment hbody (hs.append ht)

/-! ## Values

Strings and numbers are written as in strict JSON. Members and elements are separated by commas, and one
more comma may follow the last of them. Of the members of one name the first counts. -/

/-- How a value without parts is written. -/
inductive Literal : Scalar → List Char → Prop
  | null : Literal .null "null".toList
  | true : Literal (.bool true) "true".toList
  | false : Literal (.bool false) "false".toList
  | number {n : Number} {w : List Char} : Number.ofChars? w = some n → Literal (.number n) w
  | string {body text : List Char} : Quoted.decode body = some text →
      Literal (.string (String.ofList text)) ('"' :: (body ++ ['"']))

/-- What a stretch of text can stand for. -/
inductive Phrase where
  | value (value : Json)
  /-- What stands between the brackets of an array. -/
  | items (items : List Json)
  | member (name : String) (value : Json)
  /-- What stands between the braces of an object, duplicates included. -/
  | members (members : List (String × Json))

/-- Whether a stretch of text inside `depth` containers is written for a phrase. Only so many containers
may stand around a value. -/
inductive Spells : (depth : Nat) → Phrase → List Char → Prop
  | scalar {depth : Nat} {value : Scalar} {w : List Char} (hdepth : depth ≤ Document.maxDepth)
      (hw : Literal value w) : Spells depth (.value (.scalar value)) w
  | array {depth : Nat} {items : List Json} {w : List Char} (hdepth : depth ≤ Document.maxDepth)
      (hw : Spells (depth + 1) (.items items) w) :
      Spells depth (.value (.array items)) ('[' :: (w ++ [']']))
  | object {depth : Nat} {members : List (String × Json)} {w : List Char}
      (hdepth : depth ≤ Document.maxDepth) (hw : Spells (depth + 1) (.members members) w) :
      Spells depth (.value (.ofMembers members)) ('{' :: (w ++ ['}']))
  | noItem {depth : Nat} {g : List Char} (hg : Gap g) : Spells depth (.items []) g
  | lastItem {depth : Nat} {value : Json} {g w g' : List Char} (hg : Gap g)
      (hw : Spells depth (.value value) w) (hg' : Gap g') :
      Spells depth (.items [value]) (g ++ (w ++ g'))
  | consItem {depth : Nat} {value : Json} {items : List Json} {g w g' rest : List Char} (hg : Gap g)
      (hw : Spells depth (.value value) w) (hg' : Gap g')
      (hrest : Spells depth (.items items) rest) :
      Spells depth (.items (value :: items)) (g ++ (w ++ (g' ++ ',' :: rest)))
  | named {depth : Nat} {name : String} {value : Json} {k g g' w : List Char}
      (hk : Literal (.string name) k) (hg : Gap g) (hg' : Gap g')
      (hw : Spells depth (.value value) w) :
      Spells depth (.member name value) (k ++ (g ++ ':' :: (g' ++ w)))
  | noMember {depth : Nat} {g : List Char} (hg : Gap g) : Spells depth (.members []) g
  | lastMember {depth : Nat} {name : String} {value : Json} {g w g' : List Char} (hg : Gap g)
      (hw : Spells depth (.member name value) w) (hg' : Gap g') :
      Spells depth (.members [(name, value)]) (g ++ (w ++ g'))
  | consMember {depth : Nat} {name : String} {value : Json} {members : List (String × Json)}
      {g w g' rest : List Char} (hg : Gap g) (hw : Spells depth (.member name value) w)
      (hg' : Gap g') (hrest : Spells depth (.members members) rest) :
      Spells depth (.members ((name, value) :: members)) (g ++ (w ++ (g' ++ ',' :: rest)))

/-- Whether a text is a document with a value: the value between gaps. -/
def SpellsDocument (value : Json) (text : List Char) : Prop :=
  ∃ g w g', Gap g ∧ Spells 0 (.value value) w ∧ FinalGap g' ∧ text = g ++ (w ++ g')

end PolicyAudit
