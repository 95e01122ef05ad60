-- SUMMARY: What can be wrong with the syntax of a document.
import PolicyAudit.Syntax.Tree

/-! ## Faults -/

namespace PolicyAudit

/-- A fault of syntax. -/
inductive Fault where
  | emptyDocument
  | trailingContent
  | openComment
  | tooDeep
  | noValue
  | openObject
  | openArray
  | noName
  | noColon (name : String)
  | noComma
  | noCommaOrBrace
  | openString
  | badEscape
  | badNumber (text : String)
deriving DecidableEq, Repr

namespace Fault

/-- The message for a fault. -/
def message : Fault → String
  | emptyDocument => "empty document"
  | trailingContent => "unexpected content after document end"
  | openComment => "unterminated block comment"
  | tooDeep => "document nested too deeply"
  | noValue => "expected a value"
  | openObject => "unterminated object"
  | openArray => "unterminated array"
  | noName => "expected property name"
  | noColon name => s!"expected ':' after \"{name}\""
  | noComma => "expected ','"
  | noCommaOrBrace => "expected ',' or '\x7d'"
  | openString => "unterminated string"
  | badEscape => "invalid string escape"
  | badNumber text => s!"invalid number '{text}'"

end Fault

/-- A fault and the place where it was found. -/
structure SyntaxError where
  fault : Fault
  span : Span
deriving DecidableEq, Repr

namespace SyntaxError

/-- The message for a fault at its place. -/
def message (e : SyntaxError) : String := e.fault.message

end SyntaxError

end PolicyAudit
