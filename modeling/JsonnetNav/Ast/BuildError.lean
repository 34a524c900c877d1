import JsonnetNav.Text.Literal

/-! # Why a parse tree node is rejected -/

namespace JsonnetNav

/-- What is wrong with a node. -/
inductive BuildError where
  /-- The node is not of the type that is read here. -/
  | wrongType
  /-- The node has no text of its own. -/
  | missingText
  /-- The node has more or fewer members than it may have. -/
  | wrongCount
  /-- The members of the node cannot be told apart: there are too few, or too many. -/
  | missingParts
  /-- A text that is no operator. -/
  | unknownOperator
  /-- A text that is no visibility mark. -/
  | unknownVisibility
  /-- A text that is no number. -/
  | notANumber
  /-- A string literal without a value. -/
  | literal (error : Text.LiteralError)
  /-- Parentheses with nothing inside. -/
  | emptyParentheses
  /-- Local binds without a body. -/
  | missingBody
  /-- An assertion with no expression after it. -/
  | danglingAssertion
  /-- Two ranges that cannot be merged. -/
  | rangesOutOfOrder
  /-- An object comprehension without exactly one field, or with a fixed key. -/
  | comprehensionField
  /-- An object comprehension without exactly one leading clause. -/
  | comprehensionClause
  deriving Repr, DecidableEq

namespace BuildError

/-- The text shown for an error, if it has one. -/
def message? : BuildError → Option String
  | comprehensionField =>
    some "An object comprehension must have exactly 1 field with a computed key."
  | comprehensionClause => some "An object comprehension must have exactly 1 for-spec."
  | _ => none

end BuildError

end JsonnetNav
