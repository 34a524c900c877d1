import JsonnetNav.Text.Escape
import JsonnetNav.Text.Dedent

/-! # String literals

How the content of a string literal is read depends on what opens it: a text
block loses its first line and its common indentation, a verbatim string is taken
as it is, and in any other string backslash escapes are replaced.
-/

namespace JsonnetNav.Text

/-- Why the content of a literal has no value. -/
inductive LiteralError where
  /-- A text block with no line break after its opening. -/
  | missingLineBreak
  /-- An escape that is cut short or spells no code point. -/
  | malformedEscape
  deriving Repr, DecidableEq

/-- The lines after the first one, or `none` if there is only one line. -/
def afterFirstLine? (content : List Char) : Option (List Char) :=
  match content.dropWhile (· ≠ '\n') with
  | [] => none
  | _ :: rest => some rest

/-- The value of the string literal with this opening and this content. -/
def literalValue (opening content : String) : Except LiteralError Text :=
  if opening = "|||" then
    match afterFirstLine? content.toList with
    | some rest => .ok ((Dedent.dedent rest).map CodePoint.ofChar)
    | none => .error .missingLineBreak
  else if opening = "@\"" ∨ opening = "@'" then .ok (ofString content)
  else
    match Escape.decode? content with
    | some value => .ok value
    | none => .error .malformedEscape

end JsonnetNav.Text
