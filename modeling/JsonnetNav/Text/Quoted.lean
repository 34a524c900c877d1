import JsonnetNav.Index
import JsonnetNav.Text.Basic

/-! # Quoted, shortened text

A string inside a printed tree stands on one line: it is cut after a number of
characters, line breaks, tabs and quotes are written with a backslash, and what
was cut is replaced by its length.
-/

namespace JsonnetNav

/-- The written form of one code point inside quotes. -/
def CodePoint.quoted (p : CodePoint) : String :=
  if p.val = 0x0A then "\\n"
  else if p.val = 0x09 then "\\t"
  else if p.val = 0x0D then "\\r"
  else if p.val = 0x22 then "\\\""
  else p.display

namespace Text

/-- The text between double quotes, cut at an index. What is said to be cut is the length
    of the text less the index, which for a negative index is more than the text. -/
def quoted (t : Text) (stop : Index := 50) : String :=
  let shown := String.join ((t.take (stop.countBefore t)).map CodePoint.quoted)
  let rest := Int.ofNat t.length - stop
  "\"" ++ shown ++ (if rest ≤ 0 then "" else s!"[{rest} characters]") ++ "\""

end Text

end JsonnetNav
