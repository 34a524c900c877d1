/-! # Common indentation

The margin of a block of lines is the longest run of spaces and tabs that every
line with something else on it starts with. Removing it keeps the lines' relative
indentation; a line of only spaces and tabs becomes empty.
-/

namespace JsonnetNav.Text.Dedent

/-- Spaces and tabs indent a line. -/
def isIndent (c : Char) : Bool :=
  c == ' ' || c == '\t'

/-- The lines of a text, without their line breaks. -/
def splitLines : List Char → List (List Char)
  | [] => [[]]
  | c :: rest =>
    if c = '\n' then [] :: splitLines rest
    else match splitLines rest with
      | line :: lines => (c :: line) :: lines
      | [] => [[c]]

/-- Lines put together with a line break between them. -/
def joinLines : List (List Char) → List Char
  | [] => []
  | [line] => line
  | line :: lines => line ++ '\n' :: joinLines lines

/-- A line of only spaces and tabs has no text on it. -/
def isBlankLine (line : List Char) : Bool :=
  line.all isIndent

/-- The longest common beginning of two lists. -/
def commonStart : List Char → List Char → List Char
  | a :: as, b :: bs => if a = b then a :: commonStart as bs else []
  | _, _ => []

/-- The longest indentation shared by all lines with text on them. -/
def margin (lines : List (List Char)) : List Char :=
  match (lines.filter (!isBlankLine ·)).map (·.takeWhile isIndent) with
  | [] => []
  | indent :: indents => indents.foldl commonStart indent

/-- The text without the indentation that its lines share. -/
def dedent (text : List Char) : List Char :=
  let lines := splitLines text
  let width := (margin lines).length
  joinLines (lines.map fun line => if isBlankLine line then [] else line.drop width)

end JsonnetNav.Text.Dedent
