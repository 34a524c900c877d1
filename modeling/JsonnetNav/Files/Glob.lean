import JsonnetNav.Files.Path

/-! # Glob patterns

A pattern is compared with the whole text of a path. A star stands for a run of
characters within a part, a question mark for one of them, and two stars as a part for
any number of parts.
-/

namespace JsonnetNav

namespace Glob

/-- A piece of a pattern. -/
inductive Atom where
  | point (p : CodePoint)
  /-- One character other than a slash. -/
  | one
  /-- Any number of characters other than slashes. -/
  | run
  /-- Nothing, or at least one character and a slash. -/
  | folders
  /-- Any text. -/
  | rest
  deriving Repr, DecidableEq

/-- The part that stands for any number of parts. -/
def anyParts : Text := .ofString "**"

/-- The part that stands for any one part. -/
def anyPart : Text := .ofString "*"

/-- The pieces of a part. A star that is a part of its own stands for something. -/
def ofPart (part : Text) : List Atom :=
  if part = anyPart then [.one, .run]
  else part.map fun p =>
    if p = .ofChar '*' then .run else if p = .ofChar '?' then .one else .point p

/-- The pieces of the parts of a pattern. Of several parts of two stars in a row only
    the last one counts. -/
def ofParts : List Text → List Atom
  | [] => []
  | part :: parts =>
    if part = anyParts then
      if parts.isEmpty then [.rest]
      else if parts.head? = some anyParts then ofParts parts
      else .folders :: ofParts parts
    else if parts.isEmpty then ofPart part
    else ofPart part ++ .point .separator :: ofParts parts

/-- The pieces of a pattern. -/
def ofString (pattern : String) : List Atom :=
  let path := FilePath.ofString pattern
  path.root.text.map .point ++ ofParts path.parts

/-- What can follow a run of characters other than slashes. -/
def afterRun : Text → List Text
  | [] => [[]]
  | p :: text => (p :: text) :: if p = .separator then [] else afterRun text

/-- What can follow a slash. -/
def afterSlash : Text → List Text
  | [] => []
  | p :: text => if p = .separator then text :: afterSlash text else afterSlash text

/-- All ends of a text. -/
def ends : Text → List Text
  | [] => [[]]
  | p :: text => (p :: text) :: ends text

/-- The pieces stand for the whole text. -/
def covers : List Atom → Text → Bool
  | [], text => text.isEmpty
  | .point _ :: _, [] => false
  | .point p :: atoms, q :: text => p = q && covers atoms text
  | .one :: _, [] => false
  | .one :: atoms, q :: text => q ≠ .separator && covers atoms text
  | .run :: atoms, text => (afterRun text).any (covers atoms)
  | .folders :: atoms, text => covers atoms text || (afterSlash text.tail).any (covers atoms)
  | .rest :: atoms, text => (ends text).any (covers atoms)

end Glob

/-- A way to tell whether a path as a whole fits a pattern. -/
abbrev PatternTest := FilePath → String → Bool

namespace FilePath

/-- The path as a whole fits the pattern. -/
def fits : PatternTest := fun p pattern =>
  Glob.covers (Glob.ofString pattern) p.text

/-- The path as a whole fits one of the patterns. -/
def fitsAny (p : FilePath) (patterns : List String) (test : PatternTest := fits) : Bool :=
  patterns.any (test p)

end FilePath

end JsonnetNav
