/-! # Positions, ranges and locations

A position counts lines and the characters in a line from zero. A range runs from
its start up to its stop, and a location is a range in a document.
-/

namespace JsonnetNav

/-- Documents are named by their uri. -/
abbrev Uri := String

/-- A place between two characters of a document. -/
structure Position where
  line : Nat
  character : Nat
  deriving Repr, DecidableEq, Hashable, Inhabited

namespace Position

/-- Positions are ordered by line, and in a line by character. -/
instance : LE Position where
  le a b := a.line < b.line ∨ (a.line = b.line ∧ a.character ≤ b.character)

instance (a b : Position) : Decidable (a ≤ b) :=
  inferInstanceAs (Decidable (_ ∨ _))

def render (p : Position) : String :=
  s!"{p.line}:{p.character}"

end Position

/-- A stretch of a document. -/
structure Range where
  start : Position
  stop : Position
  deriving Repr, DecidableEq, Hashable, Inhabited

namespace Range

/-- The empty range at a position. -/
def point (p : Position) : Range :=
  ⟨p, p⟩

/-- The range between two positions given by their lines and characters. -/
def ofNats (startLine startCharacter stopLine stopCharacter : Nat) : Range :=
  ⟨⟨startLine, startCharacter⟩, ⟨stopLine, stopCharacter⟩⟩

/-- Both ends of the inner range lie in the outer one. -/
def contains (outer inner : Range) : Bool :=
  outer.start ≤ inner.start && inner.stop ≤ outer.stop

/-- The range from the start of the first to the stop of the second, unless that
    stop lies before that start. -/
def merge? (first second : Range) : Option Range :=
  if first.start ≤ second.stop then some ⟨first.start, second.stop⟩ else none

/-- Starts and stops on different lines. -/
def isMultiline (r : Range) : Bool :=
  r.start.line ≠ r.stop.line

def render (r : Range) : String :=
  r.start.render ++ "-" ++ r.stop.render

end Range

/-- A stretch of the document with this uri. -/
structure Location where
  uri : Uri
  range : Range
  deriving Repr, DecidableEq, Hashable, Inhabited

namespace Location

/-- Two locations can be merged if they lie in one document and their ranges can. -/
def merge? (first second : Location) : Option Location :=
  if first.uri = second.uri then (first.range.merge? second.range).map (⟨first.uri, ·⟩) else none

def render (l : Location) : String :=
  l.uri ++ ":" ++ l.range.render

end Location

end JsonnetNav
