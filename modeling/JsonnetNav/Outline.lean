/-! # Outlines

An outline is a tree of one-line texts. It is printed with one line per node, and
forks and bars in front of a text show where the node hangs.
-/

namespace JsonnetNav

/-- A tree of texts. -/
inductive Outline where
  | node (text : String) (children : List Outline)
  deriving Repr

namespace Outline

/-- The text in front of a label, if there is one. -/
def labelled (label : Option String) (text : String) : String :=
  match label with
  | some label => label ++ "=" ++ text
  | none => text

mutual

/-- The lines of a tree that hangs on a fork; `bar` continues the fork below it. -/
def branch (indent fork bar : String) : Outline → List String
  | .node text children => (indent ++ fork ++ text) :: forest (indent ++ bar) children

/-- The lines of trees that hang below one node; the last one closes the fork. -/
def forest (indent : String) : List Outline → List String
  | [] => []
  | [tree] => branch indent "`-- " ".   " tree
  | tree :: trees => branch indent "|-- " "|   " tree ++ forest indent trees

end

/-- The lines of an outline. -/
def lines : Outline → List String
  | .node text children => text :: forest "" children

/-- The printed outline. -/
def render (tree : Outline) : String :=
  "\n".intercalate tree.lines

end Outline

end JsonnetNav
