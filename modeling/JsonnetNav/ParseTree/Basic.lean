import JsonnetNav.Position
import JsonnetNav.Outline
import JsonnetNav.Text.Quoted

/-! # Parse trees

What a parser hands over: nodes with a type, a range, sometimes a text of their
own, and children. A child may play a named role in its parent. Punctuation and
keywords are unnamed nodes; comments may stand anywhere as extra nodes.
-/

namespace JsonnetNav

/-- A node of a parse tree. -/
structure ParseTree where
  type : String
  range : Range
  text : Option String := none
  children : List ParseTree := []
  /-- The role of this node in its parent. -/
  field : Option String := none
  named : Bool := true
  extra : Bool := false
  deriving Inhabited

namespace ParseTree

/-- An unnamed node with a text is shown by its text, every other by its type. -/
def label (t : ParseTree) : String :=
  match t.named, t.text with
  | false, some text =>
    if text.isEmpty then t.type else (Text.ofString text).quoted
  | _, _ => t.type

mutual

/-- The outline of a parse tree, each child labelled with its role. -/
def outline : ParseTree → Outline
  | t@⟨_, range, _, children, field, _, _⟩ =>
    .node (Outline.labelled field (t.label ++ " [" ++ range.render ++ "]")) (outlines children)

/-- The outlines of a row of parse trees. -/
def outlines : List ParseTree → List Outline
  | [] => []
  | t :: ts => t.outline :: outlines ts

end

/-- The printed parse tree. The root plays no role, whatever it says. -/
def render (t : ParseTree) : String :=
  ({ t with field := none }).outline.render

end ParseTree

end JsonnetNav
