import JsonnetNav.Ast.Node
import JsonnetNav.Number.Shortest
import JsonnetNav.Outline
import JsonnetNav.Text.Quoted

/-! # Printed trees

A node is printed by its kind and range, with its values and children below it. An
empty row of children is left out; a row that is not empty has a line of its own.
-/

namespace JsonnetNav

/-- The written form of a value. -/
def Leaf.render : Leaf → String
  | text t => t.quoted
  | number n => Number.toText n
  | flag b => if b then "True" else "False"
  | visibility v => (Text.ofString v.text).quoted

namespace Node

/-- The kind and range of a node; a document shows its uri, too. -/
def heading (uri : Uri) (n : Node) : String :=
  let place := if n.kind = .document then (Location.mk uri n.range).render else n.range.render
  n.kind.name ++ " [" ++ place ++ "]"

/-- The outline of a node in the document with this uri. -/
def outline (uri : Uri) (label : Option String) (n : Node) : Outline :=
  .node (Outline.labelled label (n.heading uri)) <| n.parts.attach.flatMap fun
    | ⟨.leaf name value, _⟩ => [.node (Outline.labelled (some name) value.render) []]
    | ⟨.child role m, _h⟩ => [m.outline uri (some role.label)]
    | ⟨.children _ [], _⟩ => []
    | ⟨.children role (m :: ms), _h⟩ =>
      [.node (Outline.labelled (some role.label) "[...]")
        ((m :: ms).attach.mapIdx fun i x => x.1.outline uri (some s!"[{i}]"))]
termination_by sizeOf n
decreasing_by
  · exact childrenBelow_parts n _ _h m (by simp [Part.nodes])
  · exact childrenBelow_parts n _ _h x.1 x.2

/-- The printed tree of a node. -/
def render (uri : Uri) (n : Node) : String :=
  (n.outline uri none).render

end Node

end JsonnetNav
