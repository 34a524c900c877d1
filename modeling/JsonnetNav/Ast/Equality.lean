import JsonnetNav.Ast.Node

/-! # Equality of nodes

Two nodes are the same if they agree in kind, range, values and children, all the
way down. Numbers are compared as numbers, so a literal that is not a number is
never the same as another one.
-/

namespace JsonnetNav

namespace Node

/-- Equality of nodes, ranges included. -/
def same (a b : Node) : Bool :=
  a.kind = b.kind && a.range = b.range && a.parts.length = b.parts.length &&
    (a.parts.attach.zip b.parts).all fun
      | (⟨.leaf label v, _⟩, .leaf label' v') => label = label' && v.same v'
      | (⟨.child role m, _h⟩, .child role' m') => role = role' && m.same m'
      | (⟨.children role ms, _h⟩, .children role' ms') =>
        role = role' && ms.length = ms'.length &&
          (ms.attach.zip ms').all fun (m, m') => m.1.same m'
      | _ => false
termination_by sizeOf a
decreasing_by
  · exact childrenBelow_parts a _ _h m (by simp [Part.nodes])
  · exact childrenBelow_parts a _ _h m.1 m.2

end Node

end JsonnetNav
