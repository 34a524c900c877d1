import JsonnetNav.Outline
import JsonnetNav.Scope.Table

/-! # Printed scopes

A scope of variables is printed with its owner, its bindings and its children. Empty
lists are left out, and the parent is not shown again.
-/

namespace JsonnetNav

namespace ScopeTable

/-- The kind and range of a node. -/
def nodeText (s : Site) : String :=
  s.kind.name ++ " [" ++ s.range.render ++ "]"

/-- A bound name and what it is bound to. -/
def bindingText (b : Binding) : String :=
  "\"" ++ b.name.display ++ "\": " ++ nodeText b.target

/-- A labelled list, left out if it is empty. -/
def listOutline (label : String) : List Outline → List Outline
  | [] => []
  | items => [.node (label ++ "=[...]") items]

/-- The outline of a scope. Children are younger than their parent. -/
def outline (t : ScopeTable) (label : Option String) (i : ScopeId) : Outline :=
  match _h : t.scopes[i]? with
  | none => .node (Outline.labelled label "") []
  | some s =>
    .node (Outline.labelled label "VarScope") <|
      [.node ("owner=" ++ nodeText s.owner) []]
        ++ listOutline "bindings" ((t.bindings s).mapIdx fun j b =>
            .node (s!"[{j}]=" ++ bindingText b) [])
        ++ listOutline "children" ((t.childrenOf s).mapIdx fun j c =>
            if _hc : i < c then t.outline (some s!"[{j}]") c else .node s!"[{j}]=..." [])
termination_by t.scopes.size - i
decreasing_by
  have := (Array.getElem?_eq_some_iff.1 _h).1
  exact Nat.sub_lt_sub_left this _hc

/-- The printed scope. -/
def render (t : ScopeTable) (i : ScopeId) : String :=
  (t.outline none i).render

end ScopeTable

end JsonnetNav
