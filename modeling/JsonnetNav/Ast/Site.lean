import JsonnetNav.Ast.Equality

/-! # Sites

A site is a node at its place in a document: the node together with the chain of
nodes around it and the edges in between. Its path, the edges up to the root, tells
it apart from every other site of the document, also from one whose node looks the
same.
-/

namespace JsonnetNav

/-- The edges from a node up to the root, innermost first. -/
abbrev Path := List Step

/-- A node at its place in the document with this uri. The nodes around it come with
    the edges that lead inwards, innermost first. -/
structure Site where
  uri : Uri
  node : Node
  above : List (Step × Node) := []

namespace Site

def path (s : Site) : Path :=
  s.above.map Prod.fst

def kind (s : Site) : Kind :=
  s.node.kind

def range (s : Site) : Range :=
  s.node.range

def location (s : Site) : Location :=
  ⟨s.uri, s.range⟩

/-- The site of a part of this node. -/
def down (s : Site) (step : Step) (node : Node) : Site :=
  { s with node := node, above := (step, s.node) :: s.above }

/-- The site of a child that is alone in its role. -/
def part (s : Site) (role : Role) (node : Node) : Site :=
  s.down ⟨role, 0⟩ node

/-- The sites of children that share a role. -/
def row (s : Site) (role : Role) (nodes : List Node) : List Site :=
  nodes.mapIdx fun i node => s.down ⟨role, i⟩ node

/-- The sites of the children. -/
def children (s : Site) : List Site :=
  s.node.children.map fun (step, node) => s.down step node

/-- The site of the parent. -/
def parent? (s : Site) : Option Site :=
  match s.above with
  | (_, node) :: above => some { s with node := node, above := above }
  | [] => none

/-- The sites of the nodes around a place, innermost first. -/
def around (uri : Uri) : List (Step × Node) → List Site
  | [] => []
  | (_, node) :: above => ⟨uri, node, above⟩ :: around uri above

/-- The site itself and the sites around it, innermost first. -/
def outward (s : Site) : List Site :=
  s :: around s.uri s.above

theorem sizeOf_child {s t : Site} (h : t ∈ s.children) : sizeOf t.node < sizeOf s.node := by
  obtain ⟨⟨step, node⟩, hn, rfl⟩ := List.mem_map.1 h
  exact Node.sizeOf_child hn

/-- The site and all sites below it, each before its children. -/
def preorder (s : Site) : List Site :=
  s :: s.children.attach.flatMap fun ⟨t, _h⟩ => t.preorder
termination_by sizeOf s.node
decreasing_by exact sizeOf_child _h

/-- The innermost site around the target range: of the children that contain it the
    first is entered. -/
def nodeAt? (s : Site) (target : Range) : Option Site :=
  match _h : s.children.find? (·.range.contains target) with
  | some t => t.nodeAt? target
  | none => if s.range.contains target then some s else none
termination_by sizeOf s.node
decreasing_by exact sizeOf_child (List.mem_of_find?_eq_some _h)

/-- The first site of a class, going outwards through at most `level` edges. A level
    below `-1` never runs out. -/
def enclosingIn (cls : NodeClass) : (level : Option Int) → List Site → Option Site
  | _, [] => none
  | level, s :: outer =>
    if level = some (-1) then none
    else if s.node.isA cls then some s
    else enclosingIn cls (level.map (· - 1)) outer

/-- The nearest site of a class, the site itself included. -/
def enclosing? (s : Site) (cls : NodeClass) (level : Option Int := none) : Option Site :=
  enclosingIn cls level s.outward

/-- The sites hold the same node, or nodes that look the same. -/
def same (a b : Site) : Bool :=
  a.uri = b.uri && (a.path = b.path || a.node.same b.node)

/-- The sites are one place in one document. -/
def isAt (a b : Site) : Bool :=
  a.uri = b.uri && a.path = b.path

/-- The node is the name of a field that is read, and this is the name. -/
def hasName (s : Site) (name : Text) : Bool :=
  match s.node with
  | .fieldRef id => id.name = name
  | _ => false

end Site

end JsonnetNav
