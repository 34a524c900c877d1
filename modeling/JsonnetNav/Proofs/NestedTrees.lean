import JsonnetNav.Proofs.AssertedSlots
import JsonnetNav.Proofs.NarrowestNodes
import Mathlib

/-! # Parse trees with nested ranges

In a tree that a parser hands over the children of a node lie inside of it, one after the other.
What is read at a cursor stays inside of the node around it, since it is read from the node at the
cursor and, behind an assertion, from siblings after it.
-/

namespace JsonnetNav

namespace ParseTree

mutual

/-- The node and all nodes below it. -/
def nodes : ParseTree → List ParseTree
  | t@⟨_, _, _, children, _, _, _⟩ => t :: rowNodes children

/-- The nodes of the trees of a row. -/
def rowNodes : List ParseTree → List ParseTree
  | [] => []
  | t :: ts => t.nodes ++ rowNodes ts

end

theorem mem_rowNodes {u : ParseTree} {row : List ParseTree} :
    u ∈ rowNodes row ↔ ∃ t ∈ row, u ∈ t.nodes := by
  induction row with
  | nil => simp [rowNodes]
  | cons t ts ih => simp [rowNodes, ih]

theorem mem_nodes {t u : ParseTree} : u ∈ t.nodes ↔ u = t ∨ ∃ c ∈ t.children, u ∈ c.nodes := by
  obtain ⟨type, range, text, children, field, named, extra⟩ := t
  rw [nodes, List.mem_cons, mem_rowNodes]

theorem mem_nodes_self (t : ParseTree) : t ∈ t.nodes :=
  mem_nodes.mpr (.inl rfl)

theorem mem_nodes_of_child {t c u : ParseTree} (child : c ∈ t.children) (below : u ∈ c.nodes) :
    u ∈ t.nodes :=
  mem_nodes.mpr (.inr ⟨c, child, below⟩)

/-- No node of the tree stops before it starts, the children of a node lie inside of it, and none
    of them starts before the ones in front of it have stopped. -/
structure Nests (t : ParseTree) : Prop where
  proper : ∀ u ∈ t.nodes, u.range.start ≤ u.range.stop
  inside : ∀ u ∈ t.nodes, ∀ c ∈ u.children, u.range.contains c.range = true
  ordered : ∀ u ∈ t.nodes, u.children.Pairwise fun c d => c.range.stop ≤ d.range.start

instance (t : ParseTree) : Decidable t.Nests :=
  decidable_of_iff
    ((∀ u ∈ t.nodes, u.range.start ≤ u.range.stop) ∧
      (∀ u ∈ t.nodes, ∀ c ∈ u.children, u.range.contains c.range = true) ∧
      ∀ u ∈ t.nodes, u.children.Pairwise fun c d => c.range.stop ≤ d.range.start)
    ⟨fun all => ⟨all.1, all.2.1, all.2.2⟩, fun nests => ⟨nests.1, nests.2, nests.3⟩⟩

theorem Nests.child {t c : ParseTree} (nests : t.Nests) (child : c ∈ t.children) : c.Nests := by
  have below {u : ParseTree} (member : u ∈ c.nodes) : u ∈ t.nodes :=
    mem_nodes_of_child child member
  constructor
  · exact fun u member => nests.proper u (below member)
  · exact fun u member => nests.inside u (below member)
  · exact fun u member => nests.ordered u (below member)

theorem rowInOrder_of {start : Position} {row : List ParseTree}
    (each : ∀ t ∈ row, start ≤ t.range.start ∧ t.inOrder)
    (ordered : row.Pairwise fun c d => c.range.stop ≤ d.range.start) : rowInOrder start row := by
  induction row generalizing start with
  | nil => rfl
  | cons t ts ih =>
      obtain ⟨first, rest⟩ := List.pairwise_cons.mp ordered
      obtain ⟨begins, here⟩ := each t (.head _)
      refine rowInOrder_cons.mpr ⟨begins, here, ih (fun u later => ?_) rest⟩
      exact ⟨first u later, (each u (.tail _ later)).2⟩

theorem Nests.inOrder {t : ParseTree} (nests : t.Nests) : t.inOrder := by
  refine inOrder_iff.mpr ⟨nests.proper t t.mem_nodes_self, ?_⟩
  refine rowInOrder_of (fun c child => ?_) (nests.ordered t t.mem_nodes_self)
  have smaller : sizeOf c < sizeOf t := by
    have := List.sizeOf_lt_of_mem child
    cases t
    simp at *
    omega
  have within := nests.inside t t.mem_nodes_self c child
  exact ⟨(Range.contains_iff.mp within).1, (nests.child child).inOrder⟩
termination_by sizeOf t

/-- The children that count as parts. -/
def members (t : ParseTree) : List ParseTree :=
  t.children.filter fun c => c.named && !(c.type = "comment")

/-- No call of the tree has an assertion for an argument: the parts of a call behind the callee
    hold its arguments. -/
def PlainArgs (t : ParseTree) : Prop :=
  ∀ u ∈ t.nodes, u.type = "functioncall" →
    ∀ args ∈ u.members.tail, ∀ arg ∈ args.members, arg.type ≠ "assert"

instance (t : ParseTree) : Decidable t.PlainArgs :=
  inferInstanceAs (Decidable (∀ u ∈ t.nodes, u.type = "functioncall" →
    ∀ args ∈ u.members.tail, ∀ arg ∈ args.members, arg.type ≠ "assert"))

theorem PlainArgs.child {t c : ParseTree} (plain : t.PlainArgs) (child : c ∈ t.children) :
    c.PlainArgs :=
  fun u member => plain u (mem_nodes_of_child child member)

end ParseTree

namespace Cursor

open ParseTree

/-- The node at the cursor and those after it lie one after the other in this range, and can be
    read without an assertion for an argument. -/
structure Placed (c : Cursor) (outer : Range) : Prop where
  nests : ∀ t ∈ c.tree :: c.after, t.Nests
  plain : ∀ t ∈ c.tree :: c.after, t.PlainArgs
  inside : ∀ t ∈ c.tree :: c.after, outer.contains t.range = true
  ordered : (c.tree :: c.after).Pairwise fun t u => t.range.stop ≤ u.range.start

/-- How far an expression that is read at a cursor can reach: as far as the node, and behind an
    assertion as far as the row. -/
def reach (c : Cursor) (outer : Range) : Range :=
  if c.type = "assert" then ⟨c.range.start, outer.stop⟩ else c.range

theorem suffix_of_mem_row {trees : List ParseTree} {d : Cursor} (member : d ∈ row trees) :
    d.tree :: d.after <:+ trees := by
  induction trees with
  | nil => cases member
  | cons t ts ih =>
      rcases List.mem_cons.mp member with rfl | later
      · exact List.suffix_refl _
      · exact (ih later).trans (List.suffix_cons t ts)

theorem map_tree_row (trees : List ParseTree) : (row trees).map tree = trees := by
  induction trees with
  | nil => rfl
  | cons t ts ih => rw [row, List.map_cons, ih]

theorem mem_row_of_mem_children {c : Cursor} {d : c.Below} (member : d ∈ c.children) :
    d.1 ∈ row c.tree.children :=
  (List.mem_attachWith _ _).mp member

theorem map_tree_members (c : Cursor) : c.members.unattach.map tree = c.tree.members := by
  rw [unattach_members, ParseTree.members]
  conv_rhs => rw [← map_tree_row c.tree.children, List.filter_map]
  rfl

namespace Placed

variable {c : Cursor} {outer : Range} (placed : c.Placed outer)

include placed

theorem proper : c.range.start ≤ c.range.stop :=
  (placed.nests c.tree (.head _)).proper _ c.tree.mem_nodes_self

theorem within : outer.contains c.range = true :=
  placed.inside c.tree (.head _)

theorem within_reach : (c.reach outer).contains c.range = true := by
  rw [reach]
  split
  · exact Range.contains_iff.mpr
      ⟨Position.le_refl _, (Range.contains_iff.mp placed.within).2⟩
  · exact c.range.contains_self

theorem reach_within : outer.contains (c.reach outer) = true := by
  rw [reach]
  split
  · exact Range.contains_iff.mpr
      ⟨(Range.contains_iff.mp placed.within).1, Position.le_refl _⟩
  · exact placed.within

theorem child {d : c.Below} (member : d ∈ c.children) : d.1.Placed c.range := by
  have nests := placed.nests c.tree (.head _)
  have suffix := suffix_of_mem_row (mem_row_of_mem_children member)
  constructor
  · exact fun t later => nests.child (suffix.subset later)
  · exact fun t later => (placed.plain c.tree (.head _)).child (suffix.subset later)
  · exact fun t later => nests.inside _ c.tree.mem_nodes_self t (suffix.subset later)
  · exact (nests.ordered _ c.tree.mem_nodes_self).sublist suffix.sublist

/-- The children lie one after the other. -/
theorem pairwise_children :
    c.children.Pairwise fun d e => d.1.range.stop ≤ e.1.range.start := by
  have ordered := (placed.nests c.tree (.head _)).ordered _ c.tree.mem_nodes_self
  rw [← map_tree_row c.tree.children, List.pairwise_map] at ordered
  have same : c.children.map Subtype.val = row c.tree.children := List.unattach_attachWith
  rw [← same, List.pairwise_map] at ordered
  exact ordered

theorem sibling {d : c.Below} (member : d ∈ c.siblings) :
    d.1.Placed outer ∧ c.range.stop ≤ d.1.range.start := by
  have listed : d.1 ∈ row c.after := (List.mem_attachWith _ _).mp member
  have suffix := suffix_of_mem_row listed
  have later {t : ParseTree} (behind : t ∈ d.1.tree :: d.1.after) : t ∈ c.tree :: c.after :=
    .tail _ (suffix.subset behind)
  obtain ⟨first, rest⟩ := List.pairwise_cons.mp placed.ordered
  refine ⟨⟨?_, ?_, ?_, ?_⟩, ?_⟩
  · exact fun t behind => placed.nests t (later behind)
  · exact fun t behind => placed.plain t (later behind)
  · exact fun t behind => placed.inside t (later behind)
  · exact rest.sublist suffix.sublist
  · exact first _ (suffix.subset (.head _))

/-- What a call takes for its arguments is no assertion. -/
theorem plain_arg {callee : c.Below} {rest : List c.Below} (type : c.type = "functioncall")
    (members : c.members = callee :: rest) {d : c.Below} (row : d ∈ rest) {a : d.1.Below}
    (arg : a ∈ d.1.members) : a.1.type ≠ "assert" := by
  have nodes := c.map_tree_members
  rw [members] at nodes
  refine placed.plain c.tree (.head _) _ c.tree.mem_nodes_self type d.1.tree ?_ a.1.tree ?_
  · rw [← nodes]
    exact List.mem_map_of_mem (List.mem_unattach.mpr ⟨d.2, row⟩)
  · rw [← d.1.map_tree_members]
    exact List.mem_map_of_mem (List.mem_unattach.mpr ⟨a.2, arg⟩)

end Placed

theorem placed_root {tree : ParseTree} (nests : tree.Nests) (plain : tree.PlainArgs) :
    (ofRoot tree).Placed tree.range := by
  constructor
  · simpa [ofRoot] using nests
  · simpa [ofRoot] using plain
  · simpa [ofRoot] using tree.range.contains_self
  · exact List.pairwise_singleton ..

/-- Going down stays in placed rows. -/
theorem Placed.descend {c d : Cursor} {outer : Range} (placed : c.Placed outer) {path : List Index}
    (down : c.descend? path = some d) : ∃ outer', d.Placed outer' := by
  induction path generalizing c outer with
  | nil =>
      cases down
      exact ⟨outer, placed⟩
  | cons i path ih =>
      rw [descend?] at down
      split at down
      · rename_i e found
        exact ih (placed.child (Index.mem_of_member found)) down
      · cases down

end Cursor

end JsonnetNav
