import Mathlib.Data.List.Nodup
import JsonnetNav.Ast.Site

/-! # Sites and their paths

No two children of a node are reached by the same edge, so a path leads to one site of a
document at most, and no site is listed twice.
-/

namespace JsonnetNav

namespace Part

def role? : Part → Option Role
  | leaf _ _ => none
  | child role _ => some role
  | children role _ => some role

theorem role_of_mem_edges {p : Part} {edge : Step × Node} (member : edge ∈ p.edges) :
    p.role? = some edge.1.role := by
  cases p with
  | leaf label value => simp [edges] at member
  | child role node =>
      simp only [edges, List.mem_singleton] at member
      rw [member]
      rfl
  | children role nodes =>
      simp only [edges, List.mem_mapIdx] at member
      obtain ⟨i, bound, rfl⟩ := member
      rfl

theorem nodup_steps_edges (p : Part) : (p.edges.map Prod.fst).Nodup := by
  cases p with
  | leaf label value => simp [edges]
  | child role node => simp [edges]
  | children role nodes =>
      refine List.Nodup.of_map Step.index ?_
      have indices : ((edges (.children role nodes)).map Prod.fst).map Step.index =
          List.range nodes.length := by
        apply List.ext_getElem <;> simp [edges]
      rw [indices]
      exact List.nodup_range

theorem nodup_steps {parts : List Part} (roles : (parts.filterMap role?).Nodup) :
    ((parts.flatMap edges).map Prod.fst).Nodup := by
  induction parts with
  | nil => simp
  | cons p parts ih =>
      rw [List.flatMap_cons, List.map_append]
      refine List.Nodup.append (nodup_steps_edges p) (ih ?_) ?_
      · exact roles.sublist ((List.sublist_cons_self p parts).filterMap role?)
      · intro step here there
        obtain ⟨edge, member, rfl⟩ := List.mem_map.mp here
        obtain ⟨other, later, same⟩ := List.mem_map.mp there
        obtain ⟨q, listed, inside⟩ := List.mem_flatMap.mp later
        rw [List.filterMap_cons_some (role_of_mem_edges member), List.nodup_cons] at roles
        apply roles.1
        refine List.mem_filterMap.mpr ⟨q, listed, ?_⟩
        rw [role_of_mem_edges inside, same]

end Part

namespace Node

theorem nodup_roles_expr (e : Expr) : (e.parts.filterMap Part.role?).Nodup := by
  cases e with
  | slice range array start stop step =>
      cases stop <;> cases step <;> simp [Expr.parts, Part.role?, Part.ofOption]
  | cond range condition consequence alternative =>
      cases alternative <;> simp [Expr.parts, Part.role?, Part.ofOption]
  | _ => simp [Expr.parts, Part.role?, Part.ofString, List.filterMap_cons]

theorem nodup_roles (n : Node) : (n.parts.filterMap Part.role?).Nodup := by
  cases n with
  | expr e => exact nodup_roles_expr e
  | param p => cases given : p.default <;> simp [parts, Part.role?, Part.ofOption, given]
  | arg a => cases given : a.name <;> simp [parts, Part.role?, Part.ofOption, given]
  | assertion a => cases given : a.message <;> simp [parts, Part.role?, Part.ofOption, given]
  | key k => cases k <;> simp [parts, Part.role?]
  | _ => simp [parts, Part.role?, List.filterMap_cons]

theorem nodup_steps (n : Node) : (n.children.map Prod.fst).Nodup :=
  Part.nodup_steps n.nodup_roles

end Node

namespace Site

/-- The sites of the children in a part. -/
def inPart (s : Site) : Part → List Site
  | .leaf _ _ => []
  | .child role node => [s.part role node]
  | .children role nodes => s.row role nodes

theorem children_eq (s : Site) : s.children = s.node.parts.flatMap s.inPart := by
  rw [children, Node.children, List.map_flatMap]
  congr 1
  funext p
  cases p with
  | leaf label value => rfl
  | child role node => rfl
  | children role nodes =>
      apply List.ext_getElem <;> simp [Part.edges, inPart, row]

theorem mem_row {α : Type} {s c : Site} {role : Role} {f : α → Node} {xs : List α} :
    c ∈ s.row role (xs.map f) ↔ ∃ i x, xs[i]? = some x ∧ c = s.down ⟨role, i⟩ (f x) := by
  simp only [row, List.mem_mapIdx, List.getElem_map, List.length_map]
  constructor
  · intro ⟨i, bound, same⟩
    exact ⟨i, xs[i], List.getElem?_eq_getElem bound, same.symm⟩
  · intro ⟨i, x, found, same⟩
    obtain ⟨bound, rfl⟩ := List.getElem?_eq_some_iff.mp found
    exact ⟨i, bound, same.symm⟩

theorem preorder_eq (s : Site) : s.preorder = s :: s.children.flatMap preorder := by
  rw [preorder]
  simp

theorem mem_preorder {s t : Site} :
    t ∈ s.preorder ↔ t = s ∨ ∃ c ∈ s.children, t ∈ c.preorder := by
  rw [preorder_eq, List.mem_cons, List.mem_flatMap]

theorem mem_preorder_self (s : Site) : s ∈ s.preorder :=
  mem_preorder.mpr (.inl rfl)

theorem mem_children {s c : Site} :
    c ∈ s.children ↔ ∃ edge ∈ s.node.children, c = s.down edge.1 edge.2 := by
  simp only [children, List.mem_map]
  constructor
  · intro ⟨edge, member, same⟩
    exact ⟨edge, member, same.symm⟩
  · intro ⟨edge, member, same⟩
    exact ⟨edge, member, same.symm⟩

theorem mem_children_of_part {s c : Site} {p : Part} (listed : p ∈ s.node.parts)
    (member : c ∈ s.inPart p) : c ∈ s.children := by
  rw [children_eq]
  exact List.mem_flatMap.mpr ⟨p, listed, member⟩

theorem mem_children_of_row {α : Type} {s : Site} {role : Role} {f : α → Node} {xs : List α}
    (listed : .children role (xs.map f) ∈ s.node.parts) {i : Nat} (bound : i < xs.length) :
    s.down ⟨role, i⟩ (f xs[i]) ∈ s.children :=
  mem_children_of_part listed (mem_row.mpr ⟨i, _, List.getElem?_eq_getElem bound, rfl⟩)

theorem mem_preorder_of_child {s c : Site} (child : c ∈ s.children) : c ∈ s.preorder :=
  mem_preorder.mpr (.inr ⟨c, child, mem_preorder_self c⟩)

theorem mem_preorder_of_part {s c : Site} {p : Part} (listed : p ∈ s.node.parts)
    (member : c ∈ s.inPart p) : c ∈ s.preorder :=
  mem_preorder_of_child (mem_children_of_part listed member)

theorem mem_preorder_trans {s t u : Site} (outer : t ∈ s.preorder) (inner : u ∈ t.preorder) :
    u ∈ s.preorder := by
  rcases mem_preorder.mp outer with rfl | ⟨c, child, below⟩
  · exact inner
  · have smaller := sizeOf_child child
    exact mem_preorder.mpr (.inr ⟨c, child, mem_preorder_trans below inner⟩)
termination_by sizeOf s.node

/-- What holds of a site and passes on to children holds of all sites below. -/
theorem preorder_induction {root : Site} {motive : Site → Prop} (here : motive root)
    (step : ∀ s ∈ root.preorder, motive s → ∀ c ∈ s.children, motive c) :
    ∀ t ∈ root.preorder, motive t := by
  intro t inside
  rcases mem_preorder.mp inside with rfl | ⟨c, child, below⟩
  · exact here
  · have smaller := sizeOf_child child
    have inRoot {s : Site} (member : s ∈ c.preorder) : s ∈ root.preorder :=
      mem_preorder_trans (mem_preorder_of_child child) member
    have start := step root (mem_preorder_self root) here c child
    exact preorder_induction start (fun s member => step s (inRoot member)) t below
termination_by sizeOf root.node

theorem above_of_mem_preorder {s t : Site} (inside : t ∈ s.preorder) :
    t.uri = s.uri ∧ ∃ way, t.above = way ++ s.above := by
  rcases mem_preorder.mp inside with rfl | ⟨c, child, below⟩
  · exact ⟨rfl, [], rfl⟩
  · have smaller := sizeOf_child child
    obtain ⟨uri, way, above⟩ := above_of_mem_preorder below
    obtain ⟨edge, member, rfl⟩ := mem_children.mp child
    refine ⟨uri, way ++ [(edge.1, s.node)], ?_⟩
    rw [above]
    simp [down]
termination_by sizeOf s.node

theorem path_of_mem_preorder {s t : Site} (inside : t ∈ s.preorder) :
    ∃ way, t.path = way ++ s.path := by
  obtain ⟨-, way, above⟩ := above_of_mem_preorder inside
  exact ⟨way.map Prod.fst, by simp [path, above]⟩

theorem path_ne_of_below {s t c : Site} (child : c ∈ s.children) (below : t ∈ c.preorder) :
    t.path ≠ s.path := by
  intro same
  obtain ⟨edge, -, rfl⟩ := mem_children.mp child
  obtain ⟨way, longer⟩ := path_of_mem_preorder below
  have lengths := congrArg List.length (same.symm.trans longer)
  simp [path, down] at lengths
  omega

theorem child_eq_of_path_eq {s c c' t u : Site} (child : c ∈ s.children)
    (child' : c' ∈ s.children) (below : t ∈ c.preorder) (below' : u ∈ c'.preorder)
    (same : t.path = u.path) : c = c' := by
  obtain ⟨edge, member, rfl⟩ := mem_children.mp child
  obtain ⟨edge', member', rfl⟩ := mem_children.mp child'
  obtain ⟨way, path⟩ := path_of_mem_preorder below
  obtain ⟨way', path'⟩ := path_of_mem_preorder below'
  rw [same, path'] at path
  have steps := (List.append_inj' path rfl).2
  have step : edge'.1 = edge.1 := (List.cons.inj steps).1
  have edges : edge' = edge :=
    List.inj_on_of_nodup_map s.node.nodup_steps member' member step
  rw [edges]

theorem eq_of_path_eq {s t u : Site} (first : t ∈ s.preorder) (second : u ∈ s.preorder)
    (same : t.path = u.path) : t = u := by
  rcases mem_preorder.mp first with rfl | ⟨c, child, below⟩
  · rcases mem_preorder.mp second with rfl | ⟨c, child, below⟩
    · rfl
    · exact absurd same.symm (path_ne_of_below child below)
  · rcases mem_preorder.mp second with rfl | ⟨c', child', below'⟩
    · exact absurd same (path_ne_of_below child below)
    · have smaller := sizeOf_child child
      cases child_eq_of_path_eq child child' below below' same
      exact eq_of_path_eq below below' same
termination_by sizeOf s.node

theorem isAt_iff {root s t : Site} (first : s ∈ root.preorder) (second : t ∈ root.preorder) :
    s.isAt t = true ↔ s = t := by
  constructor
  · intro found
    simp only [isAt, Bool.and_eq_true, decide_eq_true_eq] at found
    exact eq_of_path_eq first second found.2
  · intro same
    simp [isAt, same]

theorem nodup_children (s : Site) : s.children.Nodup := by
  have paths : s.children.map path = (s.node.children.map Prod.fst).map (· :: s.path) := by
    simp [children, path, down, Function.comp_def]
  apply List.Nodup.of_map path
  rw [paths]
  exact s.node.nodup_steps.map fun _ _ same => (List.cons.inj same).1

theorem nodup_preorder (s : Site) : s.preorder.Nodup := by
  rw [preorder_eq, List.nodup_cons, List.nodup_flatMap]
  refine ⟨?_, ?_, ?_⟩
  · intro again
    obtain ⟨c, child, below⟩ := List.mem_flatMap.mp again
    exact path_ne_of_below child below rfl
  · intro c child
    have smaller := sizeOf_child child
    exact nodup_preorder c
  · refine s.nodup_children.imp_of_mem ?_
    intro c c' child child' different t below below'
    exact different (child_eq_of_path_eq child child' below below' rfl)
termination_by sizeOf s.node

theorem mem_preorder_of_nodeAt {s t : Site} {target : Range} (found : s.nodeAt? target = some t) :
    t ∈ s.preorder := by
  rw [nodeAt?] at found
  split at found
  · rename_i c first
    have child := List.mem_of_find?_eq_some first
    have smaller := sizeOf_child child
    exact mem_preorder.mpr (.inr ⟨c, child, mem_preorder_of_nodeAt found⟩)
  · split at found
    · cases found
      exact mem_preorder_self s
    · cases found
termination_by sizeOf s.node

end Site

end JsonnetNav
