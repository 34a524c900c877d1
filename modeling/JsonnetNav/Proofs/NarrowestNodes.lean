import JsonnetNav.Proofs.ReadRanges
import JsonnetNav.Proofs.Sites
import Mathlib

/-! # The narrowest node around a target

The search for the node at a target goes down into the first child that contains it, and never
turns back. It does not have to: a child that contains the target always has a node for it. The
target may touch two siblings, but a range that is not empty lies in one of them only, so nothing
narrower is missed in the other.
-/

namespace JsonnetNav

namespace Position

theorem le_refl (a : Position) : a ≤ a := by
  rw [le_iff]
  omega

theorem le_antisymm {a b : Position} (first : a ≤ b) (second : b ≤ a) : a = b := by
  rw [le_iff] at *
  obtain ⟨line, character⟩ := a
  obtain ⟨line', character'⟩ := b
  simp only [mk.injEq] at *
  omega

end Position

namespace Range

/-- The range starts before it stops. -/
def IsProper (r : Range) : Prop :=
  ¬ r.stop ≤ r.start

instance (r : Range) : Decidable r.IsProper :=
  inferInstanceAs (Decidable (¬ _))

/-- One of the ranges stops where the other one starts, or before. -/
def AtMostTouches (a b : Range) : Prop :=
  a.stop ≤ b.start ∨ b.stop ≤ a.start

instance (a b : Range) : Decidable (a.AtMostTouches b) :=
  inferInstanceAs (Decidable (_ ∨ _))

/-- The range is a part of the other one, but not all of it. -/
def StrictlyInside (inner outer : Range) : Prop :=
  outer.contains inner ∧ inner ≠ outer

theorem contains_iff {outer inner : Range} :
    outer.contains inner = true ↔ outer.start ≤ inner.start ∧ inner.stop ≤ outer.stop := by
  simp [contains]

theorem contains_self (r : Range) : r.contains r = true :=
  contains_iff.mpr ⟨Position.le_refl r.start, Position.le_refl r.stop⟩

theorem contains_trans {a b c : Range} (first : a.contains b = true)
    (second : b.contains c = true) : a.contains c = true := by
  rw [contains_iff] at *
  exact ⟨Position.le_trans first.1 second.1, Position.le_trans second.2 first.2⟩

theorem contains_antisymm {a b : Range} (first : a.contains b = true)
    (second : b.contains a = true) : a = b := by
  rw [contains_iff] at *
  have starts := Position.le_antisymm first.1 second.1
  have stops := Position.le_antisymm second.2 first.2
  cases a
  cases b
  simp_all

/-- Ranges that at most touch have no proper range in common. -/
theorem AtMostTouches.not_proper {a b r : Range} (touches : a.AtMostTouches b)
    (first : a.contains r = true) (second : b.contains r = true) : ¬ r.IsProper := by
  rw [contains_iff] at first second
  intro proper
  apply proper
  rcases touches with before | after
  · exact Position.le_trans first.2 (Position.le_trans before second.1)
  · exact Position.le_trans second.2 (Position.le_trans after first.1)

end Range

namespace Site

/-- Every node below the site has a proper range, its children lie inside of it, and they at most
    touch each other. -/
structure Nested (s : Site) : Prop where
  proper : ∀ t ∈ s.preorder, t.range.IsProper
  inside : ∀ t ∈ s.preorder, ∀ c ∈ t.children, t.range.contains c.range = true
  apart : ∀ t ∈ s.preorder, t.children.Pairwise fun c d => c.range.AtMostTouches d.range

instance (s : Site) : Decidable s.Nested :=
  decidable_of_iff
    ((∀ t ∈ s.preorder, t.range.IsProper) ∧
      (∀ t ∈ s.preorder, ∀ c ∈ t.children, t.range.contains c.range = true) ∧
      ∀ t ∈ s.preorder, t.children.Pairwise fun c d => c.range.AtMostTouches d.range)
    ⟨fun all => ⟨all.1, all.2.1, all.2.2⟩, fun nested => ⟨nested.1, nested.2, nested.3⟩⟩

theorem Nested.child {s c : Site} (nested : s.Nested) (child : c ∈ s.children) : c.Nested := by
  have below {t : Site} (member : t ∈ c.preorder) : t ∈ s.preorder :=
    mem_preorder_trans (mem_preorder_of_child child) member
  constructor
  · exact fun t member => nested.proper t (below member)
  · exact fun t member => nested.inside t (below member)
  · exact fun t member => nested.apart t (below member)

/-- All nodes below a site lie inside of it. -/
theorem Nested.contains {s t : Site} (nested : s.Nested) (below : t ∈ s.preorder) :
    s.range.contains t.range = true := by
  rcases mem_preorder.mp below with rfl | ⟨c, child, inside⟩
  · exact t.range.contains_self
  · have smaller := sizeOf_child child
    have outer := nested.inside s (mem_preorder_self s) c child
    exact Range.contains_trans outer ((nested.child child).contains inside)
termination_by sizeOf s.node

/-- Two children of a site at most touch each other. -/
theorem Nested.touches {s c d : Site} (nested : s.Nested) (first : c ∈ s.children)
    (second : d ∈ s.children) (different : c ≠ d) : c.range.AtMostTouches d.range := by
  have symmetric : Std.Symm fun c d : Site => c.range.AtMostTouches d.range :=
    ⟨fun _ _ touches => touches.symm⟩
  exact (nested.apart s (mem_preorder_self s)).forall first second different

/-- A site that contains the target has a node for it. -/
theorem nodeAt_of_contains {s : Site} {target : Range} (covers : s.range.contains target = true) :
    ∃ t, s.nodeAt? target = some t := by
  rw [nodeAt?]
  split
  · rename_i c first
    have smaller := sizeOf_child (List.mem_of_find?_eq_some first)
    have covers' := List.find?_some first
    exact nodeAt_of_contains covers'
  · exact ⟨s, if_pos covers⟩
termination_by sizeOf s.node

theorem nodeAt_eq_none {s : Site} {target : Range} :
    s.nodeAt? target = none ↔
      s.range.contains target = false ∧ ∀ c ∈ s.children, c.range.contains target = false := by
  rw [nodeAt?]
  split
  · rename_i c first
    have covers := List.find?_some first
    obtain ⟨t, found⟩ := nodeAt_of_contains covers
    simp only [found, reduceCtorEq, false_iff, not_and]
    intro _ missed
    rw [missed c (List.mem_of_find?_eq_some first)] at covers
    cases covers
  · rename_i nowhere
    simpa using fun _ => nowhere

/-- The node that is found contains the target, and none of its children does. -/
theorem contains_of_nodeAt {s t : Site} {target : Range} (found : s.nodeAt? target = some t) :
    t.range.contains target = true ∧ ∀ c ∈ t.children, c.range.contains target = false := by
  rw [nodeAt?] at found
  split at found
  · rename_i c first
    have smaller := sizeOf_child (List.mem_of_find?_eq_some first)
    exact contains_of_nodeAt found
  · rename_i nowhere
    split at found
    · rename_i covers
      cases found
      exact ⟨covers, by simpa using nowhere⟩
    · cases found
termination_by sizeOf s.node

/-- Where ranges nest, no node around the target is narrower than the one that is found. -/
theorem Nested.none_narrower {s t u : Site} {target : Range} (nested : s.Nested)
    (found : s.nodeAt? target = some t) (below : u ∈ s.preorder)
    (covers : u.range.contains target = true) : ¬ u.range.StrictlyInside t.range := by
  have outer := nested.contains (mem_preorder_of_nodeAt found)
  rintro ⟨narrower, different⟩
  rcases mem_preorder.mp below with rfl | ⟨d, child, inside⟩
  · exact different (Range.contains_antisymm outer narrower)
  · have within := (nested.child child).contains inside
    rw [nodeAt?] at found
    split at found
    · rename_i c first
      have entered := List.mem_of_find?_eq_some first
      by_cases same : c = d
      · subst same
        have smaller := sizeOf_child child
        exact (nested.child child).none_narrower found inside covers ⟨narrower, different⟩
      · -- what lies in the node that was found and in another child lies in two siblings
        have here := (nested.child entered).contains (mem_preorder_of_nodeAt found)
        have apart := nested.touches entered child same
        exact apart.not_proper (Range.contains_trans here narrower) within
          (nested.proper u below)
    · rename_i nowhere
      have missed := List.find?_eq_none.mp nowhere d child
      exact missed (Range.contains_trans within covers)
termination_by sizeOf s.node

/-- There is no node at a target exactly if neither the site nor a child contains it. Otherwise
    the node that is found contains the target and none of its children does, and where ranges
    nest, no node of the tree around the target is narrower. -/
theorem nodeAt_narrowest (s : Site) (target : Range) :
    (s.nodeAt? target = none ↔
      s.range.contains target = false ∧ ∀ c ∈ s.children, c.range.contains target = false) ∧
    (∀ t, s.nodeAt? target = some t → t ∈ s.preorder ∧ t.range.contains target = true ∧
      ∀ c ∈ t.children, c.range.contains target = false) ∧
    (s.Nested → ∀ t, s.nodeAt? target = some t → ∀ u ∈ s.preorder,
      u.range.contains target = true → ¬ u.range.StrictlyInside t.range) := by
  refine ⟨nodeAt_eq_none, ?_, ?_⟩
  · intro t found
    exact ⟨mem_preorder_of_nodeAt found, contains_of_nodeAt found⟩
  · intro nested t found u below covers
    exact nested.none_narrower found below covers

def touchingName : Expr :=
  .ref ⟨Range.ofNats 0 0 0 1, .ofString "a"⟩

def touchingObject : Expr :=
  .object (Range.ofNats 0 1 0 3) [] [] []

/-- The site of `a{}`, where the name and the object touch. -/
def touchingSite : Site :=
  ⟨"file:///x", .expr (.binary (Range.ofNats 0 0 0 3) .plus touchingName touchingObject), []⟩

/-- Between two nodes the first one is found, and the second one is no narrower. -/
theorem touching_narrowest :
    touchingSite.Nested ∧
    touchingSite.nodeAt? (Range.point ⟨0, 1⟩) =
      some (touchingSite.part .lhs (.expr touchingName)) ∧
    touchingSite.part .rhs (.expr touchingObject) ∈ touchingSite.preorder ∧
    touchingObject.range.contains (Range.point ⟨0, 1⟩) = true ∧
    ¬ touchingObject.range.StrictlyInside touchingName.range := by
  have nested : touchingSite.Nested := by decide +kernel
  have found : touchingSite.nodeAt? (Range.point ⟨0, 1⟩) =
      some (touchingSite.part .lhs (.expr touchingName)) := by cbv
  have below : touchingSite.part .rhs (.expr touchingObject) ∈ touchingSite.preorder :=
    mem_preorder_of_part (.tail _ (.tail _ (.head _))) (.head _)
  refine ⟨nested, found, below, rfl, ?_⟩
  exact (nodeAt_narrowest touchingSite _).2.2 nested _ found _ below rfl

end Site

end JsonnetNav
