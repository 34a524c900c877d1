import JsonnetNav.Index
import JsonnetNav.ParseTree.Basic

/-! # Cursors

An assertion in front of an expression is a sibling of that expression, so reading
a node can mean reading the siblings after it. A cursor is a node together with
these siblings. Moving down or to the right makes a cursor lighter, and every move
carries the proof.
-/

namespace JsonnetNav

/-- A node of a parse tree and the siblings after it. -/
structure Cursor where
  tree : ParseTree
  after : List ParseTree

namespace Cursor

/-- The cursor at a root, which has no siblings. -/
def ofRoot (tree : ParseTree) : Cursor :=
  ⟨tree, []⟩

/-- Everything that can be reached from a cursor, measured. -/
noncomputable def weight (c : Cursor) : Nat :=
  sizeOf c.tree + sizeOf c.after

/-- The cursors at the trees of a row. -/
def row : List ParseTree → List Cursor
  | [] => []
  | tree :: trees => ⟨tree, trees⟩ :: row trees

theorem weight_of_mem_row {trees : List ParseTree} {d : Cursor} (h : d ∈ row trees) :
    d.weight < sizeOf trees := by
  induction trees with
  | nil => simp [row] at h
  | cons tree trees ih =>
    simp only [row, List.mem_cons] at h
    rcases h with rfl | h
    · simp [weight]
    · have := ih h
      simp; omega

/-- The cursors that are lighter than this one. -/
abbrev Below (c : Cursor) : Type :=
  { d : Cursor // d.weight < c.weight }

/-- The cursors at the children. -/
def children (c : Cursor) : List c.Below :=
  (row c.tree.children).attachWith _ fun d h => by
    have := weight_of_mem_row h
    have : sizeOf c.tree.children < sizeOf c.tree := by cases c.tree; simp; omega
    simp only [weight] at *; omega

/-- The cursors at the siblings after this one. -/
def siblings (c : Cursor) : List c.Below :=
  (row c.after).attachWith _ fun d h => by
    have := weight_of_mem_row h
    simp only [weight] at *; omega

def type (c : Cursor) : String :=
  c.tree.type

def range (c : Cursor) : Range :=
  c.tree.range

def isComment (c : Cursor) : Bool :=
  c.type = "comment"

/-- The children that are no comments, punctuation and keywords included. -/
def items (c : Cursor) : List c.Below :=
  c.children.filter (!·.1.isComment)

/-- The named children that are no comments. -/
def members (c : Cursor) : List c.Below :=
  c.children.filter fun d => d.1.tree.named && !d.1.isComment

/-- The children with a role. -/
def withRole (c : Cursor) (role : String) : List c.Below :=
  c.children.filter (·.1.tree.field = some role)

/-- The first sibling after this one that is named and no extra node. -/
def next? (c : Cursor) : Option c.Below :=
  c.siblings.find? fun d => d.1.tree.named && !d.1.tree.extra

/-- The cursor reached by going down to the child with each index in turn. -/
def descend? (c : Cursor) : List Index → Option Cursor
  | [] => some c
  | i :: path =>
    match i.member? c.children with
    | some d => d.1.descend? path
    | none => none

end Cursor

end JsonnetNav
