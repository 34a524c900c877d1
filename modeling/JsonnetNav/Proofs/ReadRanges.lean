import JsonnetNav.Proofs.Documents
import Mathlib

/-! # Ranges of what is read

A parser writes its nodes down in the order of the text: a node does not stop before it starts,
its children start no earlier than it does, and each of them starts where the one before has
stopped, or later. Where a tree is in order, no expression that is read from a node stops before
the node starts. Its range is not always that of the node: parentheses are left out, and
functions and assertions reach as far as their bodies do.
-/

namespace JsonnetNav

namespace Position

theorem le_iff {a b : Position} :
    a ≤ b ↔ a.line < b.line ∨ (a.line = b.line ∧ a.character ≤ b.character) :=
  Iff.rfl

theorem le_trans {a b c : Position} (first : a ≤ b) (second : b ≤ c) : a ≤ c := by
  rw [le_iff] at *
  omega

end Position

namespace ParseTree

mutual

/-- The nodes of the tree follow the order of the text. -/
def inOrder : ParseTree → Bool
  | ⟨_, range, _, children, _, _, _⟩ => range.start ≤ range.stop && rowInOrder range.start children

/-- The trees of a row follow the order of the text from this position on. -/
def rowInOrder (start : Position) : List ParseTree → Bool
  | [] => true
  | t :: ts => start ≤ t.range.start && t.inOrder && rowInOrder t.range.stop ts

end

theorem inOrder_iff {t : ParseTree} :
    t.inOrder ↔ t.range.start ≤ t.range.stop ∧ rowInOrder t.range.start t.children := by
  obtain ⟨type, range, text, children, field, named, extra⟩ := t
  simp [inOrder]

theorem rowInOrder_cons {start : Position} {t : ParseTree} {ts : List ParseTree} :
    rowInOrder start (t :: ts) ↔
      start ≤ t.range.start ∧ t.inOrder ∧ rowInOrder t.range.stop ts := by
  simp [rowInOrder, and_assoc]

end ParseTree

namespace Cursor

open ParseTree

/-- A cursor of a row that is in order is at a tree in order, and so is what comes after it. -/
theorem inOrder_of_mem_row {start : Position} {trees : List ParseTree} {d : Cursor}
    (ordered : rowInOrder start trees) (member : d ∈ row trees) :
    start ≤ d.range.start ∧ d.tree.inOrder ∧ rowInOrder d.range.stop d.after := by
  induction trees generalizing start with
  | nil => cases member
  | cons t ts ih =>
      obtain ⟨begins, here, rest⟩ := rowInOrder_cons.mp ordered
      rcases List.mem_cons.mp member with rfl | later
      · exact ⟨begins, here, rest⟩
      · obtain ⟨after, below⟩ := ih rest later
        have past := Position.le_trans (inOrder_iff.mp here).1 after
        exact ⟨Position.le_trans begins past, below⟩

theorem mem_row_of_mem_members {c : Cursor} {d : c.Below} (member : d ∈ c.members) :
    d.1 ∈ row c.tree.children := by
  have child : d ∈ c.children := List.mem_of_mem_filter member
  unfold children at child
  exact (List.mem_attachWith _ _).mp child

end Cursor

namespace Build

/-- Whatever is built meets the condition. -/
def Yields {α : Type} (built : Result α) (P : α → Prop) : Prop :=
  ∀ a, built = .ok a → P a

section Yields

variable {α β : Type} {P : α → Prop}

@[simp]
theorem yields_pure {a : α} : Yields (pure a) P ↔ P a := by
  constructor
  · intro all
    exact all a rfl
  · rintro here _ ⟨⟩
    exact here

@[simp]
theorem yields_throw {error : BuildError} : Yields (throw error) P := by
  rintro _ ⟨⟩

@[simp]
theorem yields_bind {x : Result β} {f : β → Result α} :
    Yields (x >>= f) P ↔ ∀ b, x = .ok b → Yields (f b) P := by
  simp only [Yields, Except.bind_eq_ok]
  grind

@[simp]
theorem yields_map {x : Result β} {f : β → α} :
    Yields (f <$> x) P ↔ ∀ b, x = .ok b → P (f b) := by
  rw [map_eq_pure_bind]
  simp only [yields_bind, yields_pure]

end Yields

theorem merge_eq_ok {first second range : Range} :
    merge first second = .ok range ↔
      first.start ≤ second.stop ∧ range = ⟨first.start, second.stop⟩ := by
  unfold merge Range.merge?
  by_cases inOrder : first.start ≤ second.stop
  · simp [inOrder, pure, Except.pure, eq_comm]
  · simp [inOrder, throw, throwThe, MonadExceptOf.throw]

theorem ident_range (c : Cursor) : Yields (ident c) fun id => id.range = c.range := by
  simp [ident]

theorem assertion_range (c : Cursor) : Yields (assertion c) fun a => a.range = c.range := by
  rw [assertion]
  simp only [yields_bind]
  intro _ _
  split <;> simp

theorem objComp_range (c : Cursor) : Yields (objComp c) fun e => e.range = c.range := by
  rw [objComp]
  simp only [yields_bind]
  intro _ _ _ _
  split
  · simp only [yields_bind]
    intro _ _
    split
    · split
      · simp
      · simp [Expr.range]
    · exact yields_throw
  · exact yields_throw

/-- If the node is an expression, then it does not stop before this position. -/
def StopsFrom (p : Position) : Node → Prop
  | .expr e => p ≤ e.range.stop
  | _ => True

variable {c : Cursor}

theorem fn_stops : Yields (asKind .fn c) (StopsFrom c.range.start) := by
  have merged (params : List Param) (body : Expr) : Yields
      (do return Node.expr (.fn (← merge c.range body.range) params body))
      (StopsFrom c.range.start) := by
    simp only [yields_bind, yields_pure]
    intro range done
    obtain ⟨reaches, rfl⟩ := merge_eq_ok.mp done
    exact reaches
  rw [asKind]
  simp only [yields_bind]
  intro _ _
  split
  · exact yields_throw
  · split
    · split
      · exact yields_bind.mpr fun params _ => merged params _
      · exact merged [] _
    · exact merged [] _

theorem assertIn_stops : Yields (asKind .assertIn c) (StopsFrom c.range.start) := by
  rw [asKind]
  simp only [yields_bind]
  intro a read
  split
  · simp only [yields_bind, yields_pure]
    intro range done
    obtain ⟨reaches, rfl⟩ := merge_eq_ok.mp done
    rw [← assertion_range c a read]
    exact reaches
  · exact yields_throw

/-- All other expressions have the range of their node. -/
theorem asKind_stops (proper : c.range.start ≤ c.range.stop) (kind : Kind) :
    Yields (asKind kind c) (StopsFrom c.range.start) := by
  have whole {e : Expr} (same : e.range = c.range) : StopsFrom c.range.start (.expr e) := by
    rw [StopsFrom, same]
    exact proper
  cases kind with
  | fn => exact fn_stops
  | assertIn => exact assertIn_stops
  | null | dollar | self | super | str | importee | bool | array | unknown | malformed
  | misplaced =>
      rw [asKind]
      simp [StopsFrom, Expr.range, proper]
  | bind | param | arg | forSpec | ifSpec | assertion | fixedKey | computedKey | field
  | var | fieldName | fieldRef | paramRef =>
      rw [asKind]
      simp [StopsFrom]
  | document | num | unary | call | listComp | importFile | fieldAccess | slice | cond =>
      rw [asKind]
      simp only [yields_bind]
      intros
      split <;> simp [StopsFrom, Expr.range, proper]
  | binary =>
      rw [asKind]
      simp only [yields_bind]
      intro _ _
      split <;> split <;> simp [StopsFrom, Expr.range, proper]
  | localIn =>
      rw [asKind]
      simp only [yields_bind]
      intro _ _
      split
      · exact yields_throw
      · simp only [yields_bind]
        intro _ _
        split <;> simp [StopsFrom, Expr.range, proper]
  | varRef =>
      rw [asKind]
      simp only [yields_bind, yields_pure]
      intro id read
      exact whole (ident_range c id read)
  | object =>
      rw [asKind]
      simp only [yields_bind]
      intro _ _
      split
      · simp only [yields_bind, yields_pure]
        intro e read
        exact whole (objComp_range c e read)
      · simp [StopsFrom, Expr.range, proper]
  | objComp =>
      rw [asKind]
      simp only [yields_bind, yields_pure]
      intro e read
      exact whole (objComp_range c e read)

theorem start_le_stop_expr {c : Cursor} (ordered : c.tree.inOrder) :
    c.range.start ≤ (expr c).range.stop := by
  obtain ⟨proper, inside⟩ := ParseTree.inOrder_iff.mp ordered
  have formed : Yields (form c) (StopsFrom c.range.start) := by
    rw [form]
    split
    · split
      · rename_i inner lighter rest members
        have member := Cursor.mem_row_of_mem_members (members ▸ List.mem_cons_self)
        obtain ⟨begins, here, -⟩ := Cursor.inOrder_of_mem_row inside member
        exact yields_pure.mpr (Position.le_trans begins (start_le_stop_expr here))
      · exact yields_throw
    · split
      · exact asKind_stops proper _
      · exact yields_pure.mpr proper
  rw [expr, node]
  cases read : form c with
  | error _ => exact proper
  | ok n =>
      have stops := formed n read
      cases n with
      | expr e => exact stops
      | _ => exact proper
termination_by c.weight

end Build

end JsonnetNav
