import JsonnetNav.Answers.Error

/-! # Inlay hints

A reference gets an arrow to where its variable is bound: down for the variable of a
clause, which stands after its references, and up for every other. A binder gets an
arrow the other way with the number of its references.
-/

namespace JsonnetNav

inductive Arrow where
  | up | down
  deriving Repr, DecidableEq

/-- What a hint shows. -/
inductive HintLabel where
  | arrow (a : Arrow)
  | count (a : Arrow) (references : Nat)
  deriving Repr, DecidableEq

structure Hint where
  position : Position
  label : HintLabel
  deriving Repr, DecidableEq

namespace Hint

/-- The hint at a binder. -/
def atBinder (d : Document) (s : Site) (id : Ident) (arrow : Arrow) : Hint :=
  ⟨id.range.start, .count arrow (d.references (s.part .id (.var id))).length⟩

/-- The hint for a step of the walk. -/
def ofEvent? (d : Document) : Event → Option Hint
  | .enter s =>
    match s.node with
    | .expr (.ref id) =>
      (d.bindingOfRef? s).map fun b =>
        ⟨id.range.start, .arrow (if b.target.kind = .forSpec then .down else .up)⟩
    | _ => none
  | .leave s =>
    match s.node with
    | .bind b => some (atBinder d s b.id .down)
    | .param p => some (atBinder d s p.id .down)
    | _ => none
  | .opened s =>
    match s.node with
    | .forSpec f => some (atBinder d s f.id .up)
    | _ => none
  | .closed _ => none

end Hint

/-- The hints of a document in the order of the walk. -/
def Document.hints (d : Document) : Except QueryError (List Hint) := do
  d.demandResolved
  return (Walk.events .keysFirst d.site).filterMap (Hint.ofEvent? d)

end JsonnetNav
