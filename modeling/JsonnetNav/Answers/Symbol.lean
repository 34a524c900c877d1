import JsonnetNav.Document

/-! # Symbols

Binds, parameters, clause variables and fields with a fixed key are the symbols of a
document. A symbol contains the symbols in its value.
-/

namespace JsonnetNav

inductive SymbolKind where
  | field | variable
  deriving Repr, DecidableEq

/-- A symbol. Its range is the name, its selection range the whole definition. -/
inductive Symbol where
  | mk (name : Text) (kind : SymbolKind) (range selection : Range) (children : List Symbol)

namespace Symbol

/-- The head of a symbol whose children are not known yet. -/
structure Head where
  name : Text
  kind : SymbolKind
  range : Range
  selection : Range

/-- The symbol that a node stands for. -/
def head? (s : Site) : Option Head :=
  match s.node with
  | .bind b => some ⟨b.id.name, .variable, b.id.range, b.range⟩
  | .param p => some ⟨p.id.name, .variable, p.id.range, p.range⟩
  | .forSpec f => some ⟨f.id.name, .variable, f.id.range, f.range⟩
  | .field f => f.key.id?.map fun id => ⟨id.name, .field, f.key.range, f.range⟩
  | _ => none

/-- Nodes whose symbol contains the symbols in them. A clause contains none: its
    variable is no value. -/
def isContainer (s : Site) : Bool :=
  match s.node with
  | .forSpec _ => false
  | _ => (head? s).isSome

/-- Symbols on their way: finished ones, the latest first, and the open ones around
    them, innermost first, each with the finished ones before it. -/
structure Builder where
  done : List Symbol := []
  around : List (Head × List Symbol) := []

namespace Builder

def finish (h : Head) (children : List Symbol) : Symbol :=
  .mk h.name h.kind h.range h.selection children.reverse

/-- Containers are open from entering to leaving them; the variable of a clause is
    added where its scope opens. -/
def step (b : Builder) : Event → Builder
  | .enter s =>
    match head? s with
    | some h => if isContainer s then ⟨[], (h, b.done) :: b.around⟩ else b
    | none => b
  | .leave s =>
    if isContainer s then
      match b.around with
      | (h, before) :: around => ⟨finish h b.done :: before, around⟩
      | [] => b
    else b
  | .opened s =>
    match head? s with
    | some h => if isContainer s then b else { b with done := finish h [] :: b.done }
    | none => b
  | .closed _ => b

end Builder

end Symbol

/-- The symbols of a document, field by field in objects. -/
def Document.symbols (d : Document) : List Symbol :=
  ((Walk.events .fieldByField d.site).foldl Symbol.Builder.step {}).done.reverse

end JsonnetNav
