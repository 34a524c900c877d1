import JsonnetNav.Answers.Error

/-! # Highlights and renaming

At a variable, all its occurrences are highlighted, and renaming it changes them all.
At an expression with tails in it, the tails are highlighted.
-/

namespace JsonnetNav

inductive HighlightKind where
  | read | write
  deriving Repr, DecidableEq

structure Highlight where
  range : Range
  kind : HighlightKind
  deriving Repr, DecidableEq

namespace Highlight

/-- The sites to highlight for a site. -/
def sites (d : Document) (s : Site) : List Site :=
  match s.node with
  | .field f =>
    let value := s.part .value (.expr f.value)
    match f.value with
    | .fn _ _ body => (value.part .body (.expr body)).tails
    | _ => value.tails
  | .expr (.fn _ _ body) => (s.part .body (.expr body)).tails
  | .var _ => d.references s ++ [s]
  | .expr (.ref _) =>
    match d.bindingOfRef? s with
    | some b => b.id :: d.references b.id
    | none => []
  | .expr (.cond _ _ _ _) | .expr (.localIn _ _ _) => s.tails
  | _ => []

/-- A variable is written where it is bound, and read elsewhere. -/
def ofSite (s : Site) : Highlight :=
  ⟨s.range, if s.kind = .var then .write else .read⟩

end Highlight

/-- The highlights for a target in a document. -/
def Document.highlights (d : Document) (target : Range) :
    Except QueryError (List Highlight) := do
  d.demandResolved
  match d.nodeAt? target with
  | some s => return (Highlight.sites d s).map Highlight.ofSite
  | none => return []

namespace Rename

/-- The variable at a site, if the site is one or refers to one. -/
def variableAt? (d : Document) (s : Site) : Option Site :=
  match s.node with
  | .var _ => some s
  | .expr (.ref _) => (d.bindingOfRef? s).map Binding.id
  | _ => none

end Rename

/-- The ranges that renaming the variable at a target changes: its references, then the
    variable itself. -/
def Document.renameRanges (d : Document) (target : Range) : List Range :=
  match (d.nodeAt? target).bind (Rename.variableAt? d) with
  | some var => (d.references var ++ [var]).map Site.range
  | none => []

/-- The range and name at a target, if it is the name of a variable. -/
def Document.renameTarget (d : Document) (target : Range) :
    Except QueryError (Option (Range × Text)) := do
  d.demandResolved
  return (d.nodeAt? target).bind fun s =>
    match s.node with
    | .var id | .expr (.ref id) => some (id.range, id.name)
    | _ => none

end JsonnetNav
