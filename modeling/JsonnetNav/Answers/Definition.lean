import JsonnetNav.Definition.Finder

/-! # Definitions and references

From a name to the place where it is defined, and from there back to where it is used.
-/

namespace JsonnetNav

namespace Workspace

/-- The way to the places of the parameters that the name of an argument can refer to. -/
def paramPlan (w : Workspace) (ref : Site) : Plan Location :=
  .ofOption (ref.enclosing? (.only .call) (some 2)) fun call =>
    match call.node, ref.node with
    | .expr (.call _ callee _), .paramRef id =>
      .ask (.fns (call.part .callee (.expr callee))) fun fn =>
        .forEach fn.parameters fun (param, p) =>
          if p.id.name = id.name then
            .ofOption ((w.documentOf? param).bind (·.bindingOf? (param.part .id (.var p.id))))
              fun binding => .found [binding.id.location]
          else .none
    | _, _ => .none

/-- The way to the places where the name at a site is defined. -/
def definitionPlan (w : Workspace) (s : Site) : Plan Location :=
  match s.node with
  | .fieldRef _ => .ask (.fields s) fun binding => .found [binding.id.location]
  | .paramRef _ => w.paramPlan s
  | .expr (.ref _) => .found ((w.varBinding? s).map fun binding => binding.id.location).toList
  | .importee _ => w.imported s fun document => .found [document.location]
  | _ => .none

/-- The places where the name at a site is defined. -/
def definitionsOf (w : Workspace) (depth : Nat) (s : Site) : Search Location :=
  .after s.demandFile ((w.definitionPlan s).run (w.search depth))

/-- The definitions of the name at a target in a document. -/
def definitions (w : Workspace) (d : Document) (target : Range) (depth : Nat := depthLimit) :
    Except QueryError (List Location) := do
  d.demandResolved
  match d.nodeAt? target with
  | some s => (w.definitionsOf depth s).results
  | none => return []

/-- The references that can mean the field with this name, once for each way they can.
    Every reference is looked into by a search of its own. -/
def fieldReferences (w : Workspace) (depth : Nat) (field : Site) (name : Text) :
    Except QueryError (List Site) := do
  let uris := w.importers field.uri ++ [field.uri]
  let refs := (uris.filterMap w.document?).flatMap Document.fieldRefs
  let found ← (refs.filter (·.hasName name)).mapM fun ref => do
    let bindings ← (w.fieldBindings depth ref).results
    return (bindings.filter (·.id.same field)).map fun _ => ref
  return found.flatten

/-- The references to the name at a site. -/
def referencesOf (w : Workspace) (depth : Nat) (d : Document) (s : Site) :
    Except QueryError (List Site) :=
  match s.node with
  | .fieldName id => w.fieldReferences depth s id.name
  | .var _ => return d.references s
  | _ => return []

/-- The references to the name at a target in a document, if there are any. -/
def references (w : Workspace) (d : Document) (target : Range) (depth : Nat := depthLimit) :
    Except QueryError (Option (List Location)) := do
  d.demandResolved
  match d.nodeAt? target with
  | some s =>
    let found ← w.referencesOf depth d s
    return if found.isEmpty then none else some (found.map Site.location)
  | none => return none

end Workspace

end JsonnetNav
