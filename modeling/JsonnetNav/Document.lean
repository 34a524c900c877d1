import JsonnetNav.Ast.Build
import JsonnetNav.Ast.Tails
import JsonnetNav.Scope.Resolution

/-! # Documents

A document is a tree with a uri. Its names are resolved in a step of its own, and
without it most questions about the document have no answer.
-/

namespace JsonnetNav

/-- A document and, once it is resolved, what is known about its names. -/
structure Document where
  uri : Uri
  root : Node
  resolution : Option Resolution := none

namespace Document

/-- The document that a parse tree stands for. -/
def ofParseTree (uri : Uri) (tree : ParseTree) : Except BuildError Document := do
  return { uri := uri, root := ← Build.asKind .document (.ofRoot tree) }

/-- The site of the whole document. -/
def site (d : Document) : Site :=
  ⟨d.uri, d.root, []⟩

def location (d : Document) : Location :=
  d.site.location

def isResolved (d : Document) : Bool :=
  d.resolution.isSome

/-- The document with its names resolved. A document that is resolved again gets new
    scopes, and lists what it finds after what it found before. -/
def resolve (d : Document) : Document :=
  { d with resolution := some (Resolution.run d.site d.resolution) }

/-- All sites of the document, each before the ones inside of it. -/
def sites (d : Document) : List Site :=
  d.site.preorder

/-- The innermost site around the target. -/
def nodeAt? (d : Document) (target : Range) : Option Site :=
  d.site.nodeAt? target

/-- The binding of a variable. -/
def bindingOf? (d : Document) (var : Site) : Option Binding :=
  d.resolution.bind (·.scopes.bindingOf? var)

/-- The binding that a reference to a variable was found under. -/
def bindingOfRef? (d : Document) (ref : Site) : Option Binding :=
  d.resolution.bind (·.bindingOfRef? ref)

/-- The references to a variable, in the order of the walk. -/
def references (d : Document) (var : Site) : List Site :=
  match d.resolution with
  | some r => r.references var
  | none => []

def calls (d : Document) : List Site :=
  match d.resolution with
  | some r => r.calls.toList
  | none => []

def fieldRefs (d : Document) : List Site :=
  match d.resolution with
  | some r => r.fieldRefs.toList
  | none => []

def importees (d : Document) : List Site :=
  match d.resolution with
  | some r => r.importees.toList
  | none => []

/-- The nodes in the order in which a walk comes to them as expressions. -/
def visited (d : Document) : List Site :=
  (Walk.events .keysFirst d.site).filterMap fun
    | .enter s => if s.kind.isExpr then some s else none
    | _ => none

end Document

end JsonnetNav
