import JsonnetNav.Ast.Arguments
import JsonnetNav.Definition.Plan

/-! # Finding objects, functions and their uses

Three questions that need each other: which objects can an expression stand for, which
functions can it stand for, and where is a function called. The answers are followed
through variables, calls, field accesses and imports, so a search may run in circles.
Every step inwards uses up one unit of depth, and a search that runs out of depth fails.
It also fails in a document that is no file.
-/

namespace JsonnetNav

/-- What a search sees of the workspace. -/
structure Workspace where
  document? : Uri → Option Document
  /-- The uri that the path of an import stands for. -/
  importTarget : Site → Except QueryError (Option Uri)
  /-- The documents that import a document, directly or through others. -/
  importers : Uri → List Uri

namespace Site

/-- The outermost object around a site. -/
def outermostObject? (s : Site) : Option Site :=
  (s.outward.filter fun t => t.kind = .object).getLast?

end Site

namespace Workspace

/-- The document in which a site lies. -/
def documentOf? (w : Workspace) (s : Site) : Option Document :=
  w.document? s.uri

/-- The binding that a reference to a variable was found under. -/
def varBinding? (w : Workspace) (ref : Site) : Option Binding :=
  (w.documentOf? ref).bind (·.bindingOfRef? ref)

/-- The fields of the object at a site. -/
def objectScope? (w : Workspace) (object : Site) : Option FieldScope :=
  (w.documentOf? object).bind (·.fieldScope? object)

/-- Goes on with the document that an import stands for. -/
def imported {α : Type} (w : Workspace) (importee : Site) (next : Document → Plan α) : Plan α :=
  match w.importTarget importee with
  | .ok uri => .ofOption (uri.bind w.document?) next
  | .error e => .fail e

/-- The layers of the second objects on top of those of the first. One side alone counts
    if nothing is known about the other. -/
def extended (parents children : List FieldScope) : List FieldScope :=
  if parents.isEmpty then children
  else if children.isEmpty then parents
  else parents.flatMap fun parent => children.map parent.extend

/-- The way to the field scopes of the objects that a node can stand for. -/
def scopePlan (w : Workspace) (s : Site) : Plan FieldScope :=
  match s.node with
  | .expr (.array _ values) =>
    .forEach (s.row .values (values.map .expr)) fun value => .find (.scopes value)
  | .expr (.binary _ .plus lhs rhs) =>
    .gather (.scopes (s.part .lhs (.expr lhs))) fun parents =>
      .gather (.scopes (s.part .rhs (.expr rhs))) fun children =>
        .found (extended parents children)
  | .expr (.call _ callee _) =>
    .ask (.fns (s.part .callee (.expr callee))) fun fn =>
      .forEach fn.bodyTails fun tail => .find (.scopes tail)
  | .expr (.dollar _) =>
    .ofOption s.outermostObject? fun object => .found (w.objectScope? object).toList
  | .expr (.fieldAccess _ _ field) =>
    .ask (.fields (s.part .field (.fieldRef field))) fun binding =>
      match binding.target.node with
      | .field f => .find (.scopes (binding.target.part .value (.expr f.value)))
      | _ => .none
  | .forSpec f => .find (.scopes (s.part .source (.expr f.source)))
  | .fieldRef _ => .ofOption s.parent? fun access => .find (.scopes access)
  | .expr (.ref _) => .ofOption (w.varBinding? s) fun binding => .find (.scopes binding.target)
  | .expr (.importFile _ .value importee) =>
    w.imported (s.part .importee (.importee importee)) fun document =>
      .find (.scopes document.site)
  | .expr (.object _ _ _ _) => .found (w.objectScope? s).toList
  | .param p =>
    .append
      (.ofOption p.default fun e => .find (.scopes (s.part .default (.expr e))))
      (.ofOption (s.enclosing? (.only .fn) (some 1)) fun fn =>
        .ask (.callers fn) fun call =>
          .ofOption (call.argOfParam? s) fun value => .find (.scopes value))
  | .expr (.self _) =>
    .ofOption (s.enclosing? (.only .object)) fun object => .found (w.objectScope? object).toList
  | node =>
    if Site.hasTailPosition node then .forEach s.tails fun tail => .find (.scopes tail)
    else .none

/-- The way to the functions that a node can stand for. -/
def fnPlan (w : Workspace) (s : Site) : Plan Site :=
  match s.node with
  | .expr (.call _ callee _) =>
    .ask (.fns (s.part .callee (.expr callee))) fun fn =>
      .forEach fn.bodyTails fun tail => .find (.fns tail)
  | .field f =>
    match f.value with
    | .fn _ _ _ => .found [s.part .value (.expr f.value)]
    | _ => .none
  | .expr (.fieldAccess _ _ field) => .find (.fns (s.part .field (.fieldRef field)))
  | .expr (.fn _ _ _) => .found [s]
  | .fieldRef _ => .ask (.fields s) fun binding => .find (.fns binding.target)
  | .expr (.ref _) => .ofOption (w.varBinding? s) fun binding => .find (.fns binding.target)
  | .expr (.importFile _ .value importee) =>
    w.imported (s.part .importee (.importee importee)) fun document => .find (.fns document.site)
  | node =>
    if Site.hasTailPosition node then .forEach s.tails fun tail => .find (.fns tail)
    else .none

/-- The way to the fields that the name of a field can refer to where it is read. -/
def fieldPlan (ref : Site) : Plan FieldBinding :=
  .ofOption (ref.enclosing? (.only .fieldAccess) (some 1)) fun access =>
    match access.node, ref.node with
    | .expr (.fieldAccess _ obj _), .fieldRef id =>
      .ask (.scopes (access.part .obj (.expr obj))) fun scope => .found (scope.get? id.name).toList
    | _, _ => .none

/-- The way to the calls of a function, in the documents that import its document and in
    its own. -/
def callerPlan (w : Workspace) (fn : Site) : Plan Site :=
  .forEach (w.importers fn.uri ++ [fn.uri]) fun uri =>
    .ofOption (w.document? uri) fun document =>
      .forEach document.calls fun call =>
        match call.node with
        | .expr (.call _ callee _) =>
          .ask (.fns (call.part .callee (.expr callee))) fun found =>
            if found.same fn then .found [call] else .none
        | _ => .none

/-- The way to the answer to a question. -/
def plan (w : Workspace) : (q : Question) → Plan q.Find
  | .scopes s => w.scopePlan s
  | .fns s => w.fnPlan s
  | .fields ref => fieldPlan ref
  | .callers fn => w.callerPlan fn

/-- In how many rounds the calls of one function are read, at least. -/
def readLimit : Nat := 10000

/-- The calls of a function are collected once, all other questions are answered anew
    every time. -/
def shared (rounds : Nat) : (q : Question) → Search q.Find → Search q.Find
  | .scopes _, search => search
  | .fns _, search => search
  | .fields _, search => search
  | .callers fn, search => .sharedCalls rounds fn.location search

/-- Answers a question. -/
def search (w : Workspace) : (depth : Nat) → (q : Question) → Search q.Find
  | 0, _ => .fail .tooDeep
  | depth + 1, q => .after q.site.demandFile <|
    shared (readLimit + depth) q ((w.plan q).run (w.search depth))

/-- The field scopes of the objects that a node can stand for. -/
def fieldScopes (w : Workspace) (depth : Nat) (s : Site) : Search FieldScope :=
  w.search depth (.scopes s)

/-- The functions that a node can stand for. -/
def fns (w : Workspace) (depth : Nat) (s : Site) : Search Site :=
  w.search depth (.fns s)

/-- The fields that the name of a field can refer to where it is read. -/
def fieldBindings (w : Workspace) (depth : Nat) (ref : Site) : Search FieldBinding :=
  w.search depth (.fields ref)

/-- The calls of a function. -/
def callers (w : Workspace) (depth : Nat) (fn : Site) : Search Site :=
  w.search depth (.callers fn)

/-- The depth at which a search is given up. Searches that end stay far below it. -/
def depthLimit : Nat := 900

end Workspace

end JsonnetNav
