import JsonnetNav.Ast.Site
import JsonnetNav.Index

/-! # Scopes

Scopes form a growing table. A scope has an owner, a frame of bindings, a parent and a
list of children. Frames and child lists are shared: a copy of a scope sees what is
bound in the scope it was copied from, and the other way round. In a frame the latest
binding comes first, and a name that is not bound in a scope is looked up in its
parent. A scope is always younger than its parent.
-/

namespace JsonnetNav

/-- The number of a scope in its table. -/
abbrev ScopeId := Nat

/-- A name bound to a node, and the scope in which that was done. -/
structure Binding where
  name : Text
  id : Site
  target : Site
  scope : ScopeId

/-- A scope. Its frame and its list of children are kept in the table. -/
structure Scope where
  owner : Site
  frame : Nat
  parent : Option ScopeId
  children : Nat

/-- All scopes, frames and child lists made so far. -/
structure ScopeTable where
  scopes : Array Scope := #[]
  frames : Array (List Binding) := #[]
  rows : Array (List ScopeId) := #[]

namespace ScopeTable

/-- The bindings of a scope, the latest first. -/
def bindings (t : ScopeTable) (s : Scope) : List Binding :=
  t.frames.getD s.frame []

/-- The children of a scope, the oldest first. -/
def childrenOf (t : ScopeTable) (s : Scope) : List ScopeId :=
  t.rows.getD s.children []

/-- A scope and the scopes around it, innermost first. -/
def chain (t : ScopeTable) (i : ScopeId) : List Scope :=
  match t.scopes[i]? with
  | none => []
  | some s =>
    s :: match s.parent with
      | some p => if p < i then t.chain p else []
      | none => []
termination_by i

/-- The latest binding of a name in the innermost scope that has one. -/
def get? (t : ScopeTable) (i : ScopeId) (name : Text) : Option Binding :=
  (t.chain i).findSome? fun s => (t.bindings s).find? (·.name = name)

/-- A new scope with no bindings and no children; the answer has its number. -/
def add (t : ScopeTable) (owner : Site) (parent : Option ScopeId) : ScopeTable × ScopeId :=
  ({ scopes := t.scopes.push ⟨owner, t.frames.size, parent, t.rows.size⟩
     frames := t.frames.push []
     rows := t.rows.push [] }, t.scopes.size)

/-- A new scope on its own. -/
def empty (t : ScopeTable) (owner : Site) : ScopeTable × ScopeId :=
  t.add owner none

/-- A new scope inside of a scope. -/
def nest (t : ScopeTable) (i : ScopeId) (owner : Site) : ScopeTable × ScopeId :=
  let (t, child) := t.add owner (some i)
  match t.scopes[i]? with
  | some s => ({ t with rows := t.rows.modify s.children (· ++ [child]) }, child)
  | none => (t, child)

/-- Binds a name in a scope. -/
def bind (t : ScopeTable) (i : ScopeId) (name : Text) (id target : Site) : ScopeTable :=
  match t.scopes[i]? with
  | some s => { t with frames := t.frames.modify s.frame (⟨name, id, target, i⟩ :: ·) }
  | none => t

/-- Copies of two scopes with the second as a child of the first. The copy of the
    first has a child list of its own; the answer has the number of the child. -/
def copyWithChild (t : ScopeTable) (i j : ScopeId) : ScopeTable × ScopeId :=
  match t.scopes[i]?, t.scopes[j]? with
  | some parent, some child =>
    let n := t.scopes.size
    ({ t with
       scopes := (t.scopes.push { parent with children := t.rows.size }).push
         { child with parent := some n }
       rows := t.rows.push (t.childrenOf parent ++ [n + 1]) }, n + 1)
  | _, _ => (t, t.scopes.size)

/-- The scope reached by going to the child with each index in turn. -/
def descend? (t : ScopeTable) (i : ScopeId) : List Index → Option ScopeId
  | [] => some i
  | index :: path => do
    let child ← index.member? (t.childrenOf (← t.scopes[i]?))
    t.descend? child path

/-- The binding of the variable at a site. -/
def bindingOf? (t : ScopeTable) (id : Site) : Option Binding :=
  t.frames.toList.findSome? fun frame => frame.find? (·.id.isAt id)

/-- The owner of the scope in which a name was bound. -/
def ownerOf? (t : ScopeTable) (b : Binding) : Option Site :=
  t.scopes[b.scope]?.map Scope.owner

end ScopeTable

end JsonnetNav
