import JsonnetNav.Scope.Table

/-! # Histories of scopes

Scopes that are made by hand, one step after the other, and are known by their place in
a list.
-/

namespace JsonnetNav

/-- One step in the making of scopes. Scopes are given by their place in the list. -/
inductive ScopeStep where
  | empty (owner : Site)
  | nest (i : Index) (owner : Site)
  | bind (i : Index) (name : Text) (id target : Site)
  | copyWithChild (i j : Index)

/-- Scopes and the list in which they are known. -/
structure ScopeHistory where
  table : ScopeTable := {}
  listed : List ScopeId := []

namespace ScopeHistory

/-- The history with a new scope at the end of its list. -/
def list (h : ScopeHistory) (made : ScopeTable × ScopeId) : ScopeHistory :=
  { table := made.1, listed := h.listed ++ [made.2] }

/-- Does one step, if all scopes it is about are listed. -/
def step? (h : ScopeHistory) : ScopeStep → Option ScopeHistory
  | .empty owner => return h.list (h.table.empty owner)
  | .nest i owner => do
    let scope ← i.member? h.listed
    return h.list (h.table.nest scope owner)
  | .bind i name id target => do
    let scope ← i.member? h.listed
    return { h with table := h.table.bind scope name id target }
  | .copyWithChild i j => do
    let parent ← i.member? h.listed
    let child ← j.member? h.listed
    return h.list (h.table.copyWithChild parent child)

/-- The chains of all listed scopes. -/
def chains (h : ScopeHistory) : List (List Scope) :=
  h.listed.map h.table.chain

end ScopeHistory

end JsonnetNav
