import JsonnetNav.Definition.FieldScope
import JsonnetNav.Definition.Search

/-! # Plans

A question about a site may need the answers to other questions. A plan says which ones,
and what to do with everything that they find. How the questions are answered is left
open.
-/

namespace JsonnetNav

/-- What a search can be after. -/
inductive Question where
  /-- The field scopes of the objects that a node can stand for. -/
  | scopes (s : Site)
  /-- The functions that a node can stand for. -/
  | fns (s : Site)
  /-- The fields that the name of a field can refer to where it is read. -/
  | fields (ref : Site)
  /-- The calls of a function. -/
  | callers (fn : Site)

namespace Question

/-- What the answer to a question consists of. -/
abbrev Find : Question → Type
  | scopes _ => FieldScope
  | fns _ => Site
  | fields _ => FieldBinding
  | callers _ => Site

/-- The site that a question is about. -/
def site : Question → Site
  | scopes s | fns s | fields s | callers s => s

end Question

/-- The way to an answer. -/
inductive Plan (α : Type) : Type 1 where
  /-- These are found. -/
  | found (xs : List α)
  | fail (error : QueryError)
  /-- A plan for each member of a list, in turn. -/
  | forEach {β : Type} (xs : List β) (next : β → Plan α)
  /-- A plan for each thing that the question finds, as soon as it is found. -/
  | ask (q : Question) (next : q.Find → Plan α)
  /-- A plan for all that the question finds. -/
  | gather (q : Question) (next : List q.Find → Plan α)
  | append (first second : Plan α)

namespace Plan

variable {α β : Type}

def none : Plan α :=
  found []

def ofOption (x : Option β) (next : β → Plan α) : Plan α :=
  forEach x.toList next

/-- Finds what the question finds. -/
def find (q : Question) : Plan q.Find :=
  ask q fun x => found [x]

/-- Follows a plan with the given way to answer questions. -/
def run (answer : (q : Question) → Search q.Find) : Plan α → Search α
  | found xs => .each xs
  | fail e => .fail e
  | forEach xs next => .each xs >>= fun x => (next x).run answer
  | ask q next => answer q >>= fun x => (next x).run answer
  | gather q next => .ofRun (answer q).toList >>= fun xs => (next xs).run answer
  | append first second => .append (first.run answer) (second.run answer)

end Plan

end JsonnetNav
