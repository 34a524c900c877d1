import JsonnetNav.Position

/-! # Import graphs

Which documents a document imports, and which documents it is imported by. Both are
kept as maps to sets of uris, and no document is mapped to an empty set.
-/

namespace JsonnetNav

/-- A map from uris to sets of uris. -/
abbrev LinkMap := List (Uri × List Uri)

namespace LinkMap

/-- The set of a uri. -/
def get (m : LinkMap) (key : Uri) : List Uri :=
  (m.lookup key).getD []

/-- Changes the set of a uri, if it has one. -/
def modify (m : LinkMap) (key : Uri) (f : List Uri → List Uri) : LinkMap :=
  m.map fun (k, values) => if k = key then (k, f values) else (k, values)

/-- Adds a uri to the set of a uri. -/
def insert (m : LinkMap) (key value : Uri) : LinkMap :=
  if (m.lookup key).isSome then
    m.modify key fun values => if value ∈ values then values else values ++ [value]
  else m ++ [(key, [value])]

/-- Takes the set of a uri away. -/
def erase (m : LinkMap) (key : Uri) : LinkMap :=
  m.filter (·.1 ≠ key)

/-- Takes a uri out of the set of a uri. A set that is empty then goes away, so there has
    to be one. -/
def discard? (m : LinkMap) (key value : Uri) : Option LinkMap :=
  match (m.get key).filter (· ≠ value) with
  | [] => if (m.lookup key).isSome then some (m.erase key) else none
  | values => some (m.modify key fun _ => values)

/-- Takes a uri out of the sets of some uris in turn, up to the first one that has no set.
    The answer also says whether all of them had one. -/
def discardFrom (m : LinkMap) (value : Uri) : List Uri → LinkMap × Bool
  | [] => (m, true)
  | key :: keys =>
    match m.discard? key value with
    | some m => m.discardFrom value keys
    | none => (m, false)

/-- All uris that stand in a set. -/
def members (m : LinkMap) : List Uri :=
  (m.flatMap Prod.snd).eraseDups

/-- The unseen uris that the links lead to from a list of uris. -/
def reach (m : LinkMap) (unseen : List Uri) : List Uri → List Uri
  | [] => []
  | uri :: todo =>
    if _h : uri ∈ unseen then uri :: m.reach (unseen.erase uri) (m.get uri ++ todo)
    else m.reach unseen todo
termination_by todo => (unseen.length, todo.length)
decreasing_by
  · have := List.length_pos_of_mem _h
    exact .left _ _ (by rw [List.length_erase_of_mem _h]; omega)
  · exact .right _ (Nat.lt_succ_self _)

end LinkMap

/-- An order to go through the importers of a document in. Sets have no order of their own, so
    it can be any. -/
structure ImporterOrder where
  /-- The importers of a document, put in order. -/
  arrange : Uri → List Uri → List Uri
  perm : ∀ uri importers, (arrange uri importers).Perm importers

namespace ImporterOrder

/-- Smaller uris come first. -/
def increasing : ImporterOrder where
  arrange _ importers := importers.mergeSort fun a b => !(b < a)
  perm _ importers := List.mergeSort_perm importers _

end ImporterOrder

structure ImportGraph where
  imports : LinkMap := []
  importedBy : LinkMap := []
  deriving Repr

namespace ImportGraph

/-- Notes that a document imports another one. -/
def link (g : ImportGraph) (importer importee : Uri) : ImportGraph :=
  { imports := g.imports.insert importer importee
    importedBy := g.importedBy.insert importee importer }

/-- Takes away everything that has to do with a document. The answer also says whether
    every link was there in both directions; the work stops at one that was not. -/
def unlink (g : ImportGraph) (uri : Uri) : ImportGraph × Bool :=
  let imports := g.imports.erase uri
  match g.importedBy.discardFrom uri (g.imports.get uri) with
  | (importedBy, false) => ({ imports := imports, importedBy := importedBy }, false)
  | (importedBy, true) =>
    let (imports, complete) := imports.discardFrom uri (importedBy.get uri)
    ({ imports := imports, importedBy := importedBy.erase uri }, complete)

/-- The documents that import a document, directly or through others. -/
def importers (g : ImportGraph) (uri : Uri) (order : ImporterOrder := .increasing) : List Uri :=
  order.arrange uri (g.importedBy.reach g.importedBy.members (g.importedBy.get uri))

end ImportGraph

end JsonnetNav
