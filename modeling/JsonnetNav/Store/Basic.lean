import JsonnetNav.Definition.Finder
import JsonnetNav.Files.Glob
import JsonnetNav.Files.Tree
import JsonnetNav.Store.ImportGraph

/-! # Stores

A store holds the documents of a workspace and their import graph. What it knows about
files it is told by a file tree.
-/

namespace JsonnetNav

structure Store where
  config : Config
  workspaceUri : Uri
  /-- The folders in which imports are looked up, in this order. -/
  libraryPaths : List FilePath := []
  /-- The documents in the order in which they came. -/
  documents : List (Uri × Document) := []
  graph : ImportGraph := {}
  /-- The order in which searches go through the importers of a document. -/
  order : ImporterOrder := .increasing

/-- Why something cannot be done with a store. -/
inductive StoreError where
  | read (e : ReadError)
  /-- The parse tree is no document. -/
  | build (e : BuildError)
  /-- There is no such document, or the import graph does not know it. -/
  | unknownDocument
  /-- The path of the workspace has no root. -/
  | relativeWorkspace
  | uri (e : UriError)
  | query (e : QueryError)

namespace Store

def workspacePath (s : Store) : Except UriError FilePath :=
  FilePath.ofUri s.workspaceUri

def document? (s : Store) (uri : Uri) : Option Document :=
  s.documents.lookup uri

/-- Replaces a document in its place, or adds it at the end. -/
def put (s : Store) (d : Document) : Store :=
  { s with documents :=
      if (s.document? d.uri).isSome then
        s.documents.map fun (uri, old) => if uri = d.uri then (uri, d) else (uri, old)
      else s.documents ++ [(d.uri, d)] }

/-- The folders in which the imports of a document are looked up: its own, the library
    folders and that of the workspace. -/
def searchPath (s : Store) (importer : Uri) : List (Except UriError FilePath) :=
  (FilePath.ofUri importer).map FilePath.parent
    :: s.libraryPaths.map .ok ++ [s.workspacePath]

/-- The first file that a path leads to from one of the folders. A folder that is no path
    is an error if the search comes to it. -/
def findFile (t : FileTree) (path : FilePath) :
    List (Except UriError FilePath) → Except UriError (Option FilePath)
  | [] => return none
  | folder :: folders => do
    let file := (← folder).join path
    if t.isFile file then return some file else findFile t path folders

/-- The uri that an import of a path stands for: the path itself if it is absolute, or
    else the first file that the search path has for it. -/
def resolveImport (s : Store) (t : FileTree) (importer : Uri) (path : FilePath) :
    Except UriError (Option Uri) := do
  if path.isAbsolute then return some (← path.toUri)
  match ← findFile t path (s.searchPath importer) with
  | some file => return some (← (t.resolve file).toUri)
  | none => return none

/-- The uri that the path of an import stands for. -/
def importTarget (s : Store) (t : FileTree) (importee : Site) :
    Except QueryError (Option Uri) :=
  match importee.node with
  | .importee i => (s.resolveImport t importee.uri (.ofText i.value)).mapError .uri
  | _ => return none

/-- The documents that import a document, directly or through others, in the store's order. -/
def importers (s : Store) (uri : Uri) : List Uri :=
  s.graph.importers uri s.order

/-- What a search sees of the store. -/
def workspace (s : Store) (t : FileTree) : Workspace :=
  { document? := s.document?
    importTarget := s.importTarget t
    importers := s.importers }

end Store

/-- Work on a store. What was changed before a failure stays changed. -/
abbrev StoreAction := ExceptT StoreError (StateM Store)

end JsonnetNav
