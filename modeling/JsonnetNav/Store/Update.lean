import JsonnetNav.Store.Scan

/-! # Loading and changing documents

A workspace is loaded as a whole: first all documents, then the imports between them. A
file that cannot be loaded is left out. Later a single document is added, taken out or
updated, which is both in turn, and then a failure is reported.
-/

namespace JsonnetNav

namespace Store

/-- Reads, builds and resolves a document. -/
def load (t : FileTree) (uri : Uri) : Except StoreError Document := do
  let path ← (FilePath.ofUri uri).mapError .uri
  let content ← (t.read path).mapError .read
  match content with
  | .source tree =>
    let d ← (Document.ofParseTree uri tree).mapError .build
    return d.resolve
  | _ => throw (.build .wrongType)

/-- Links a document to the document that one of its imports stands for, if there is one. -/
def linkImport (t : FileTree) (d : Document) (importee : Site) : StoreAction Unit := do
  match (← get).importTarget t importee with
  | .ok (some uri) => modify fun s => { s with graph := s.graph.link d.uri uri }
  | .ok none => pure ()
  | .error e => throw (.query e)

/-- Links a document to the documents it imports. -/
def indexImports (t : FileTree) (d : Document) : StoreAction Unit :=
  d.importees.forM (linkImport t d)

/-- Takes in one path of the workspace: a library folder, or a document if it can be
    loaded. A file without a uri is an error. -/
def takeIn (t : FileTree) (p : FilePath) : StoreAction Unit := do
  if t.isFolder p then
    if (← get).config.isLibrary p then
      modify fun s => { s with libraryPaths := s.libraryPaths ++ [p] }
  else if t.isFile p then
    let uri ← p.toUri.mapError StoreError.uri
    match load t uri with
    | .ok d => modify (·.put d)
    | .error _ => pure ()

/-- Takes in the paths of the workspace and then links all documents. -/
def loadPaths (t : FileTree) (paths : List FilePath) : StoreAction Unit := do
  paths.forM (takeIn t)
  (← get).documents.forM fun (_, d) => indexImports t d

/-- Scans the workspace and loads what is there. The answer has the scanned paths. -/
def loadWorkspace (t : FileTree) : StoreAction (List FilePath) := do
  let paths ← (← get).scan t
  loadPaths t paths
  return paths

/-- Loads a document into the store. -/
def add (t : FileTree) (uri : Uri) : StoreAction Unit := do
  let d ← load t uri
  modify (·.put d)
  indexImports t d

/-- Takes a document out of the store, with all its links. -/
def delete (uri : Uri) : StoreAction Unit := do
  let s ← get
  if (s.document? uri).isNone then throw .unknownDocument
  let (graph, complete) := s.graph.unlink uri
  set { s with documents := s.documents.filter (·.1 ≠ uri), graph := graph }
  unless complete do throw .unknownDocument

/-- Loads a document again. -/
def update (t : FileTree) (uri : Uri) : StoreAction Unit := do
  delete uri
  add t uri

end Store

end JsonnetNav
