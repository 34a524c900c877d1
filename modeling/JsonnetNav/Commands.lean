import JsonnetNav.Ast.Printer
import JsonnetNav.Scope.Printer
import JsonnetNav.Store.Update

/-! # Commands

Printing the tree of a file, and indexing a workspace.
-/

namespace JsonnetNav

/-- Which tree to print. -/
inductive TreeType where
  /-- The abstract syntax tree. -/
  | abstractTree
  | parseTree
  /-- The scopes of the variables. -/
  | scopes
  deriving Repr, DecidableEq

namespace TreeType

def ofLetter? : String → Option TreeType
  | "j" => some abstractTree
  | "t" => some parseTree
  | "v" => some scopes
  | _ => none

end TreeType

/-- Why a command fails. -/
inductive CommandError where
  | unknownTreeType
  | store (e : StoreError)

namespace Command

/-- The path that stands for the standard input. -/
def inputPath : FilePath := .ofString "-"

/-- The uri of a document on the standard input. -/
def inputUri : Uri := "/dev/stdin"

/-- The uri and the parse tree at a path, or on the standard input. -/
def source (t : FileTree) (input : ParseTree) (path : FilePath) :
    Except StoreError (Uri × ParseTree) := do
  if path = inputPath then return (inputUri, input)
  match ← (t.read path).mapError .read with
  | .source tree => return (← path.toUri.mapError .uri, tree)
  | _ => throw (.build .wrongType)

/-- The printed tree of a source. Whichever tree it is, the source has to be a document. -/
def tree (t : FileTree) (input : ParseTree) (path : FilePath) (letter : String) :
    Except CommandError String := do
  match TreeType.ofLetter? letter with
  | none => throw .unknownTreeType
  | some type =>
    let (uri, parsed) ← (source t input path).mapError .store
    let d ← (Document.ofParseTree uri parsed).mapError (.store ∘ .build)
    match type with
    | .abstractTree => return d.root.render uri
    | .parseTree => return parsed.render
    | .scopes => return (Resolution.run d.site none).scopes.render 0

/-- The configuration in a file, or the standard one. -/
def readConfig (t : FileTree) : Option FilePath → Except StoreError Config
  | none => return {}
  | some path => do
    match ← (t.read path).mapError .read with
    | .config config => return config
    | _ => return {}

/-- The store of the workspace at a path: a folder, or the folder around a file. -/
def index (t : FileTree) (path : FilePath) (config : Option FilePath) :
    Except StoreError Store := do
  let folder := if t.isFile path then path.parent else path
  let config ← readConfig t config
  let uri ← folder.toUri.mapError .uri
  let (result, store) :=
    (Store.loadWorkspace t).run.run { config := config, workspaceUri := uri }
  match result with
  | .ok _ => return store
  | .error e => throw e

end Command

end JsonnetNav
