import JsonnetNav.Answers.Definition
import JsonnetNav.Answers.Fold
import JsonnetNav.Answers.Hint
import JsonnetNav.Answers.Occurrence
import JsonnetNav.Answers.Symbol
import JsonnetNav.Store.Update

/-! # Servers

A server is created, initializes and is initialized. Until it is, requests wait at a
latch. Every start sets up a new latch, and a latch opens once, when the server has been
initialized after that start.
-/

namespace JsonnetNav

/-- How far a server has come. -/
inductive ServerState where
  | created | initializing | initialized
  deriving Repr, DecidableEq

namespace ServerState

def name : ServerState → String
  | created => "Created" | initializing => "Initializing" | initialized => "Initialized"

end ServerState

/-- The workspace as the client describes it. -/
structure ClientWorkspace where
  folders : List Uri := []
  rootUri : Option Uri := none
  rootPath : Option String := none
  deriving Repr, DecidableEq

/-- Why a server does not answer. -/
inductive ServerError where
  /-- The server is not in a state to do this. -/
  | notReady
  /-- The latch has been opened before. -/
  | alreadyOpen
  | severalFolders
  | noWorkspace
  | uri (e : UriError)
  | store (e : StoreError)
  | query (e : QueryError)

namespace ServerError

/-- The text shown for an error, if it has one. -/
def message? : ServerError → Option String
  | severalFolders => some "Joule does not support multi-workspace."
  | noWorkspace => some "No valid workspace URI detected."
  | store (.build e) => e.message?
  | query e => e.message?
  | _ => none

end ServerError

/-- What happened to a watched file. -/
inductive FileChange where
  | created (uri : Uri)
  | changed (uri : Uri)
  | deleted (uri : Uri)
  deriving Repr, DecidableEq

/-- What a client asks for or tells. -/
inductive Request where
  | symbols (uri : Uri)
  | hints (uri : Uri)
  | folds (uri : Uri)
  | definitions (uri : Uri) (target : Range)
  | references (uri : Uri) (target : Range)
  | highlights (uri : Uri) (target : Range)
  | renameTarget (uri : Uri) (target : Range)
  | rename (uri : Uri) (target : Range) (name : String)
  | edited (uri : Uri)
  | watched (changes : List FileChange)
  deriving Repr, DecidableEq

/-- An edit that puts a new name in the place of ranges of a document. -/
structure RenameEdit where
  uri : Uri
  ranges : List Range
  name : String
  deriving Repr, DecidableEq

/-- What a client is answered. There is nothing to say about a document that the store
    does not have. -/
inductive Response where
  | nothing
  | symbols (found : List Symbol)
  | hints (found : List Hint)
  | folds (found : List Range)
  | locations (found : List Location)
  | highlights (found : List Highlight)
  | renameTarget (range : Range) (name : Text)
  | edit (e : RenameEdit)
  /-- The store after it was changed. -/
  | store (s : Store)

/-- Requests are told apart by their number. -/
abbrev Ticket := Nat

/-- A latch at which requests wait. Each start has its own, known by its number. -/
structure Latch where
  number : Nat
  isOpen : Bool := false
  deriving Repr, DecidableEq

/-- A request that waits at the latch with this number. -/
structure Waiting where
  latch : Nat
  ticket : Ticket
  request : Request

structure Server where
  state : ServerState := .created
  config : Option Config := none
  store : Option Store := none
  /-- The latch of the latest start. -/
  latch : Option Latch := none
  /-- How many tokens for reports on the progress were given away. -/
  tokens : Nat := 0
  waiting : List Waiting := []

/-- Work on a server. What was changed before a failure stays changed. -/
abbrev ServerAction := ExceptT ServerError (StateM Server)

namespace Server

/-- The store of an initialized server. -/
def currentStore (s : Server) : Except ServerError Store :=
  match s.state, s.store with
  | .initialized, some store => return store
  | _, _ => throw .notReady

/-- The uri of the workspace: that of its only folder, or else its root. -/
def workspaceUri (s : Server) (t : FileTree) (w : ClientWorkspace) : Except ServerError Uri :=
  if s.state = .created then throw .notReady
  else
    match w.folders.eraseDups with
    | _ :: _ :: _ => throw .severalFolders
    | [uri] => return uri
    | [] =>
      match w.rootUri, w.rootPath with
      | some uri, _ => (do (t.resolve (← FilePath.ofUri uri)).toUri).mapError .uri
      | none, some path => (t.resolve (.ofString path)).toUri.mapError .uri
      | none, none => throw .noWorkspace

/-- The path of the workspace. -/
def workspacePath (s : Server) (t : FileTree) (w : ClientWorkspace) :
    Except ServerError FilePath := do
  (FilePath.ofUri (← s.workspaceUri t w)).mapError .uri

end Server

end JsonnetNav
