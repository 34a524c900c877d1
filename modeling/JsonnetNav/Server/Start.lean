import JsonnetNav.Server.Basic

/-! # Starting a server

A client starts a server in two steps. The first sets up a latch. The second brings the
configuration and the workspace, which are loaded under reports on the progress, and
opens the latch. The second step waits for the client four times, and other events can come
in then, so it is made up of stages.
-/

namespace JsonnetNav

/-- A pattern for the files that a client watches. -/
structure Watcher where
  folder : Uri
  pattern : String
  /-- Created, changed and deleted files count 1, 2 and 4. -/
  kinds : Nat
  deriving Repr, DecidableEq

/-- Every load of a workspace reports its progress under a token of its own. Tokens are
    numbered in the order in which they are given away. -/
abbrev ProgressToken := Nat

/-- What a server tells its client while it starts. -/
inductive Progress where
  /-- Asks for the values of sections of the configuration. -/
  | configuration (sections : List String)
  | create (token : ProgressToken)
  | begin (token : ProgressToken) (title : String)
  | report (token : ProgressToken) (percentage : Nat) (message : String)
  | finish (token : ProgressToken)
  | register (method : String) (watchers : List Watcher)
  deriving Repr, DecidableEq

/-- What a client answers to the questions of a server that starts. Each answer can be a
    failure, and then the start ends there. -/
structure Client where
  workspace : ClientWorkspace
  settings : Except ServerError Settings
  /-- Whether reports on the progress are taken. -/
  progress : Except ServerError Unit := .ok ()
  /-- Whether the source files are watched. -/
  registration : Except ServerError Unit := .ok ()

/-- What the second step of a start waits for. -/
inductive Stage where
  | settings
  /-- The client has to take reports on the progress under the token. -/
  | progress (token : ProgressToken)
  /-- The workspace has to be loaded. -/
  | loading (token : ProgressToken)
  | registration
  deriving Repr, DecidableEq

namespace Server

/-- Sets up a new latch. -/
def start (s : Server) : Server :=
  let number := match s.latch with
    | some latch => latch.number + 1
    | none => 0
  { s with latch := some { number := number } }

/-- The reports on the way through the paths of a workspace. -/
def reports (token : ProgressToken) (workspace : FilePath) (paths : List FilePath) :
    List Progress :=
  paths.mapIdx fun i p =>
    .report token (min ((i + 1) * 100 / paths.length) 100) (p.relativeTo workspace).render

/-- The pattern for the source files in a folder and all folders below it. -/
def watchPattern (config : Config) : String :=
  "**/*.\x7b" ++ ",".intercalate config.suffixes ++ "\x7d"

/-- The watchers for the source files of the workspace, one for each folder. -/
def watchers (config : Config) (w : ClientWorkspace) : List Watcher :=
  w.folders.eraseDups.map fun folder => ⟨folder, watchPattern config, 7⟩

/-- Work on the store of a server. -/
def onStore {α : Type} (action : StoreAction α) : ServerAction α := do
  match (← get).store with
  | none => throw .notReady
  | some store =>
    let (result, store) := action.run.run store
    modify fun s => { s with store := some store }
    match result with
    | .ok a => return a
    | .error e => throw (.store e)

/-- Gives away a new token. -/
def newToken : ServerAction ProgressToken := do
  let token := (← get).tokens
  modify fun s => { s with tokens := token + 1 }
  return token

/-- Opens the latch. -/
def openLatch : ServerAction Unit := do
  match (← get).latch with
  | none => throw .notReady
  | some latch =>
    if latch.isOpen then throw .alreadyOpen
    modify fun s => { s with latch := some { latch with isOpen := true } }

/-- The configuration of a server that initializes. -/
def newConfig (s : Server) : Except ServerError Config :=
  match s.state, s.config with
  | .initializing, some config => return config
  | _, _ => throw .notReady

/-- Begins the second step. -/
def beginInitializing (s : Server) : Server :=
  { s with state := .initializing }

/-- Takes over the configuration and sets up an empty store for the workspace. -/
def takeSettings (t : FileTree) (c : Client) : ServerAction ProgressToken := do
  let config := (← c.settings).config
  modify fun s => { s with config := some config }
  let config ← (← get).newConfig
  let uri ← (← get).workspaceUri t c.workspace
  modify fun s => { s with store := some { config := config, workspaceUri := uri } }
  newToken

/-- Loads the workspace into the store. -/
def loadFiles (t : FileTree) (c : Client) (token : ProgressToken) :
    ServerAction (List Progress) := do
  c.progress
  let path ← (← get).workspacePath t c.workspace
  let paths ← onStore (Store.loadWorkspace t)
  return .begin token "Loading workspace..." :: reports token path paths

/-- Asks the client to watch the source files of the loaded workspace. -/
def watchFiles (c : Client) (token : ProgressToken) : ServerAction (List Progress) := do
  let config ← (← get).newConfig
  return [.finish token, .register "workspace/didChangeWatchedFiles" (watchers config c.workspace)]

/-- Completes the start. The latch that opens is that of the latest start. -/
def complete (c : Client) : ServerAction Unit := do
  c.registration
  modify fun s => { s with state := .initialized }
  openLatch

/-- Goes through the second step from its begin to its end. -/
def finishStart (t : FileTree) (c : Client) : ServerAction (List Progress) := do
  modify beginInitializing
  let token ← takeSettings t c
  let loaded ← loadFiles t c token
  let watched ← watchFiles c token
  complete c
  return [.configuration Settings.sections, .create token] ++ loaded ++ watched

/-- Finishes the start with a client that refuses nothing. -/
def initialized (t : FileTree) (w : ClientWorkspace) (settings : Settings) :
    ServerAction (List Progress) :=
  finishStart t { workspace := w, settings := .ok settings }

end Server

namespace Stage

/-- Goes on with the second step up to the next thing it waits for, if there is one. The client
    is told something on the way. -/
def next (t : FileTree) (c : Client) : Stage → ServerAction (List Progress × Option Stage)
  | settings => do
    let token ← Server.takeSettings t c
    return ([.create token], some (.progress token))
  | progress token => do
    let loaded ← Server.loadFiles t c token
    return (loaded, some (.loading token))
  | loading token => do
    let watched ← Server.watchFiles c token
    return (watched, some .registration)
  | registration => do
    Server.complete c
    return ([], none)

end Stage

end JsonnetNav
