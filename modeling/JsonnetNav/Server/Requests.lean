import JsonnetNav.Server.Start

/-! # Answering requests

Questions are answered from the document in the store, and changes are made to the store.
The files that a batch of changes is about are followed one by one, up to the first
failure.
-/

namespace JsonnetNav

/-- Follows a change of a file. -/
def FileChange.follow (t : FileTree) : FileChange → StoreAction Unit
  | .created uri => Store.add t uri
  | .changed uri => Store.update t uri
  | .deleted uri => Store.delete uri

namespace Server

/-- Answers a question about a document of the store. -/
def ask (uri : Uri) (answer : Store → Document → Except QueryError Response) :
    ServerAction Response := do
  let store ← (← get).currentStore
  match store.document? uri with
  | some d =>
    match answer store d with
    | .ok response => return response
    | .error e => throw (.query e)
  | none => return .nothing

/-- Changes the store of an initialized server, and answers with it. -/
def change (actions : List (StoreAction Unit)) : ServerAction Response := do
  actions.forM fun action => do
    let _ ← (← get).currentStore
    onStore action
  return .store (← (← get).currentStore)

/-- Answers a request of a client. -/
def answer (t : FileTree) : Request → ServerAction Response
  | .symbols uri => ask uri fun _ d => return .symbols d.symbols
  | .hints uri => ask uri fun _ d => return .hints (← d.hints)
  | .folds uri => ask uri fun _ d => return .folds d.folds
  | .definitions uri target => ask uri fun s d =>
    return .locations (← (s.workspace t).definitions d target)
  | .references uri target => ask uri fun s d => do
    match ← (s.workspace t).references d target with
    | some found => return .locations found
    | none => return .nothing
  | .highlights uri target => ask uri fun _ d => return .highlights (← d.highlights target)
  | .renameTarget uri target => ask uri fun _ d => do
    match ← d.renameTarget target with
    | some (range, name) => return .renameTarget range name
    | none => return .nothing
  | .rename uri target name => ask uri fun _ d =>
    return .edit ⟨d.uri, d.renameRanges target, name⟩
  | .edited uri => change [Store.update t uri]
  | .watched changes => change (changes.map (FileChange.follow t))

/-- Takes a request: it is answered if the latch is open, and waits if the latch is
    closed. Before the first start there is no latch, and the request fails. -/
def submit (t : FileTree) (s : Server) (ticket : Ticket) (r : Request) :
    Server × Option (Except ServerError Response) :=
  match s.latch with
  | none => (s, some (.error .notReady))
  | some latch =>
    if latch.isOpen then
      let (result, s) := (answer t r).run.run s
      (s, some result)
    else ({ s with waiting := s.waiting ++ [⟨latch.number, ticket, r⟩] }, none)

/-- Answers requests one after the other. -/
def answerAll (t : FileTree) (s : Server) :
    List Waiting → Server × List (Ticket × Except ServerError Response)
  | [] => (s, [])
  | w :: rest =>
    let (result, s) := (answer t w.request).run.run s
    let (s, results) := answerAll t s rest
    (s, (w.ticket, result) :: results)

/-- Lets the requests that wait at the latch through, if it is open. -/
def letThrough (s : Server) : Server × List Waiting :=
  match s.latch with
  | some { number := number, isOpen := true } =>
    let (through, others) := s.waiting.partition (·.latch = number)
    ({ s with waiting := others }, through)
  | _ => (s, [])

/-- Answers the requests that wait at the latch, if it is open. -/
def release (t : FileTree) (s : Server) : Server × List (Ticket × Except ServerError Response) :=
  let (s, through) := s.letThrough
  answerAll t s through

end Server

end JsonnetNav
