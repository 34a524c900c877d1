import JsonnetNav.Server.Requests

/-! # Sessions

A server is told one thing after the other. The second step of a start is left whenever it has
to wait and taken up again later, and so is a request at the latch. Whatever else the server is
told comes in between.
-/

namespace JsonnetNav

/-- What a server is told. -/
inductive ServerEvent where
  /-- The first step of a start. -/
  | start
  /-- The second step of a start, up to the first thing it waits for. -/
  | begin
  /-- What a second step waits for has come. The second steps that are under way are counted in
      the order in which they have begun. -/
  | resume (index : Nat) (files : FileTree) (client : Client)
  | request (files : FileTree) (ticket : Ticket) (request : Request)
  /-- The turn has come to the first of the requests that have passed the latch. -/
  | proceed (files : FileTree)

/-- A server with what it is in the middle of. -/
structure Session where
  server : Server := {}
  /-- The second steps that are under way. -/
  running : List Stage := []
  /-- The requests that have waited and passed the latch, and are not answered yet. -/
  passed : List Waiting := []

/-- A request is known by its ticket when it is answered. -/
abbrev Reply := Ticket × Except ServerError Response

namespace Session

/-- The second steps that are under way after one of them has gone on: it waits for the next
    thing, or it is over because it has come to its end or failed. -/
def goOn (running : List Stage) (index : Nat) :
    Except ServerError (List Progress × Option Stage) → List Stage
  | .ok (_, some next) => running.set index next
  | _ => running.eraseIdx index

/-- What a session becomes when the server is told something, and what it answers then. -/
def tell (s : Session) : ServerEvent → Session × List Reply
  | .start => ({ s with server := s.server.start }, [])
  | .begin =>
    ({ s with server := s.server.beginInitializing, running := s.running ++ [.settings] }, [])
  | .resume index t c =>
    match s.running[index]? with
    | none => (s, [])
    | some stage =>
      let (result, server) := (stage.next t c).run.run s.server
      let (server, through) := server.letThrough
      ({ server := server
         running := goOn s.running index result
         passed := s.passed ++ through }, [])
  | .request t ticket r =>
    let (server, result) := Server.submit t s.server ticket r
    ({ s with server := server }, result.toList.map fun result => (ticket, result))
  | .proceed t =>
    match s.passed with
    | [] => (s, [])
    | w :: rest =>
      let (result, server) := (Server.answer t w.request).run.run s.server
      ({ s with server := server, passed := rest }, [(w.ticket, result)])

/-- What a session becomes when the server is told several things. -/
def run (s : Session) (events : List ServerEvent) : Session :=
  events.foldl (fun s e => (s.tell e).1) s

end Session

end JsonnetNav
