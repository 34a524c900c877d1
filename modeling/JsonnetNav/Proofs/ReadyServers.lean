import JsonnetNav.Proofs.ServerStarts
import Mathlib

/-! # Servers that are ready

A client starts a server in two steps, and may start it again later. The second step waits
between its parts, and then anything else can come in: requests, and also other starts. A
request looks at nothing before it has passed the latch. If every second step has a start of
its own, made when the second steps before were over, the server is ready exactly if its latest
start has been completed. Then nothing is missing: no request finds a server that is not
initialized or that has no configuration or no store.
-/

namespace JsonnetNav

theorem snoc_eq_append_cons {α : Type} {xs before since : List α} {x y : α} :
    xs ++ [y] = before ++ x :: since ↔
      since = [] ∧ xs = before ∧ y = x ∨
        ∃ rest, since = rest ++ [y] ∧ xs = before ++ x :: rest := by
  constructor
  · intro split
    rcases List.eq_nil_or_concat' since with rfl | ⟨rest, z, rfl⟩
    · obtain ⟨same, last⟩ := List.append_inj' split rfl
      exact .inl ⟨rfl, same, List.singleton_inj.mp last⟩
    · rw [← List.cons_append, ← List.append_assoc] at split
      obtain ⟨same, last⟩ := List.append_inj' split rfl
      cases List.singleton_inj.mp last
      exact .inr ⟨rest, rfl, same⟩
  · rintro (⟨rfl, rfl, rfl⟩ | ⟨rest, rfl, rfl⟩)
    · rfl
    · simp

namespace Session

open Server (IsReady Waits CanServe StageOutcome start_waits)

variable {events : List ServerEvent} {e : ServerEvent} {s : Session} {t : FileTree} {c : Client}

/-! ## Events in turn -/

/-- A new session after events. -/
def after (events : List ServerEvent) : Session :=
  ({} : Session).run events

/-- No second step is under way, and every request that has passed the latch is answered. -/
def AtRest (s : Session) : Prop :=
  s.running = [] ∧ s.passed = []

/-- The event brings a second step to its end. -/
def Completes (s : Session) : ServerEvent → Prop
  | .resume index t c => ∃ stage told, s.running[index]? = some stage ∧
      ((stage.next t c).run.run s.server).1 = .ok (told, none)
  | _ => False

/-- There has been a start since the latest second step was over. -/
def Begun (events : List ServerEvent) : Prop :=
  ∃ before since, events = before ++ .start :: since ∧ (after before).AtRest ∧ .begin ∉ since

/-- Every second step comes after a start of its own, made when the second steps before and the
    requests that they have let through were over. -/
def InTurn (events : List ServerEvent) : Prop :=
  ∀ before, before ++ [.begin] <+: events → Begun before

/-- There has been a start, and no second step was completed since then. -/
def Pending (events : List ServerEvent) : Prop :=
  ∃ before since, events = before ++ .start :: since ∧
    ∀ first e rest, since = first ++ e :: rest → ¬ (after (before ++ .start :: first)).Completes e

theorem Pending.mem_start (pending : Pending events) : .start ∈ events := by
  obtain ⟨before, since, rfl, -⟩ := pending
  simp

theorem inTurn_snoc : InTurn (events ++ [e]) ↔ InTurn events ∧ (e = .begin → Begun events) := by
  constructor
  · intro turn
    refine ⟨fun before start => turn before (start.trans (List.prefix_append ..)), ?_⟩
    rintro rfl
    exact turn events List.prefix_rfl
  · rintro ⟨turn, begun⟩ before start
    rcases List.prefix_concat_iff.mp start with whole | earlier
    · obtain ⟨rfl, last⟩ := List.append_inj' whole rfl
      exact begun (List.singleton_inj.mp last).symm
    · exact turn before earlier

theorem pending_snoc : Pending (events ++ [e]) ↔
    e = .start ∨ Pending events ∧ ¬ (after events).Completes e := by
  constructor
  · rintro ⟨before, since, split, incomplete⟩
    rcases snoc_eq_append_cons.mp split with ⟨rfl, rfl, rfl⟩ | ⟨since, rfl, rfl⟩
    · exact .inl rfl
    · refine .inr ⟨⟨before, since, rfl, ?_⟩, incomplete since e [] rfl⟩
      rintro first e' rest rfl
      exact incomplete first e' (rest ++ [e]) (by simp)
  · rintro (rfl | ⟨⟨before, since, rfl, incomplete⟩, last⟩)
    · exact ⟨events, [], rfl, by simp⟩
    · refine ⟨before, since ++ [e], by simp, fun first e' rest split => ?_⟩
      rcases snoc_eq_append_cons.mp split with ⟨rfl, rfl, rfl⟩ | ⟨rest, rfl, rfl⟩
      · exact last
      · exact incomplete first e' rest rfl

/-! ## One event more -/

theorem tell_resume_none {index : Nat} (none : s.running[index]? = none) :
    s.tell (.resume index t c) = (s, []) := by
  simp only [tell, none]

theorem tell_resume_some {index : Nat} {stage : Stage} (found : s.running[index]? = some stage) :
    let out := (stage.next t c).run.run s.server
    s.tell (.resume index t c) =
      ({ server := out.2.letThrough.1
         running := goOn s.running index out.1
         passed := s.passed ++ out.2.letThrough.2 }, []) := by
  simp only [tell, found]
  rfl

theorem tell_request_waits (waits : s.server.Waits) (t : FileTree) (ticket : Ticket) (r : Request) :
    ∃ waiting, s.tell (.request t ticket r) =
      ({ s with server := { s.server with waiting := waiting } }, []) := by
  obtain ⟨waiting, submitted⟩ := waits.submit_eq t ticket r
  exact ⟨waiting, by simp only [tell, submitted]; rfl⟩

theorem tell_request_ready (ready : s.server.IsReady) (t : FileTree) (ticket : Ticket)
    (r : Request) :
    let out := (Server.answer t r).run.run s.server
    s.tell (.request t ticket r) = ({ s with server := out.2 }, [(ticket, out.1)]) := by
  simp only [tell, ready.submit_eq t ticket r]
  rfl

theorem tell_proceed {w : Waiting} {rest : List Waiting} (first : s.passed = w :: rest)
    (t : FileTree) :
    let out := (Server.answer t w.request).run.run s.server
    s.tell (.proceed t) = ({ s with server := out.2, passed := rest }, [(w.ticket, out.1)]) := by
  simp only [tell, first]
  rfl

/-- Where a session stands after events. There is nothing between a closed latch and a server
    that can serve, and requests that have passed the latch find such a server, too. -/
inductive Phase (events : List ServerEvent) (s : Session) : Prop where
  | fresh (unstarted : .start ∉ events) (none : s.server.latch = none) (rest : s.AtRest)
  | idle (pending : Pending events) (waits : s.server.Waits) (quiet : s.running = [])
      (can : s.passed ≠ [] → s.server.CanServe)
  | starting {stage : Stage} (pending : Pending events) (waits : s.server.Waits)
      (under : s.running = [stage]) (prepared : stage.Prepared s.server) (none : s.passed = [])
  | serving (started : .start ∈ events) (completed : ¬ Pending events) (ready : s.server.IsReady)
      (can : s.server.CanServe) (quiet : s.running = [])

/-- What one event more comes to: while the latest start is pending no request passes the latch,
    and since a start no request is turned away. -/
structure Told (events : List ServerEvent) (e : ServerEvent) : Prop where
  phase : Phase (events ++ [e]) ((after events).tell e).1
  quiet : Pending (events ++ [e]) → ((after events).tell e).1.passed <:+ (after events).passed ∧
    ((∀ t, e ≠ .proceed t) → ((after events).tell e).2 = [])
  served : .start ∈ events → ∀ reply ∈ ((after events).tell e).2, reply.2 ≠ .error .notReady

/-- An event that is not answered at once. -/
theorem Told.unanswered {s' : Session} (told : (after events).tell e = (s', []))
    (phase : Phase (events ++ [e]) s')
    (passed : Pending (events ++ [e]) → s'.passed <:+ (after events).passed) : Told events e := by
  refine ⟨?_, fun pending => ?_, by simp [told]⟩
  · rwa [told]
  · rw [told]
    exact ⟨passed pending, fun _ => rfl⟩

/-- An event on which a request is answered. -/
theorem Told.answered {s' : Session} {ticket : Ticket} {result : Except ServerError Response}
    (told : (after events).tell e = (s', [(ticket, result)])) (phase : Phase (events ++ [e]) s')
    (served : result ≠ .error .notReady)
    (passed : Pending (events ++ [e]) →
      (∃ t, e = .proceed t) ∧ s'.passed <:+ (after events).passed) : Told events e := by
  refine ⟨?_, fun pending => ?_, by simp [told, served]⟩
  · rwa [told]
  · obtain ⟨⟨t, isProceed⟩, fewer⟩ := passed pending
    rw [told]
    exact ⟨fewer, fun other => absurd isProceed (other t)⟩

theorem Phase.later (phase : Phase events s) (other : e ≠ .start)
    (open_ : ¬ (after events).Completes e) : Phase (events ++ [e]) s := by
  have pending_iff : Pending (events ++ [e]) ↔ Pending events := by
    simp [pending_snoc, other, open_]
  have started_iff : .start ∈ events ++ [e] ↔ .start ∈ events := by simp [Ne.symm other]
  cases phase with
  | fresh unstarted none rest => exact .fresh (mt started_iff.mp unstarted) none rest
  | idle pending waits quiet can => exact .idle (pending_iff.mpr pending) waits quiet can
  | starting pending waits under prepared nobody =>
      exact .starting (pending_iff.mpr pending) waits under prepared nobody
  | serving started completed ready can quiet =>
      exact .serving (started_iff.mpr started) (mt pending_iff.mp completed) ready can quiet

theorem Phase.told_start (phase : Phase events (after events)) : Told events .start := by
  have pending : Pending (events ++ [.start]) := pending_snoc.mpr (.inl rfl)
  have waits := start_waits (after events).server
  refine .unanswered rfl ?_ fun _ => List.suffix_rfl
  cases phase with
  | fresh _ _ rest => exact .idle pending waits rest.1 fun some => absurd rest.2 some
  | idle _ _ quiet can => exact .idle pending waits quiet fun some => (can some).start
  | starting _ _ under prepared nobody =>
      exact .starting pending waits under (prepared.of_eq rfl rfl) nobody
  | serving _ _ _ can quiet => exact .idle pending waits quiet fun _ => can.start

theorem AtRest.told_begin (rest : (after events).AtRest) (waits : (after events).server.Waits)
    (pending : Pending events) : Told events .begin := by
  have still : Pending (events ++ [.begin]) := pending_snoc.mpr (.inr ⟨pending, id⟩)
  have under : ((after events).tell .begin).1.running = [.settings] := by simp [tell, rest.1]
  exact .unanswered rfl (.starting still waits under trivial rest.2) fun _ => List.suffix_rfl

/-- An event that changes nothing and completes nothing. -/
theorem Phase.told_nothing (phase : Phase events (after events)) (other : e ≠ .start)
    (open_ : ¬ (after events).Completes e) (told : (after events).tell e = (after events, [])) :
    Told events e :=
  .unanswered told (phase.later other open_) fun _ => List.suffix_rfl

/-- The only second step that is under way goes on. -/
theorem told_next_stage {stage : Stage} (pending : Pending events)
    (waits : (after events).server.Waits) (under : (after events).running = [stage])
    (prepared : stage.Prepared (after events).server) (nobody : (after events).passed = []) :
    Told events (.resume 0 t c) := by
  have found : (after events).running[0]? = some stage := by rw [under]; rfl
  have outcome := waits.stageOutcome prepared t c
  have told := tell_resume_some (t := t) (c := c) found
  have completes : (after events).Completes (.resume 0 t c) ↔
      ∃ told, ((stage.next t c).run.run (after events).server).1 = .ok (told, none) := by
    simp [Completes, found]
  generalize (stage.next t c).run.run (after events).server = out at outcome told completes
  simp only [under, nobody, List.nil_append] at told
  cases outcome with
  | @left said next s' prepared same =>
      have waits' : s'.Waits := by rwa [Waits, same]
      have still : Pending (events ++ [.resume 0 t c]) :=
        pending_snoc.mpr (.inr ⟨pending, by simp [completes]⟩)
      simp only [waits'.letThrough_eq] at told
      exact .unanswered told (.starting still waits' rfl prepared rfl) fun _ => List.nil_suffix
  | @completed said s' ready can =>
      have done : ¬ Pending (events ++ [.resume 0 t c]) := by simp [pending_snoc, completes]
      have started : .start ∈ events ++ [.resume 0 t c] := List.mem_append_left _ pending.mem_start
      obtain ⟨waiting, frame⟩ := ready.letThrough_frame
      simp only [frame] at told
      refine .unanswered told ?_ fun again => absurd again done
      exact .serving started done ready ⟨⟨can.config, can.store⟩, can.state⟩ rfl
  | @failed e s' same =>
      have waits' : s'.Waits := by rwa [Waits, same]
      have still : Pending (events ++ [.resume 0 t c]) :=
        pending_snoc.mpr (.inr ⟨pending, by simp [completes]⟩)
      simp only [waits'.letThrough_eq] at told
      refine .unanswered told ?_ fun _ => List.nil_suffix
      exact .idle still waits' rfl fun some => absurd rfl some

theorem Phase.told_resume (phase : Phase events (after events)) (index : Nat) (t : FileTree)
    (c : Client) : Told events (.resume index t c) := by
  have other : ServerEvent.resume index t c ≠ .start := by simp
  cases found : (after events).running[index]? with
  | none =>
      exact phase.told_nothing other (by simp [Completes, found]) (tell_resume_none found)
  | some stage =>
      cases phase with
      | fresh unstarted none rest => simp [rest.1] at found
      | idle pending waits quiet can => simp [quiet] at found
      | serving started completed ready can quiet => simp [quiet] at found
      | starting pending waits under prepared nobody =>
          cases index with
          | zero => exact told_next_stage pending waits under prepared nobody
          | succ index => simp [under] at found

theorem Phase.told_request (phase : Phase events (after events)) (t : FileTree) (ticket : Ticket)
    (r : Request) : Told events (.request t ticket r) := by
  have pending_iff : Pending (events ++ [.request t ticket r]) ↔ Pending events := by
    simp [pending_snoc, Completes]
  have started_iff : .start ∈ events ++ [.request t ticket r] ↔ .start ∈ events := by simp
  cases phase with
  | fresh unstarted none rest =>
      have told : (after events).tell (.request t ticket r) =
          (after events, [(ticket, .error .notReady)]) := by
        simp only [tell, Server.submit, none]
        rfl
      refine ⟨?_, fun pending => ?_, fun started => absurd started unstarted⟩
      · rw [told]
        exact .fresh (mt started_iff.mp unstarted) none rest
      · exact absurd (pending_iff.mp pending).mem_start unstarted
  | idle pending waits quiet can =>
      obtain ⟨waiting, told⟩ := tell_request_waits waits t ticket r
      refine .unanswered told ?_ fun _ => List.suffix_rfl
      refine .idle (pending_iff.mpr pending) waits quiet fun some => ?_
      exact ⟨⟨(can some).config, (can some).store⟩, (can some).state⟩
  | starting pending waits under prepared nobody =>
      obtain ⟨waiting, told⟩ := tell_request_waits waits t ticket r
      refine .unanswered told ?_ fun _ => List.suffix_rfl
      exact .starting (pending_iff.mpr pending) waits under (prepared.of_eq rfl rfl) nobody
  | serving started completed ready can quiet =>
      have told := tell_request_ready ready t ticket r
      obtain ⟨result, store, frame⟩ := can.served t r
      have completed' := mt pending_iff.mp completed
      refine .answered told ?_ result fun pending => absurd pending completed'
      rw [frame]
      exact .serving (started_iff.mpr started) completed' ready (can.with_store store) quiet

/-- A request that has passed the latch is answered, whatever has happened since. -/
theorem Phase.told_proceed (phase : Phase events (after events)) (t : FileTree) :
    Told events (.proceed t) := by
  have pending_iff : Pending (events ++ [.proceed t]) ↔ Pending events := by
    simp [pending_snoc, Completes]
  cases first : (after events).passed with
  | nil => exact phase.told_nothing (by simp) id (by simp only [tell, first])
  | cons w rest =>
      have told := tell_proceed first t
      have fewer : rest <:+ (after events).passed := by
        rw [first]
        exact List.suffix_cons w rest
      have served (can : (after events).server.CanServe) := can.served t w.request
      cases phase with
      | fresh unstarted none atRest => cases first.symm.trans atRest.2
      | starting pending waits under prepared nobody => cases first.symm.trans nobody
      | idle pending waits idle can =>
          have can := can (by simp [first])
          obtain ⟨result, store, frame⟩ := served can
          refine .answered told ?_ result fun _ => ⟨⟨t, rfl⟩, fewer⟩
          rw [frame]
          exact .idle (pending_iff.mpr pending) waits idle fun _ => can.with_store store
      | serving started completed ready can idle =>
          obtain ⟨result, store, frame⟩ := served can
          refine .answered told ?_ result fun _ => ⟨⟨t, rfl⟩, fewer⟩
          rw [frame]
          exact .serving (List.mem_append_left _ started) (mt pending_iff.mp completed) ready
            (can.with_store store) idle

/-! ## All events -/

theorem Phase.pending (phase : Phase events s) (waits : s.server.Waits) : Pending events := by
  cases phase with
  | fresh unstarted none rest =>
      obtain ⟨number, closed⟩ := waits
      cases none.symm.trans closed
  | idle pending _ _ _ => exact pending
  | starting pending _ _ _ _ => exact pending
  | serving started completed ready can quiet => exact absurd ready waits.not_isReady

/-- A session at rest stays so until a second step begins. -/
theorem AtRest.tell (rest : s.AtRest) (waits : s.server.Waits) (other : e ≠ .begin) :
    (s.tell e).1.AtRest ∧ (s.tell e).1.server.Waits := by
  cases e with
  | start => exact ⟨rest, start_waits s.server⟩
  | begin => exact absurd rfl other
  | resume index t c =>
      rw [tell_resume_none (by simp [rest.1])]
      exact ⟨rest, waits⟩
  | request t ticket r =>
      obtain ⟨waiting, told⟩ := tell_request_waits waits t ticket r
      rw [told]
      exact ⟨rest, waits⟩
  | proceed t =>
      simp only [Session.tell, rest.2]
      exact ⟨rest, waits⟩

/-- What is known after events: where the session stands, and that everything else is over when
    a second step is about to begin. -/
structure Standing (events : List ServerEvent) : Prop where
  phase : Phase events (after events)
  begun : Begun events → (after events).AtRest ∧ (after events).server.Waits

theorem Standing.told (standing : Standing events) (turn : InTurn (events ++ [e])) :
    Told events e := by
  cases e with
  | start => exact standing.phase.told_start
  | begin =>
      obtain ⟨rest, waits⟩ := standing.begun ((inTurn_snoc.mp turn).2 rfl)
      exact rest.told_begin waits (standing.phase.pending waits)
  | resume index t c => exact standing.phase.told_resume index t c
  | request t ticket r => exact standing.phase.told_request t ticket r
  | proceed t => exact standing.phase.told_proceed t

theorem InTurn.append (turn : InTurn events) (more : List ServerEvent) (none : .begin ∉ more) :
    InTurn (events ++ more) := by
  induction more using List.reverseRecOn with
  | nil => simpa using turn
  | append_singleton more e ih =>
      rw [List.mem_append, not_or, List.mem_singleton] at none
      rw [← List.append_assoc]
      exact inTurn_snoc.mpr ⟨ih none.1, fun same => absurd same.symm none.2⟩

/-- A start has to wait until the second step before it is over. If it does not, that step opens
    its latch. When its own second step begins, the server is ready but not initialized, and turns
    all requests away. -/
theorem ready_while_initializing (under : s.running = [.registration])
    (registered : c.registration = .ok ()) (t : FileTree) :
    let s' := s.run [.start, .resume 0 t c, .begin]
    s'.server.IsReady ∧ s'.server.state = .initializing ∧
    ∀ t ticket r, (s'.tell (.request t ticket r)).2 = [(ticket, .error .notReady)] := by
  intro s'
  obtain ⟨number, closed⟩ := start_waits s.server
  have completed : (Stage.registration.next t c).run.run s.server.start = (.ok ([], none),
      { s.server.start with state := .initialized, latch := some ⟨number, true⟩ }) := by
    rw [Stage.next, Server.run_bind, Server.run_complete closed, registered]
    rfl
  have found : (s.tell .start).1.running[0]? = some .registration := congrArg (·[0]?) under
  have resumed := tell_resume_some (t := t) (c := c) found
  have latch : s'.server.latch = some ⟨number, true⟩ := by
    change ((s.tell .start).1.tell (.resume 0 t c)).1.server.latch = _
    rw [resumed, Server.letThrough_latch]
    exact congrArg (·.2.latch) completed
  have ready : s'.server.IsReady := ⟨number, latch⟩
  have initializing : s'.server.state = .initializing := rfl
  refine ⟨ready, initializing, fun t ticket r => ?_⟩
  rw [tell_request_ready ready, Server.answer_notReady (by simp [initializing])]

end Session

end JsonnetNav
