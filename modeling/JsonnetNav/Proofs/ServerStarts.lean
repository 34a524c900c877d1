import JsonnetNav.Proofs.ScannedPaths
import JsonnetNav.Proofs.WatchedFiles
import JsonnetNav.Server.Session
import Mathlib

/-! # The second step of a start

The second step of a start finishes it. It can fail at any of its parts, and then the server has
what the parts before have set and what earlier starts have left. The latch is not touched
before everything is in place. An initialized server that has everything answers requests, and
changes nothing but its store then.
-/

namespace JsonnetNav

namespace ClientWorkspace

/-- The uri of the workspace, for every server that initializes. -/
def uri (w : ClientWorkspace) (t : FileTree) : Except ServerError Uri :=
  ({ state := .initializing } : Server).workspaceUri t w

/-- The path of the workspace, for every server that initializes. -/
def path (w : ClientWorkspace) (t : FileTree) : Except ServerError FilePath :=
  ({ state := .initializing } : Server).workspacePath t w

end ClientWorkspace

/-- No part of the second step of a start fails with this client and these files. -/
def Client.Completes (c : Client) (t : FileTree) : Prop :=
  ∃ settings uri path paths, c.settings = .ok settings ∧ c.workspace.uri t = .ok uri ∧
    c.progress = .ok () ∧ c.workspace.path t = .ok path ∧
    ((Store.loadWorkspace t).run.run { config := settings.config, workspaceUri := uri }).1 =
      .ok paths ∧
    c.registration = .ok ()

namespace Server

variable {s : Server} {t : FileTree} {c : Client}

/-- The latch is open. -/
def IsReady (s : Server) : Prop :=
  ∃ number, s.latch = some ⟨number, true⟩

/-- The latch is closed. -/
def Waits (s : Server) : Prop :=
  ∃ number, s.latch = some ⟨number, false⟩

theorem Waits.not_isReady (waits : s.Waits) : ¬ s.IsReady := by
  rintro ⟨number, isOpen⟩
  obtain ⟨number', closed⟩ := waits
  rw [closed] at isOpen
  cases isOpen

theorem start_waits (s : Server) : s.start.Waits :=
  ⟨_, rfl⟩

/-- The server has a configuration and a store. -/
structure Equipped (s : Server) : Prop where
  config : ∃ config, s.config = some config
  store : ∃ store, s.store = some store

/-- Nothing is missing to answer requests. -/
structure CanServe (s : Server) : Prop extends s.Equipped where
  state : s.state = .initialized

/-! ## The second step of a start -/

theorem run_pure {α : Type} (a : α) (s : Server) :
    (pure a : ServerAction α).run.run s = (.ok a, s) := rfl

theorem run_modify (f : Server → Server) (s : Server) :
    (modify f : ServerAction Unit).run.run s = (.ok (), f s) := rfl

theorem run_lift {α : Type} (x : Except ServerError α) (s : Server) :
    (liftM x : ServerAction α).run.run s = (x, s) := rfl

theorem run_newToken (s : Server) :
    newToken.run.run s = (.ok s.tokens, { s with tokens := s.tokens + 1 }) := rfl

theorem run_openLatch {number : Nat} (closed : s.latch = some ⟨number, false⟩) :
    openLatch.run.run s = (.ok (), { s with latch := some ⟨number, true⟩ }) := by
  rw [openLatch, run_bind, run_get]
  simp only [closed]
  rfl

/-- What a part of the second step comes to that does not complete it: the latch is not touched,
    and the server is equipped unless the part fails. -/
structure Prepares {α : Type} (s : Server) (out : Except ServerError α × Server) : Prop where
  latch : out.2.latch = s.latch
  equipped : ∀ a, out.1 = .ok a → out.2.Equipped

theorem Prepares.error {α : Type} {e : ServerError} {s' : Server} (same : s'.latch = s.latch) :
    s.Prepares ((.error e, s') : Except ServerError α × Server) :=
  ⟨same, fun _ ok => by cases ok⟩

theorem takeSettings_prepares (t : FileTree) (c : Client) (s : Server) :
    Prepares s ((takeSettings t c).run.run s) := by
  simp only [takeSettings, run_bind, run_modify, run_lift, run_get, run_newToken]
  rcases c.settings with e | settings
  · exact .error rfl
  simp only
  rcases newConfig _ with e | config
  · exact .error rfl
  simp only
  rcases workspaceUri _ t c.workspace with e | uri
  · exact .error rfl
  · exact ⟨rfl, fun _ _ => ⟨⟨_, rfl⟩, ⟨_, rfl⟩⟩⟩

theorem Equipped.loadFiles_prepares (equipped : s.Equipped) (t : FileTree) (c : Client)
    (token : ProgressToken) : Prepares s ((loadFiles t c token).run.run s) := by
  obtain ⟨store, has⟩ := equipped.store
  simp only [loadFiles, run_bind, run_lift, run_get]
  rcases c.progress with e | _
  · exact .error rfl
  simp only
  rcases s.workspacePath t c.workspace with e | path
  · exact .error rfl
  simp only
  rw [run_onStore has]
  generalize (Store.loadWorkspace t).run.run store = out
  obtain ⟨e | paths, store'⟩ := out
  · exact .error rfl
  · exact ⟨rfl, fun _ _ => ⟨equipped.config, ⟨_, rfl⟩⟩⟩

theorem Equipped.watchFiles_prepares (equipped : s.Equipped) (c : Client)
    (token : ProgressToken) : Prepares s ((watchFiles c token).run.run s) := by
  simp only [watchFiles, run_bind, run_lift, run_get]
  rcases s.newConfig with e | config
  · exact .error rfl
  · exact ⟨rfl, fun _ _ => equipped⟩

theorem run_complete {number : Nat} (closed : s.latch = some ⟨number, false⟩)
    (c : Client) :
    (complete c).run.run s = match c.registration with
      | .ok _ => (.ok (), { s with state := .initialized, latch := some ⟨number, true⟩ })
      | .error e => (.error e, s) := by
  simp only [complete, run_bind, run_modify, run_lift]
  rcases c.registration with e | _
  · rfl
  · exact run_openLatch closed

end Server

namespace Stage

end Stage

/-- What a stage relies on: only the first one can do without a configuration and a store. -/
def Stage.Prepared (s : Server) : Stage → Prop
  | settings => True
  | _ => s.Equipped

/-- The latch and the requests that wait at it do not matter. -/
theorem Stage.Prepared.of_eq {s s' : Server} {stage : Stage} (prepared : stage.Prepared s)
    (config : s'.config = s.config) (store : s'.store = s.store) : stage.Prepared s' := by
  cases stage with
  | settings => trivial
  | _ => exact ⟨config ▸ prepared.config, store ▸ prepared.store⟩

namespace Server

variable {s : Server} {t : FileTree} {c : Client}

theorem CanServe.start (can : s.CanServe) : s.start.CanServe :=
  ⟨⟨can.config, can.store⟩, can.state⟩

/-- What a second step that goes on makes of a server. The latch is not touched before
    everything is in place. -/
inductive StageOutcome (s : Server) :
    Except ServerError (List Progress × Option Stage) × Server → Prop where
  | left {told : List Progress} {next : Stage} {s' : Server} (prepared : next.Prepared s')
      (same : s'.latch = s.latch) : StageOutcome s (.ok (told, some next), s')
  | completed {told : List Progress} {s' : Server} (ready : s'.IsReady) (can : s'.CanServe) :
      StageOutcome s (.ok (told, none), s')
  | failed {e : ServerError} {s' : Server} (same : s'.latch = s.latch) :
      StageOutcome s (.error e, s')

theorem Prepares.stageOutcome {α : Type} {x : ServerAction α} (part : Prepares s (x.run.run s))
    (told : α → List Progress) {next : α → Stage}
    (prepared : ∀ a s', s'.Equipped → (next a).Prepared s') :
    StageOutcome s ((do let a ← x; return (told a, some (next a))).run.run s) := by
  rw [run_bind]
  generalize x.run.run s = out at part
  obtain ⟨e | a, s'⟩ := out
  · exact .failed part.latch
  · exact .left (prepared a s' (part.equipped a rfl)) part.latch

theorem Waits.stageOutcome (waits : s.Waits) {stage : Stage} (prepared : stage.Prepared s)
    (t : FileTree) (c : Client) : StageOutcome s ((stage.next t c).run.run s) := by
  cases stage with
  | settings => exact (takeSettings_prepares t c s).stageOutcome _ fun _ _ equipped => equipped
  | progress token =>
      exact (prepared.loadFiles_prepares t c token).stageOutcome _ fun _ _ equipped => equipped
  | loading token =>
      exact (prepared.watchFiles_prepares c token).stageOutcome _ fun _ _ equipped => equipped
  | registration =>
      obtain ⟨number, closed⟩ := waits
      rw [Stage.next, run_bind, run_complete closed]
      rcases c.registration with e | _
      · exact .failed rfl
      · exact .completed ⟨number, rfl⟩ ⟨⟨prepared.config, prepared.store⟩, rfl⟩

/-- A request was not turned away, and it has changed nothing but the store. -/
structure Served (s : Server) (out : Except ServerError Response × Server) : Prop where
  result : out.1 ≠ .error .notReady
  frame : ∃ store, out.2 = { s with store := some store }

theorem CanServe.with_store (can : s.CanServe) (store : Store) :
    ({ s with store := some store } : Server).CanServe :=
  ⟨⟨can.config, store, rfl⟩, can.state⟩

theorem CanServe.served_ask (can : s.CanServe) (uri : Uri)
    (f : Store → Document → Except QueryError Response) : Served s ((ask uri f).run.run s) := by
  obtain ⟨store, has⟩ := can.store
  have same : s = { s with store := some store } := by rw [← has]
  simp only [ask, run_bind, run_get, run_lift, currentStore_of_initialized can.state has]
  cases store.document? uri with
  | none => exact ⟨by rintro ⟨⟩, store, same⟩
  | some d =>
      simp only
      cases f store d with
      | ok response => exact ⟨by rintro ⟨⟩, store, same⟩
      | error e => exact ⟨by rintro ⟨⟩, store, same⟩

theorem CanServe.served_change (can : s.CanServe) (actions : List (StoreAction Unit)) :
    Served s ((change actions).run.run s) := by
  obtain ⟨store, has⟩ := can.store
  rw [run_change can.state has, answered]
  generalize (actions.forM id).run.run store = out
  obtain ⟨result, store'⟩ := out
  cases result with
  | ok _ => exact ⟨by rintro ⟨⟩, store', rfl⟩
  | error e => exact ⟨by rintro ⟨⟩, store', rfl⟩

theorem CanServe.served (can : s.CanServe) (t : FileTree) (r : Request) :
    Served s ((answer t r).run.run s) := by
  cases r with
  | edited uri => exact can.served_change _
  | watched changes => exact can.served_change _
  | _ =>
      rw [answer]
      exact can.served_ask _ _

/-- A server that is not initialized turns every request away. -/
theorem answer_notReady (early : s.state ≠ .initialized) (t : FileTree) (r : Request) :
    ((answer t r).run.run s).1 = .error .notReady := by
  have none : s.currentStore = .error .notReady := by
    cases state : s.state with
    | initialized => exact absurd state early
    | _ =>
        rw [currentStore, state]
        rfl
  have asked (uri : Uri) (f : Store → Document → Except QueryError Response) :
      ((ask uri f).run.run s).1 = .error .notReady := by
    simp only [ask, run_bind, run_get, run_lift, none]
  have changed (actions : List (StoreAction Unit)) :
      ((change actions).run.run s).1 = .error .notReady := by
    rw [change, List.forM_eq_forM]
    cases actions with
    | nil => simp only [List.forM_nil, run_bind, run_pure, run_get, run_lift, none]
    | cons action actions => simp only [List.forM_cons, run_bind, run_get, run_lift, none]
  cases r with
  | edited uri => exact changed _
  | watched changes => exact changed _
  | _ =>
      rw [answer]
      exact asked _ _

/-! ## The latch -/

theorem letThrough_latch (s : Server) : s.letThrough.1.latch = s.latch := by
  unfold letThrough
  split <;> rfl

theorem Waits.letThrough_eq (waits : s.Waits) : s.letThrough = (s, []) := by
  obtain ⟨number, closed⟩ := waits
  simp only [letThrough, closed]

theorem IsReady.letThrough_frame (ready : s.IsReady) :
    ∃ waiting, s.letThrough.1 = { s with waiting := waiting } := by
  obtain ⟨number, isOpen⟩ := ready
  simp only [letThrough, isOpen]
  exact ⟨_, by rw [← isOpen]⟩

theorem Waits.submit_eq (waits : s.Waits) (t : FileTree) (ticket : Ticket) (r : Request) :
    ∃ waiting, submit t s ticket r = ({ s with waiting := waiting }, none) := by
  obtain ⟨number, closed⟩ := waits
  simp only [submit, closed]
  exact ⟨_, by rw [← closed]; rfl⟩

theorem IsReady.submit_eq (ready : s.IsReady) (t : FileTree) (ticket : Ticket) (r : Request) :
    submit t s ticket r =
      (((answer t r).run.run s).2, some ((answer t r).run.run s).1) := by
  obtain ⟨number, isOpen⟩ := ready
  simp only [submit, isOpen]
  rfl

end Server

end JsonnetNav
