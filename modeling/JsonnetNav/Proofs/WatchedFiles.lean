import JsonnetNav.Proofs.Rereading
import JsonnetNav.Server.Requests
import Mathlib

/-! # Changes of watched files

A client tells the server about changes of files, one or many at a time. What a change makes
of a store is said here by what the store holds: its documents and their links. A change that
cannot be followed completely still leaves its trace there. Many changes at a time are followed
up to the first one that fails, and those after it are lost, although most of them would have
been followed if they had been told one by one.
-/

namespace JsonnetNav

namespace Document

/-- The imports before the first one that cannot be looked up. -/
def linkable (d : Document) (search : ImportSearch) : List Site :=
  d.importees.takeWhile fun importee => (search importee).isOk

theorem linkable_of_resolves {d : Document} {search : ImportSearch}
    (resolves : d.Resolves search) : d.linkable search = d.importees := by
  refine List.takeWhile_eq_self_iff.mpr fun importee member => ?_
  obtain ⟨target, found⟩ := resolves importee member
  rw [found]
  rfl

theorem linkable_of_stopsAfter {d : Document} {search : ImportSearch} {before : List Site}
    {e : QueryError} (stops : d.StopsAfter search before e) : d.linkable search = before := by
  obtain ⟨importee, after, split, possible, failed⟩ := stops
  have ok : ∀ i ∈ before, (search i).isOk = true := by
    intro i member
    obtain ⟨target, found⟩ := possible i member
    rw [found]
    rfl
  have stuck : (search importee).isOk = false := by
    rw [failed]
    rfl
  rw [linkable, split, List.takeWhile_append_of_pos ok,
    List.takeWhile_cons_of_neg (by simp [stuck]), List.append_nil]

end Document

/-! ## What a store holds -/

/-- What a store holds: its documents, and what their links lead to. -/
@[ext]
structure Contents where
  document? : Uri → Option Document
  links : Uri → Uri → Prop

namespace Contents

/-- A document is taken out with all its links. -/
def without (k : Contents) (uri : Uri) : Contents where
  document? u := if u = uri then none else k.document? u
  links u v := k.links u v ∧ u ≠ uri ∧ v ≠ uri

/-- A document is put in if it can be read, and linked to its imports up to the first one that
    cannot be looked up. -/
def read (t : FileTree) (search : ImportSearch) (k : Contents) (uri : Uri) : Contents :=
  match Store.load t uri with
  | .ok d =>
    { document? := fun u => if u = uri then some d else k.document? u
      links := fun u v => k.links u v ∨ Store.LinksOf search uri (d.linkable search) u v }
  | .error _ => k

/-- What a change of a file leaves. -/
def follow (t : FileTree) (search : ImportSearch) (k : Contents) : FileChange → Contents
  | .created uri => k.read t search uri
  | .changed uri =>
    if (k.document? uri).isSome then (k.without uri).read t search uri else k
  | .deleted uri => if (k.document? uri).isSome then k.without uri else k

/-- A document can be read, and all its imports can be looked up. -/
def Readable (t : FileTree) (search : ImportSearch) (uri : Uri) : Prop :=
  ∃ d, Store.load t uri = .ok d ∧ d.Resolves search

/-- A change of a file can be followed completely. -/
def CanFollow (t : FileTree) (search : ImportSearch) (k : Contents) : FileChange → Prop
  | .created uri => Readable t search uri
  | .changed uri => (k.document? uri).isSome ∧ Readable t search uri
  | .deleted uri => (k.document? uri).isSome

/-- Changes of files can all be followed completely, one after the other. -/
def CanFollowAll (t : FileTree) (search : ImportSearch) : Contents → List FileChange → Prop
  | _, [] => True
  | k, c :: changes => k.CanFollow t search c ∧ (k.follow t search c).CanFollowAll t search changes

end Contents

namespace Store

variable {t : FileTree} {s s' : Store} {uri : Uri}

def contents (s : Store) : Contents where
  document? := s.document?
  links u v := v ∈ s.graph.imports.get u

theorem contents_without {graph : ImportGraph} (unlinked : s.graph.Unlinked uri graph) :
    (s.without uri graph).contents = s.contents.without uri := by
  refine Contents.ext (funext (document?_without s uri graph)) ?_
  funext u v
  exact propext unlinked.mem_imports

theorem contents_of_extended {d : Document} {search : ImportSearch} {importees : List Site}
    (read : load t uri = .ok d) (linkable : d.linkable search = importees)
    (extended : (s.put d).Extended (LinksOf search uri importees) s') :
    s'.contents = s.contents.read t search uri := by
  simp only [Contents.read, read, linkable]
  refine Contents.ext (funext fun u => ?_) ?_
  · change s'.document? u = _
    rw [extended.rest]
    change (s.put d).document? u = _
    rw [document?_put, uri_of_load read]
    rfl
  · funext u v
    exact propext (extended.imports u v)

/-- The stores have the same documents and the same import graph. -/
structure SameContents (s s' : Store) : Prop where
  documents : ∀ uri, s.document? uri = s'.document? uri
  imports : s.graph.imports.Agrees s'.graph.imports
  importedBy : s.graph.importedBy.Agrees s'.graph.importedBy

theorem Linked.sameContents_iff (linked : s.Linked) (linked' : s'.Linked) :
    s.SameContents s' ↔ s.contents = s'.contents := by
  have agrees := linked.graph.agrees_iff linked'.graph
  constructor
  · intro same
    refine Contents.ext (funext same.documents) ?_
    funext u v
    exact propext (agrees.mp ⟨same.imports, same.importedBy⟩ u v)
  · intro same
    have links (u v : Uri) : v ∈ s.graph.imports.get u ↔ v ∈ s'.graph.imports.get u :=
      iff_of_eq (congrFun₂ (congrArg Contents.links same) u v)
    obtain ⟨imports, importedBy⟩ := agrees.mpr links
    exact ⟨congrFun (congrArg Contents.document? same), imports, importedBy⟩

/-- What adding a document makes of a store, and when it succeeds. -/
theorem follow_add (t : FileTree) (uri : Uri) (s : Store) :
    let out := (add t uri).run.run s
    out.2.contents = s.contents.read t (s.importTarget t) uri ∧
    out.2.importTarget t = s.importTarget t ∧
    (out.1 = .ok () ↔ Contents.Readable t (s.importTarget t) uri) := by
  cases read : load t uri with
  | error e =>
      rw [run_add_unread read]
      exact ⟨by simp [Contents.read, read], rfl, by simp [Contents.Readable, read]⟩
  | ok d =>
      rcases d.resolves_or_stopsAfter (s.importTarget t) with resolves | ⟨before, e, stops⟩
      · obtain ⟨s', done, extended⟩ := run_add read resolves
        rw [done]
        exact ⟨contents_of_extended read (d.linkable_of_resolves resolves) extended,
          extended.importTarget t, iff_of_true rfl ⟨d, read, resolves⟩⟩
      · obtain ⟨s', stopped, extended⟩ := run_indexImports_stops (s := s.put d) stops
        have failed : (add t uri).run.run s = (.error (.query e), s') := by
          rw [add, StoreAction.run_bind, read]
          exact stopped
        rw [uri_of_load read] at extended
        rw [failed]
        refine ⟨contents_of_extended read (d.linkable_of_stopsAfter stops) extended,
          extended.importTarget t, iff_of_false (by simp) ?_⟩
        rintro ⟨d', read', resolves⟩
        cases read.symm.trans read'
        obtain ⟨importee, after, split, -, unresolved⟩ := stops
        obtain ⟨target, found⟩ := resolves importee (by simp [split])
        cases unresolved.symm.trans found

/-- What a change of a file makes of a store, and when it can be followed completely. -/
structure Followed (t : FileTree) (s : Store) (c : FileChange)
    (out : Except StoreError Unit × Store) : Prop where
  linked : out.2.Linked
  contents : out.2.contents = s.contents.follow t (s.importTarget t) c
  importTarget : out.2.importTarget t = s.importTarget t
  ok_iff : out.1 = .ok () ↔ s.contents.CanFollow t (s.importTarget t) c

/-- A change of a document that the store does not have leaves everything as it is. -/
theorem Linked.followed_unknown (linked : s.Linked) {c : FileChange} {e : StoreError}
    (contents : s.contents.follow t (s.importTarget t) c = s.contents)
    (impossible : ¬ s.contents.CanFollow t (s.importTarget t) c) : Followed t s c (.error e, s) :=
  ⟨linked, contents.symm, rfl, iff_of_false (by simp) impossible⟩

theorem Linked.follow_deleted (linked : s.Linked) (t : FileTree) (uri : Uri) :
    Followed t s (.deleted uri) ((delete uri).run.run s) := by
  cases found : s.document? uri with
  | none =>
      rw [run_delete_unknown found]
      exact linked.followed_unknown (by simp [Contents.follow, Store.contents, found])
        (by simp [Contents.CanFollow, Store.contents, found])
  | some d =>
      have known : (s.contents.document? uri).isSome := Option.isSome_of_eq_some found
      obtain ⟨graph, consistent, unlinked, done⟩ := linked.run_delete known
      rw [done]
      refine ⟨linked.without consistent unlinked, ?_, rfl, iff_of_true rfl known⟩
      rw [contents_without unlinked, Contents.follow, if_pos known]

theorem Linked.follow_changed (linked : s.Linked) (t : FileTree) (uri : Uri) :
    Followed t s (.changed uri) ((update t uri).run.run s) := by
  cases found : s.document? uri with
  | none =>
      rw [update, StoreAction.run_bind, run_delete_unknown found]
      exact linked.followed_unknown (by simp [Contents.follow, Store.contents, found])
        (by simp [Contents.CanFollow, Store.contents, found])
  | some d =>
      have known : (s.contents.document? uri).isSome := Option.isSome_of_eq_some found
      obtain ⟨graph, consistent, unlinked, done⟩ := linked.run_delete known
      obtain ⟨contents, target, ok_iff⟩ := follow_add t uri (s.without uri graph)
      have linked' := preserves_add t uri _ (linked.without consistent unlinked)
      rw [update, StoreAction.run_bind, done]
      refine ⟨linked', ?_, target, ok_iff.trans (and_iff_right known).symm⟩
      rw [Contents.follow, if_pos known, ← contents_without unlinked]
      exact contents

theorem Linked.follow (linked : s.Linked) (t : FileTree) (c : FileChange) :
    Followed t s c ((c.follow t).run.run s) := by
  cases c with
  | created uri =>
      obtain ⟨contents, target, ok_iff⟩ := follow_add t uri s
      exact ⟨preserves_add t uri s linked, contents, target, ok_iff⟩
  | changed uri => exact linked.follow_changed t uri
  | deleted uri => exact linked.follow_deleted t uri

/-! ## Changes one after the other -/

/-- The store after changes of files were followed one after the other, whether or not they
    failed. -/
def followAll (t : FileTree) (s : Store) (changes : List FileChange) : Store :=
  changes.foldl (fun s c => ((c.follow t).run.run s).2) s

theorem Linked.followAll (linked : s.Linked) (t : FileTree) (changes : List FileChange) :
    (s.followAll t changes).Linked ∧
    (s.followAll t changes).contents =
      changes.foldl (Contents.follow t (s.importTarget t)) s.contents ∧
    (s.followAll t changes).importTarget t = s.importTarget t := by
  induction changes generalizing s with
  | nil => exact ⟨linked, rfl, rfl⟩
  | cons c changes ih =>
      -- No change touches the search path, so all of them look imports up in the same way.
      have step := linked.follow t c
      obtain ⟨linked', contents, target⟩ := ih step.linked
      rw [step.importTarget] at contents target
      rw [step.contents] at contents
      exact ⟨linked', contents, target⟩

/-- Changes that are followed up to the first failure. -/
inductive BatchOutcome (t : FileTree) (s : Store) (changes : List FileChange) :
    Except StoreError Unit × Store → Prop where
  | complete (possible : s.contents.CanFollowAll t (s.importTarget t) changes) :
      BatchOutcome t s changes (.ok (), s.followAll t changes)
  | stopped {before lost : List FileChange} {c : FileChange} {e : StoreError}
      (split : changes = before ++ c :: lost)
      (possible : s.contents.CanFollowAll t (s.importTarget t) before)
      (impossible : ¬ (s.followAll t before).contents.CanFollow t (s.importTarget t) c) :
      BatchOutcome t s changes (.error e, s.followAll t (before ++ [c]))

theorem BatchOutcome.cons {c : FileChange} {changes : List FileChange}
    {out : Except StoreError Unit × Store} (linked : s.Linked)
    (first : (c.follow t).run.run s = (.ok (), s')) (rest : BatchOutcome t s' changes out) :
    BatchOutcome t s (c :: changes) out := by
  have step := linked.follow t c
  rw [first] at step
  have all (changes : List FileChange) : s'.followAll t changes = s.followAll t (c :: changes) := by
    simp only [Store.followAll, List.foldl_cons, first]
  have followed {changes : List FileChange}
      (possible : s'.contents.CanFollowAll t (s'.importTarget t) changes) :
      s.contents.CanFollowAll t (s.importTarget t) (c :: changes) := by
    rw [step.contents, step.importTarget] at possible
    exact ⟨step.ok_iff.mp rfl, possible⟩
  cases rest with
  | complete possible =>
      rw [all]
      exact .complete (followed possible)
  | @stopped before lost c' e split possible impossible =>
      rw [all] at impossible ⊢
      rw [step.importTarget] at impossible
      exact .stopped (by rw [split, List.cons_append]) (followed possible) impossible

theorem Linked.batch_outcome (linked : s.Linked) (t : FileTree) (changes : List FileChange) :
    BatchOutcome t s changes ((changes.forM (FileChange.follow t)).run.run s) := by
  rw [List.forM_eq_forM]
  induction changes generalizing s with
  | nil => exact .complete trivial
  | cons c changes ih =>
      have step := linked.follow t c
      rw [List.forM_cons, StoreAction.run_bind]
      cases first : (c.follow t).run.run s with
      | mk result s' =>
          rw [first] at step
          cases result with
          | ok _ => exact .cons linked first (ih step.linked)
          | error e =>
              have after : s' = s.followAll t ([] ++ [c]) := by
                simp only [Store.followAll, List.nil_append, List.foldl_cons, List.foldl_nil, first]
              have impossible : ¬ s.contents.CanFollow t (s.importTarget t) c := by
                rw [← step.ok_iff]
                simp
              rw [after]
              exact .stopped rfl trivial impossible

end Store

/-! ## The server -/

namespace Server

variable {s : Server} {store : Store}

/-- What comes after a failure is not done. -/
theorem run_bind {α β : Type} (x : ServerAction α) (f : α → ServerAction β) (s : Server) :
    (x >>= f).run.run s = match x.run.run s with
      | (.ok a, s') => (f a).run.run s'
      | (.error e, s') => (.error e, s') := by
  rw [ExceptT.run_bind, StateT.run_bind]
  generalize x.run.run s = outcome
  obtain ⟨result, s'⟩ := outcome
  cases result <;> rfl

theorem run_get (s : Server) : (get : ServerAction Server).run.run s = (.ok s, s) := rfl

theorem run_onStore {α : Type} (has : s.store = some store) (action : StoreAction α) :
    (onStore action).run.run s = ((action.run.run store).1.mapError .store,
      { s with store := some (action.run.run store).2 }) := by
  rw [onStore, run_bind, run_get]
  simp only [has]
  generalize action.run.run store = out
  obtain ⟨result, store'⟩ := out
  cases result <;> rfl

theorem currentStore_of_initialized (initialized : s.state = .initialized)
    (has : s.store = some store) : s.currentStore = .ok store := by
  rw [currentStore, initialized, has]
  rfl

/-- An initialized server does work on its store as the store alone would. -/
theorem run_forM_onStore (initialized : s.state = .initialized) (has : s.store = some store)
    (actions : List (StoreAction Unit)) :
    (actions.forM fun action => (do
      let _ ← (← get).currentStore
      onStore action : ServerAction Unit)).run.run s =
    (((actions.forM id).run.run store).1.mapError .store,
      { s with store := some ((actions.forM id).run.run store).2 }) := by
  rw [List.forM_eq_forM, List.forM_eq_forM]
  induction actions generalizing s store with
  | nil =>
      change (Except.ok (), s) = (Except.ok (), { s with store := some store })
      rw [← has]
  | cons action actions ih =>
      have step : (do
          let _ ← (← get).currentStore
          onStore action : ServerAction Unit).run.run s =
          ((action.run.run store).1.mapError .store,
            { s with store := some (action.run.run store).2 }) := by
        rw [run_bind, run_get]
        simp only [currentStore_of_initialized initialized has]
        exact run_onStore has action
      rw [List.forM_cons, List.forM_cons, run_bind, step, StoreAction.run_bind]
      cases first : action.run.run store with
      | mk result store' =>
          simp only [id_eq, first]
          cases result with
          | error e => rfl
          | ok _ => exact ih initialized rfl

/-- What the server answers after its store was changed, and what it becomes. -/
def answered (s : Server) (out : Except StoreError Unit × Store) :
    Except ServerError Response × Server :=
  ((out.1.mapError .store).map fun _ => .store out.2, { s with store := some out.2 })

theorem run_change (initialized : s.state = .initialized) (has : s.store = some store)
    (actions : List (StoreAction Unit)) :
    (change actions).run.run s = s.answered ((actions.forM id).run.run store) := by
  rw [change, run_bind, run_forM_onStore initialized has, answered]
  generalize (actions.forM id).run.run store = out
  obtain ⟨result, store'⟩ := out
  cases result with
  | error e => rfl
  | ok _ =>
      simp only [Except.mapError]
      rw [run_bind, run_get]
      simp only [currentStore_of_initialized (s := { s with store := some store' }) initialized rfl]
      rfl

theorem run_watched (initialized : s.state = .initialized) (has : s.store = some store)
    (t : FileTree) (changes : List FileChange) :
    (answer t (.watched changes)).run.run s =
      s.answered ((changes.forM (FileChange.follow t)).run.run store) := by
  rw [answer, run_change initialized has, List.forM_eq_forM, List.forM_map, List.forM_eq_forM]
  rfl

/-- The server after it was told the changes one by one, each in a request of its own. -/
def inTurn (t : FileTree) (s : Server) (changes : List FileChange) : Server :=
  changes.foldl (fun s c => ((answer t (.watched [c])).run.run s).2) s

theorem inTurn_eq (initialized : s.state = .initialized) (has : s.store = some store)
    (t : FileTree) (changes : List FileChange) :
    inTurn t s changes = { s with store := some (store.followAll t changes) } := by
  induction changes generalizing s store with
  | nil =>
      change s = { s with store := some store }
      rw [← has]
  | cons c changes ih =>
      have step : ((answer t (.watched [c])).run.run s).2 =
          { s with store := some ((c.follow t).run.run store).2 } := by
        rw [run_watched initialized has, answered, List.forM_eq_forM, List.forM_cons, List.forM_nil,
          bind_pure_unit]
      rw [inTurn, List.foldl_cons, step]
      exact ih initialized rfl

/-- For every initialized server with a store that calls lead to, and for every batch of
    changes: if all of them can be followed in turn, the batch succeeds, and the server becomes
    what it becomes if it is told the changes one by one. Otherwise the batch fails, and the
    server becomes what it becomes if it is told the changes one by one up to the first one that
    cannot be followed. The changes after that one are lost. So the documents and the import
    graph are the same in the end exactly if the lost changes would have changed nothing. -/
theorem watched_changes_after_failure_lost (initialized : s.state = .initialized)
    (has : s.store = some store) (reached : store.Reachable) (t : FileTree)
    (changes : List FileChange) :
    let follow := Contents.follow t (store.importTarget t)
    let batch := (answer t (.watched changes)).run.run s
    ∃ b o : Store, batch.2 = { s with store := some b } ∧
      inTurn t s changes = { s with store := some o } ∧
      o.contents = changes.foldl follow store.contents ∧
      (store.contents.CanFollowAll t (store.importTarget t) changes ∧
          batch.1 = .ok (.store b) ∧ b = o ∨
        ∃ before c lost e, changes = before ++ c :: lost ∧
          store.contents.CanFollowAll t (store.importTarget t) before ∧
          ¬ (before.foldl follow store.contents).CanFollow t (store.importTarget t) c ∧
          batch.1 = .error (.store e) ∧ batch.2 = inTurn t s (before ++ [c]) ∧
          b.contents = (before ++ [c]).foldl follow store.contents ∧
          o.contents = lost.foldl follow b.contents ∧
          (b.SameContents o ↔ lost.foldl follow b.contents = b.contents)) := by
  intro follow batch
  have linked := reached.linked
  have told (changes : List FileChange) := inTurn_eq initialized has t changes
  have holds (changes : List FileChange) := linked.followAll t changes
  have outcome := linked.batch_outcome t changes
  have answers : batch = s.answered ((changes.forM (FileChange.follow t)).run.run store) :=
    run_watched initialized has t changes
  generalize (changes.forM (FileChange.follow t)).run.run store = out at outcome answers
  rw [answers]
  cases outcome with
  | complete possible =>
      refine ⟨_, _, rfl, told changes, (holds changes).2.1, .inl ⟨possible, rfl, rfl⟩⟩
  | @stopped before lost c e split possible impossible =>
      have rest : (store.followAll t changes).contents =
          lost.foldl follow (store.followAll t (before ++ [c])).contents := by
        rw [(holds changes).2.1, (holds (before ++ [c])).2.1, ← List.foldl_append, split,
          List.append_assoc, List.singleton_append]
      refine ⟨_, _, rfl, told changes, (holds changes).2.1,
        .inr ⟨before, c, lost, e, split, possible, ?_, rfl, ?_, (holds _).2.1, rest, ?_⟩⟩
      · rwa [(holds before).2.1] at impossible
      · rw [told]
        rfl
      · rw [(holds (before ++ [c])).1.sameContents_iff (holds changes).1, rest, eq_comm]

/-- A server with the store of the two documents. -/
def pairServer : Server :=
  { state := .initialized, store := some Store.pairStore }

/-- Both documents are deleted, and the batch does what the changes do one by one. -/
theorem pairServer_follows_batch :
    let changes : List FileChange := [.deleted "file:///a", .deleted "file:///b"]
    Store.pairStore.Reachable ∧ pairServer.store = some Store.pairStore ∧
    ((answer Store.pairOfFiles (.watched changes)).run.run pairServer).2 =
      inTurn Store.pairOfFiles pairServer changes := by
  intro changes
  have reached : Store.pairStore.Reachable :=
    .call (.fresh {} "file:///" .increasing) Store.pairOfFiles _
  refine ⟨reached, rfl, ?_⟩
  obtain ⟨b, o, batch, single, -, ⟨-, -, same⟩ | ⟨before, c, lost, e, split, -, impossible, -⟩⟩ :=
    watched_changes_after_failure_lost (s := pairServer) rfl rfl reached Store.pairOfFiles changes
  · rw [batch, single, same]
  · refine absurd ?_ impossible
    change [_, _] = before ++ c :: lost at split
    have first : (Store.pairStore.contents.document? "file:///a").isSome :=
      Store.pairStore_known "file:///a" (by simp)
    rcases before with _ | ⟨c₁, _ | ⟨c₂, before⟩⟩
    · cases split
      exact first
    · cases split
      change ((if (Store.pairStore.contents.document? "file:///a").isSome then _ else _ : Contents
        ).document? "file:///b").isSome
      rw [if_pos first]
      exact Store.pairStore_known "file:///b" (by simp)
    · have lengths := congrArg List.length split
      simp at lengths

/-- A change of a document that the store does not have fails, and the document that is deleted
    after that stays in the store. It is taken out if the changes are told one by one. -/
theorem pairServer_keeps_deleted :
    let changes : List FileChange := [.changed "file:///c", .deleted "file:///b"]
    ((answer Store.pairOfFiles (.watched changes)).run.run pairServer).2 = pairServer ∧
    (Store.pairStore.document? "file:///b").isSome ∧
    ∃ o, (inTurn Store.pairOfFiles pairServer changes).store = some o ∧
      o.document? "file:///b" = none ∧ ¬ Store.pairStore.SameContents o := by
  intro changes
  have reached : Store.pairStore.Reachable :=
    .call (.fresh {} "file:///" .increasing) Store.pairOfFiles _
  have known := Store.pairStore_known "file:///b" (by simp)
  have unknown : Store.pairStore.document? "file:///c" = none := by
    rw [Store.document?, List.lookup_eq_none_iff]
    intro entry member
    have listed := List.mem_map_of_mem (f := Prod.fst) member
    rw [(Prod.mk.inj Store.pairStore_contents).1] at listed
    grind
  have failed : (FileChange.follow Store.pairOfFiles (.changed "file:///c")).run.run
      Store.pairStore = (.error .unknownDocument, Store.pairStore) := by
    rw [FileChange.follow, Store.update, StoreAction.run_bind, Store.run_delete_unknown unknown]
  obtain ⟨graph, -, -, deleted⟩ := reached.linked.run_delete known
  have gone :
      (Store.pairStore.followAll Store.pairOfFiles changes).document? "file:///b" = none := by
    simp only [Store.followAll, changes, List.foldl_cons, List.foldl_nil, failed]
    rw [FileChange.follow, deleted, Store.document?_without, if_pos rfl]
  refine ⟨?_, known, _, by rw [inTurn_eq rfl rfl], gone, fun same => ?_⟩
  · rw [run_watched rfl rfl, answered, List.forM_eq_forM, List.forM_cons, StoreAction.run_bind,
      failed]
    rfl
  · rw [same.documents, gone] at known
    cases known

end Server

end JsonnetNav
