import JsonnetNav.Proofs.Reload
import Mathlib

/-! # Reading a document again

A document comes into the store before its imports are looked up, and stays there if one of
them cannot be. An update first takes the document out, so what cannot be read again is gone.
A document that is added a second time keeps the links of its earlier content. Only an update
leaves exactly the links of the new one.
-/

namespace JsonnetNav

/-- The imports before one that cannot be looked up can be. -/
def Document.StopsAfter (d : Document) (search : ImportSearch) (before : List Site)
    (e : QueryError) : Prop :=
  ∃ importee after, d.importees = before ++ importee :: after ∧
    (∀ i ∈ before, ∃ target, search i = .ok target) ∧ search importee = .error e

theorem Document.resolves_or_stopsAfter (d : Document) (search : ImportSearch) :
    d.Resolves search ∨ ∃ before e, d.StopsAfter search before e := by
  unfold Resolves StopsAfter
  induction d.importees with
  | nil => exact .inl (by simp)
  | cons importee rest ih =>
      cases found : search importee with
      | error e => exact .inr ⟨[], e, importee, rest, rfl, by simp, found⟩
      | ok target =>
          rcases ih with all | ⟨before, e, other, after, split, possible, failed⟩
          · exact .inl (List.forall_mem_cons.mpr ⟨⟨target, found⟩, all⟩)
          · refine .inr ⟨importee :: before, e, other, after, by simp [split], ?_, failed⟩
            exact List.forall_mem_cons.mpr ⟨⟨target, found⟩, possible⟩

namespace Store

variable {t : FileTree} {s s' : Store} {uri : Uri} {d : Document}

/-- A link from the uri to what one of the imports stands for. -/
def LinksOf (search : ImportSearch) (uri : Uri) (importees : List Site) (u v : Uri) : Prop :=
  u = uri ∧ ∃ importee ∈ importees, search importee = .ok (some v)

/-- The document is put into the store, and its imports are linked up to the first one that
    cannot be looked up. -/
def HalfAdded (s : Store) (t : FileTree) (d : Document) (e : StoreError) (s' : Store) : Prop :=
  ∃ before cause, d.StopsAfter (s.importTarget t) before cause ∧ e = .query cause ∧
    (s.put d).Extended (LinksOf (s.importTarget t) d.uri before) s'

theorem run_indexImports_stops {before : List Site} {e : QueryError}
    (stops : d.StopsAfter (s.importTarget t) before e) :
    ∃ s', (indexImports t d).run.run s = (.error (.query e), s') ∧
      s.Extended (LinksOf (s.importTarget t) d.uri before) s' := by
  obtain ⟨importee, after, split, possible, failed⟩ := stops
  obtain ⟨s', done, extended⟩ :=
    (Adds.forM (fun importee (_ : importee ∈ before) => adds_linkImport d importee) s rfl).1
      possible
  refine ⟨s', ?_, extended.rest, extended.consistent, fun u v => ?_⟩
  · have stuck : (linkImport t d importee).run.run s' = (.error (.query e), s') := by
      simp only [linkImport, StoreAction.run_bind, StoreAction.run_get, extended.importTarget,
        failed]
      rfl
    rw [List.forM_eq_forM] at done
    rw [indexImports, split, List.forM_eq_forM, List.forM_append, StoreAction.run_bind, done]
    simp only [List.forM_cons, StoreAction.run_bind, stuck]
  · rw [extended.imports, LinksOf]
    constructor
    · rintro (old | ⟨importee, member, same, found⟩)
      · exact .inl old
      · exact .inr ⟨same, importee, member, found⟩
    · rintro (old | ⟨same, importee, member, found⟩)
      · exact .inl old
      · exact .inr ⟨importee, member, same, found⟩

theorem run_add_unread {e : StoreError} (unread : load t uri = .error e) (s : Store) :
    (add t uri).run.run s = (.error e, s) := by
  rw [add, StoreAction.run_bind, unread]
  rfl

/-- What adding a document comes to. -/
inductive AddOutcome (t : FileTree) (uri : Uri) (s : Store) :
    Except StoreError Unit × Store → Prop where
  | unread {e : StoreError} (failed : load t uri = .error e) : AddOutcome t uri s (.error e, s)
  | stopped {d : Document} {e : StoreError} {s' : Store} (read : load t uri = .ok d)
      (half : s.HalfAdded t d e s') : AddOutcome t uri s (.error e, s')
  | added {d : Document} {s' : Store} (read : load t uri = .ok d)
      (extended : (s.put d).Extended (LinksOf (s.importTarget t) uri d.importees) s') :
      AddOutcome t uri s (.ok (), s')

theorem add_outcome (t : FileTree) (uri : Uri) (s : Store) :
    AddOutcome t uri s ((add t uri).run.run s) := by
  cases read : load t uri with
  | error e =>
      rw [run_add_unread read]
      exact .unread read
  | ok d =>
      rcases d.resolves_or_stopsAfter (s.importTarget t) with resolves | ⟨before, e, stops⟩
      · obtain ⟨s', done, extended⟩ := run_add read resolves
        rw [done]
        exact .added read extended
      · obtain ⟨s', done, extended⟩ := run_indexImports_stops (s := s.put d) stops
        have failed : (add t uri).run.run s = (.error (.query e), s') := by
          rw [add, StoreAction.run_bind, read]
          exact done
        rw [failed]
        exact .stopped read ⟨before, e, stops, rfl, extended⟩

/-- What updating a document comes to: it is taken out, and then it is added. -/
inductive UpdateOutcome (t : FileTree) (uri : Uri) (s : Store) :
    Except StoreError Unit × Store → Prop where
  | unknown (absent : s.document? uri = none) : UpdateOutcome t uri s (.error .unknownDocument, s)
  | reread {graph : ImportGraph} {out : Except StoreError Unit × Store}
      (known : (s.document? uri).isSome) (unlinked : s.graph.Unlinked uri graph)
      (adding : AddOutcome t uri (s.without uri graph) out) : UpdateOutcome t uri s out

theorem Linked.update_outcome (linked : s.Linked) (t : FileTree) (uri : Uri) :
    UpdateOutcome t uri s ((update t uri).run.run s) := by
  cases found : s.document? uri with
  | none =>
      rw [update, StoreAction.run_bind, run_delete_unknown found]
      exact .unknown found
  | some d =>
      have known := Option.isSome_of_eq_some found
      obtain ⟨graph, -, unlinked, deleted⟩ := linked.run_delete known
      rw [update, StoreAction.run_bind, deleted]
      exact .reread known unlinked (add_outcome t uri _)

/-! ## Calls that fail -/

theorem Linked.delete_fails (linked : s.Linked) {e : StoreError}
    (failed : (delete uri).run.run s = (.error e, s')) : s' = s := by
  cases found : s.document? uri with
  | none =>
      rw [run_delete_unknown found] at failed
      exact (Prod.mk.inj failed).2.symm
  | some d =>
      obtain ⟨graph, -, -, done⟩ := linked.run_delete (Option.isSome_of_eq_some found)
      rw [done] at failed
      cases failed

theorem AddOutcome.of_error {e : StoreError} (adding : AddOutcome t uri s (.error e, s')) :
    load t uri = .error e ∧ s' = s ∨ ∃ d, load t uri = .ok d ∧ s.HalfAdded t d e s' := by
  cases adding with
  | unread failed => exact .inl ⟨failed, rfl⟩
  | stopped read half => exact .inr ⟨_, read, half⟩

/-- An update loses every document that cannot be read again. -/
theorem Linked.update_unread (linked : s.Linked) (known : (s.document? uri).isSome)
    {e : StoreError} (unread : load t uri = .error e) :
    ∃ graph, s.graph.Unlinked uri graph ∧
      (update t uri).run.run s = (.error e, s.without uri graph) := by
  obtain ⟨graph, -, unlinked, deleted⟩ := linked.run_delete known
  refine ⟨graph, unlinked, ?_⟩
  rw [update, StoreAction.run_bind, deleted]
  exact run_add_unread unread _

/-- Whatever calls have led to the store: a call that takes a document out changes nothing if
    it fails. A call that adds a document and fails changes nothing if the document cannot be
    read; otherwise the document is in the store, and the imports before the one that cannot be
    looked up are linked. A failed update changes nothing if there was no such document;
    otherwise the document was taken out first, and is gone if it cannot be read. -/
theorem failed_calls (reached : s.Reachable) (t : FileTree) (uri : Uri) :
    (∀ e s', (delete uri).run.run s = (.error e, s') → s' = s) ∧
    (∀ e s', (add t uri).run.run s = (.error e, s') →
      load t uri = .error e ∧ s' = s ∨ ∃ d, load t uri = .ok d ∧ s.HalfAdded t d e s') ∧
    (∀ e s', (update t uri).run.run s = (.error e, s') →
      s.document? uri = none ∧ s' = s ∨
      (s.document? uri).isSome ∧ ∃ graph, s.graph.Unlinked uri graph ∧
        (load t uri = .error e ∧ s' = s.without uri graph ∨
          ∃ d, load t uri = .ok d ∧ (s.without uri graph).HalfAdded t d e s')) ∧
    ∀ e, (s.document? uri).isSome → load t uri = .error e →
      ∃ s', (update t uri).run.run s = (.error e, s') ∧
        (∀ u, s'.document? u = if u = uri then none else s.document? u) ∧
        ∀ u v, v ∈ s'.graph.imports.get u ↔ v ∈ s.graph.imports.get u ∧ u ≠ uri ∧ v ≠ uri := by
  have linked := reached.linked
  refine ⟨fun e s' => linked.delete_fails, fun e s' failed => ?_, fun e s' failed => ?_, ?_⟩
  · have adding := add_outcome t uri s
    rw [failed] at adding
    exact adding.of_error
  · have updating := linked.update_outcome t uri
    rw [failed] at updating
    cases updating with
    | unknown absent => exact .inl ⟨absent, rfl⟩
    | reread known unlinked adding => exact .inr ⟨known, _, unlinked, adding.of_error⟩
  · intro e known unread
    obtain ⟨graph, unlinked, failed⟩ := linked.update_unread known unread
    exact ⟨_, failed, document?_without s uri graph, fun _ _ => unlinked.mem_imports⟩

/-- The two documents after the file of the first one was overwritten with bytes that are no
    text. -/
def brokenPair : FileTree :=
  { files := [([.ofString "a"], .undecodable), ([.ofString "b"], importing "b")] }

theorem brokenPair_unread : load brokenPair "file:///a" = .error (.read .undecodable) := by
  cbv

/-- Adding the broken document fails, and the one that was loaded before stays. -/
theorem pairStore_failed_add :
    pairStore.Reachable ∧ (pairStore.document? "file:///a").isSome ∧
    ∃ e s', (add brokenPair "file:///a").run.run pairStore = (.error e, s') ∧ s' = pairStore := by
  have reached : pairStore.Reachable := .call (.fresh {} "file:///" .increasing) pairOfFiles _
  have failed := run_add_unread brokenPair_unread pairStore
  obtain ⟨-, adding, -⟩ := failed_calls reached brokenPair "file:///a"
  refine ⟨reached, pairStore_known "file:///a" (by simp), _, _, failed, ?_⟩
  rcases adding _ _ failed with ⟨-, same⟩ | ⟨d, read, -⟩
  · exact same
  · cases brokenPair_unread.symm.trans read

/-- Updating it fails as well, and then the document that was loaded before is gone together
    with its link. -/
theorem pairStore_failed_update :
    pairStore.Reachable ∧ (pairStore.document? "file:///a").isSome ∧
    "file:///b" ∈ pairStore.graph.imports.get "file:///a" ∧
    ∃ e s', (update brokenPair "file:///a").run.run pairStore = (.error e, s') ∧
      s'.document? "file:///a" = none ∧ "file:///b" ∉ s'.graph.imports.get "file:///a" := by
  have reached : pairStore.Reachable := .call (.fresh {} "file:///" .increasing) pairOfFiles _
  have known := pairStore_known "file:///a" (by simp)
  obtain ⟨graph, unlinked, failed⟩ := reached.linked.update_unread known brokenPair_unread
  refine ⟨reached, known, by simp [mem_pairStore_imports], _, _, failed, ?_, ?_⟩
  · simp [document?_without]
  · intro member
    exact (unlinked.mem_imports.mp member).2.1 rfl

/-! ## Links of a document that is read again -/

/-- The links that lead out of a document are those of its imports. -/
def LinksExactly (s : Store) (t : FileTree) (uri : Uri) : Prop :=
  ∃ d, s.document? uri = some d ∧
    ∀ v, v ∈ s.graph.imports.get uri ↔ d.Imports (s.importTarget t) v

theorem Linked.imports_of_unknown (linked : s.Linked) (unknown : s.document? uri = none) (v : Uri) :
    v ∉ s.graph.imports.get uri := by
  intro member
  have known := linked.importers uri (List.ne_nil_of_mem member)
  rw [unknown] at known
  cases known

/-- A document that is added has the links of its imports besides those it had before. -/
theorem AddOutcome.of_ok (adding : AddOutcome t uri s (.ok (), s')) :
    ∃ d, load t uri = .ok d ∧ s'.importTarget t = s.importTarget t ∧
      (∀ u, s'.document? u = if u = uri then some d else s.document? u) ∧
      ∀ u v, v ∈ s'.graph.imports.get u ↔
        v ∈ s.graph.imports.get u ∨ u = uri ∧ d.Imports (s.importTarget t) v := by
  cases adding with
  | @added d _ read extended =>
      refine ⟨d, read, extended.importTarget t, fun u => ?_, extended.imports⟩
      rw [extended.rest]
      change (s.put d).document? u = _
      rw [document?_put, uri_of_load read]

/-- Whatever calls have led to the store: a document that is added links to its imports and to
    what it has linked to before. So its links are exactly those of its imports if and only if
    it still imports all the others, and so they are if the store did not have the document.
    After an update the links are always exactly those of the imports. -/
theorem links_of_reread (reached : s.Reachable) (t : FileTree) (uri : Uri) :
    (∀ s', (add t uri).run.run s = (.ok (), s') →
      ∃ d, load t uri = .ok d ∧ s'.document? uri = some d ∧
        (∀ v, v ∈ s'.graph.imports.get uri ↔
          v ∈ s.graph.imports.get uri ∨ d.Imports (s'.importTarget t) v) ∧
        (s'.LinksExactly t uri ↔
          ∀ v ∈ s.graph.imports.get uri, d.Imports (s'.importTarget t) v) ∧
        (s.document? uri = none → s'.LinksExactly t uri)) ∧
    ∀ s', (update t uri).run.run s = (.ok (), s') →
      ∃ d, load t uri = .ok d ∧ s'.document? uri = some d ∧ s'.LinksExactly t uri := by
  have linked := reached.linked
  constructor
  · intro s' done
    have adding := add_outcome t uri s
    rw [done] at adding
    obtain ⟨d, read, search, documents, links⟩ := adding.of_ok
    have known : s'.document? uri = some d := by simp [documents]
    have linksOf (v : Uri) : v ∈ s'.graph.imports.get uri ↔
        v ∈ s.graph.imports.get uri ∨ d.Imports (s'.importTarget t) v := by simp [links, search]
    have exact_iff : s'.LinksExactly t uri ↔
        ∀ v ∈ s.graph.imports.get uri, d.Imports (s'.importTarget t) v := by
      simp only [LinksExactly, known, Option.some.injEq, exists_eq_left', linksOf,
        or_iff_right_iff_imp]
    refine ⟨d, read, known, linksOf, exact_iff, fun unknown => ?_⟩
    exact exact_iff.mpr fun v old => absurd old (linked.imports_of_unknown unknown v)
  · intro s' done
    have updating := linked.update_outcome t uri
    rw [done] at updating
    cases updating with
    | reread _ unlinked adding =>
        obtain ⟨d, read, search, documents, links⟩ := adding.of_ok
        have known : s'.document? uri = some d := by simp [documents]
        refine ⟨d, read, known, d, known, fun v => ?_⟩
        have none : v ∉ (s.without uri _).graph.imports.get uri :=
          fun member => (unlinked.mem_imports.mp member).2.1 rfl
        simp [links, search, none]

/-- The two documents after the first one was changed to import itself. -/
def changedPair : FileTree :=
  { files := [([.ofString "a"], importing "a"), ([.ofString "b"], importing "b")] }

/-- An update of the changed document leaves no link of its earlier content. -/
theorem pairStore_changed_update :
    pairStore.Reachable ∧ "file:///b" ∈ pairStore.graph.imports.get "file:///a" ∧
    ∃ s', (update changedPair "file:///a").run.run pairStore = (.ok (), s') ∧
      s'.LinksExactly changedPair "file:///a" := by
  have reached : pairStore.Reachable := .call (.fresh {} "file:///" .increasing) pairOfFiles _
  have done : ((update changedPair "file:///a").run.run pairStore).1 = .ok () := by cbv
  refine ⟨reached, by simp [mem_pairStore_imports], _, Prod.ext done rfl, ?_⟩
  obtain ⟨d, -, -, links⟩ :=
    (links_of_reread reached changedPair "file:///a").2 _ (Prod.ext done rfl)
  exact links

/-- If the changed document is added instead, it still links to what it imported before. -/
theorem pairStore_changed_add :
    pairStore.Reachable ∧
    ∃ s' d, (add changedPair "file:///a").run.run pairStore = (.ok (), s') ∧
      s'.document? "file:///a" = some d ∧ "file:///b" ∈ s'.graph.imports.get "file:///a" ∧
      ¬ d.Imports (s'.importTarget changedPair) "file:///b" := by
  have reached : pairStore.Reachable := .call (.fresh {} "file:///" .increasing) pairOfFiles _
  have adding := add_outcome changedPair "file:///a" pairStore
  have computed : ((add changedPair "file:///a").run.run pairStore).1 = .ok () ∧
      (load changedPair "file:///a").map
        (fun d => d.importees.map (pairStore.importTarget changedPair)) =
      .ok [.ok (some "file:///a")] := by cbv
  obtain ⟨done, targets⟩ := computed
  rw [← Prod.eta ((add changedPair "file:///a").run.run pairStore), done] at adding
  obtain ⟨d, read, search, documents, links⟩ := adding.of_ok
  refine ⟨reached, _, d, Prod.ext done rfl, by simp [documents], ?_, ?_⟩
  · simp [links, mem_pairStore_imports]
  · rintro ⟨importee, member, found⟩
    rw [read] at targets
    have only : d.importees.map (pairStore.importTarget changedPair) = [.ok (some "file:///a")] :=
      Except.ok.inj targets
    have listed := List.mem_map_of_mem (f := pairStore.importTarget changedPair) member
    rw [only, ← search, found] at listed
    simp at listed

end Store

end JsonnetNav
