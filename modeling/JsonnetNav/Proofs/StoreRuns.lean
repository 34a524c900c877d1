import JsonnetNav.Proofs.ImportGraph
import JsonnetNav.Store.Update
import Mathlib

/-! # Runs of a store

Calls change a store one after the other, each over the files as they are at that moment,
and a call that fails leaves what it had changed. What every call preserves holds of every
store that calls lead to. Above all this is that the import graph is consistent, and that
only documents of the store import anything.
-/

namespace JsonnetNav

theorem ok_of_isOk {ε : Type} {x : Except ε Unit} (ok : x.isOk) : x = .ok () := by
  cases x with
  | error e => cases ok
  | ok _ => rfl

namespace StoreAction

variable {α β : Type}

theorem run_modify (f : Store → Store) (s : Store) :
    (modify f : StoreAction PUnit).run.run s = (.ok ⟨⟩, f s) := rfl

theorem run_get (s : Store) : (get : StoreAction Store).run.run s = (.ok s, s) := rfl

theorem run_liftM (x : Except StoreError α) (s : Store) :
    (liftM x : StoreAction α).run.run s = (x, s) := rfl

/-- What comes after a failure is not done. -/
theorem run_bind (x : StoreAction α) (f : α → StoreAction β) (s : Store) :
    (x >>= f).run.run s = match x.run.run s with
      | (.ok a, s') => (f a).run.run s'
      | (.error e, s') => (.error e, s') := by
  rw [ExceptT.run_bind, StateT.run_bind]
  generalize x.run.run s = outcome
  obtain ⟨result, s'⟩ := outcome
  cases result <;> rfl

/-- If two actions in turn succeed, then each of them does. -/
theorem run_bind_ok {x : StoreAction α} {f : α → StoreAction β} {b : β} {s s' : Store} :
    (x >>= f).run.run s = (.ok b, s') ↔
      ∃ a s₁, x.run.run s = (.ok a, s₁) ∧ (f a).run.run s₁ = (.ok b, s') := by
  rw [run_bind]
  generalize x.run.run s = outcome
  obtain ⟨result, s₁⟩ := outcome
  cases result with
  | error e =>
      constructor
      · intro failed
        cases failed
      · rintro ⟨_, _, failed, -⟩
        cases failed
  | ok a =>
      constructor
      · exact fun done => ⟨a, s₁, rfl, done⟩
      · rintro ⟨_, _, first, rest⟩
        cases first
        exact rest

/-- Actions in turn all succeed, or they stop at the first one that fails. -/
theorem run_forM (f : α → StoreAction Unit) (xs : List α) (s : Store) :
    (∃ s', (xs.forM f).run.run s = (.ok (), s')) ∨
    ∃ before x after s₁ e s', xs = before ++ x :: after ∧
      (before.forM f).run.run s = (.ok (), s₁) ∧ (f x).run.run s₁ = (.error e, s') ∧
      (xs.forM f).run.run s = (.error e, s') := by
  simp only [List.forM_eq_forM]
  induction xs generalizing s with
  | nil => exact .inl ⟨s, rfl⟩
  | cons x xs ih =>
      simp only [List.forM_cons, run_bind]
      cases first : (f x).run.run s with
      | mk result s₁ =>
          cases result with
          | error e => exact .inr ⟨[], x, xs, s, e, s₁, rfl, rfl, first, rfl⟩
          | ok _ =>
              rcases ih s₁ with ⟨s', done⟩ | ⟨before, y, after, s₂, e, s', rfl, done, failed, all⟩
              · exact .inl ⟨s', done⟩
              · refine .inr ⟨x :: before, y, after, s₂, e, s', rfl, ?_, failed, all⟩
                simp only [List.forM_cons, run_bind, first, done]

/-- The action keeps a property of stores, also when it fails. -/
def Preserves (P : Store → Prop) (x : StoreAction α) : Prop :=
  ∀ s, P s → P (x.run.run s).2

variable {P : Store → Prop}

theorem Preserves.pure (a : α) : Preserves P (Pure.pure a : StoreAction α) :=
  fun _ holds => holds

theorem Preserves.modify {f : Store → Store} (step : ∀ s, P s → P (f s)) :
    Preserves P (modify f : StoreAction PUnit) :=
  step

theorem Preserves.bind {x : StoreAction α} {f : α → StoreAction β} (first : Preserves P x)
    (rest : ∀ a, Preserves P (f a)) : Preserves P (x >>= f) := by
  intro s holds
  have after := first s holds
  rw [run_bind]
  generalize x.run.run s = outcome at after ⊢
  obtain ⟨result, s'⟩ := outcome
  cases result with
  | ok a => exact rest a s' after
  | error e => exact after

/-- An action that reads the store may rely on the property of what it reads. -/
theorem Preserves.get_bind {f : Store → StoreAction β}
    (rest : ∀ s, P s → P ((f s).run.run s).2) : Preserves P (get >>= f) := by
  intro s holds
  rw [run_bind, run_get]
  exact rest s holds

theorem Preserves.forM {f : α → StoreAction PUnit} {xs : List α}
    (step : ∀ x ∈ xs, Preserves P (f x)) : Preserves P (xs.forM f) := by
  induction xs with
  | nil => exact Preserves.pure _
  | cons x xs ih =>
      simp only [List.forM_eq_forM, List.forM_cons] at ih ⊢
      exact (step x (List.mem_cons_self ..)).bind
        fun _ => ih fun y member => step y (List.mem_cons_of_mem x member)

end StoreAction

namespace Store

/-! ## Documents under their uris -/

/-- Every document stands under its own uri. -/
def Keyed (s : Store) : Prop :=
  ∀ entry ∈ s.documents, entry.2.uri = entry.1

theorem document?_put (s : Store) (d : Document) (uri : Uri) :
    (s.put d).document? uri = if uri = d.uri then some d else s.document? uri := by
  unfold put document?
  by_cases known : (s.documents.lookup d.uri).isSome
  · obtain ⟨old, found⟩ := Option.isSome_iff_exists.mp known
    simp only [known, if_true]
    rw [UriTable.lookup_map_entry s.documents d.uri uri (fun _ => d)]
    split
    · subst uri
      simp [found]
    · rfl
  · have absent : s.documents.lookup d.uri = none := Option.not_isSome_iff_eq_none.mp known
    simp only [known, Bool.false_eq_true, if_false, List.lookup_append, List.lookup_cons,
      List.lookup_nil]
    by_cases same : uri = d.uri
    · simp [same, absent]
    · have other : (uri == d.uri) = false := by simp [same]
      simp [same, other]

theorem Keyed.put {s : Store} (keyed : s.Keyed) (d : Document) : (s.put d).Keyed := by
  intro entry member
  unfold Store.put at member
  split at member
  · obtain ⟨⟨key, old⟩, present, rfl⟩ := List.mem_map.mp member
    by_cases same : key = d.uri
    · simp [same]
    · simpa [same] using keyed _ present
  · rcases List.mem_append.mp member with present | new
    · exact keyed entry present
    · simp [List.mem_singleton.mp new]

/-! ## The invariant -/

/-- The import graph is consistent, and every importer is a document of the store. -/
structure Linked (s : Store) : Prop where
  keyed : s.Keyed
  graph : s.graph.Consistent
  importers : ∀ uri, s.graph.imports.get uri ≠ [] → (s.document? uri).isSome

theorem Linked.fresh (config : Config) (workspaceUri : Uri) (order : ImporterOrder) :
    Linked { config := config, workspaceUri := workspaceUri, order := order } :=
  ⟨fun _ member => by simp at member, .empty, fun _ nonempty => absurd rfl nonempty⟩

theorem Linked.put {s : Store} (linked : s.Linked) (d : Document) : (s.put d).Linked := by
  refine ⟨linked.keyed.put d, linked.graph, fun uri nonempty => ?_⟩
  rw [document?_put]
  split
  · rfl
  · exact linked.importers uri nonempty

theorem Linked.link {s : Store} (linked : s.Linked) {importer : Uri}
    (known : (s.document? importer).isSome) (importee : Uri) :
    Linked { s with graph := s.graph.link importer importee } := by
  refine ⟨linked.keyed, linked.graph.link importer importee, fun uri nonempty => ?_⟩
  obtain ⟨v, member⟩ := List.exists_mem_of_ne_nil _ nonempty
  rcases (LinkMap.mem_get_insert ..).mp member with old | ⟨rfl, -⟩
  · exact linked.importers uri (List.ne_nil_of_mem old)
  · exact known

/-- What taking in a path comes to. -/
inductive TakeOutcome (t : FileTree) (p : FilePath) (s : Store) :
    Except StoreError Unit × Store → Prop where
  | library (folder : t.isFolder p) (library : s.config.isLibrary p) :
      TakeOutcome t p s (.ok (), { s with libraryPaths := s.libraryPaths ++ [p] })
  | folder (folder : t.isFolder p) (other : ¬ s.config.isLibrary p) : TakeOutcome t p s (.ok (), s)
  | missing (folder : ¬ t.isFolder p) (file : ¬ t.isFile p) : TakeOutcome t p s (.ok (), s)
  | unnamed {e : UriError} (folder : ¬ t.isFolder p) (file : t.isFile p)
      (unnamed : p.toUri = .error e) : TakeOutcome t p s (.error (.uri e), s)
  | unread {uri : Uri} {e : StoreError} (folder : ¬ t.isFolder p) (file : t.isFile p)
      (named : p.toUri = .ok uri) (unread : load t uri = .error e) : TakeOutcome t p s (.ok (), s)
  | read {uri : Uri} {d : Document} (folder : ¬ t.isFolder p) (file : t.isFile p)
      (named : p.toUri = .ok uri) (read : load t uri = .ok d) :
      TakeOutcome t p s (.ok (), s.put d)

theorem takeIn_outcome (t : FileTree) (p : FilePath) (s : Store) :
    TakeOutcome t p s ((takeIn t p).run.run s) := by
  unfold takeIn
  split
  · rename_i folder
    rw [StoreAction.run_bind, StoreAction.run_get]
    by_cases library : s.config.isLibrary p
    · simp only [library, if_true]
      exact .library folder library
    · simp only [library, Bool.false_eq_true, if_false]
      exact .folder folder library
  · rename_i folder
    split
    · rename_i file
      rw [StoreAction.run_bind, StoreAction.run_liftM]
      cases named : p.toUri with
      | error e => exact .unnamed folder file named
      | ok uri =>
          simp only [Except.mapError]
          cases loaded : load t uri with
          | error e => exact .unread folder file named loaded
          | ok d => exact .read folder file named loaded
    · rename_i file
      exact .missing folder file

/-- Taking in a path adds a library folder or a document that can be loaded, or nothing. -/
theorem preserves_takeIn {P : Store → Prop} {t : FileTree}
    (library : ∀ s p, P s → P { s with libraryPaths := s.libraryPaths ++ [p] })
    (put : ∀ s uri d, load t uri = .ok d → P s → P (s.put d)) (p : FilePath) :
    StoreAction.Preserves P (takeIn t p) := by
  intro s holds
  have outcome := takeIn_outcome t p s
  generalize (takeIn t p).run.run s = out at outcome ⊢
  cases outcome with
  | library => exact library s p holds
  | folder => exact holds
  | missing => exact holds
  | unnamed => exact holds
  | unread => exact holds
  | read _ _ _ read => exact put s _ _ read holds

/-- Indexing only adds links of a document that the store has. -/
theorem preserves_indexImports (t : FileTree) (d : Document) {entries : List (Uri × Document)}
    (known : (entries.lookup d.uri).isSome) :
    StoreAction.Preserves (fun s => s.Linked ∧ s.documents = entries) (indexImports t d) := by
  refine StoreAction.Preserves.forM fun importee _ => StoreAction.Preserves.get_bind ?_
  rintro s ⟨linked, rfl⟩
  split
  · exact ⟨linked.link known _, rfl⟩
  · exact ⟨linked, rfl⟩
  · exact ⟨linked, rfl⟩

theorem preserves_loadPaths (t : FileTree) (paths : List FilePath) :
    StoreAction.Preserves Linked (loadPaths t paths) := by
  refine StoreAction.Preserves.bind (StoreAction.Preserves.forM fun p _ => ?_)
    fun _ => StoreAction.Preserves.get_bind fun s linked => ?_
  · exact preserves_takeIn (fun s _ linked => ⟨linked.keyed, linked.graph, linked.importers⟩)
      (fun s _ d _ linked => linked.put d) p
  · have known : ∀ entry ∈ s.documents, (s.documents.lookup entry.2.uri).isSome :=
      fun entry member => linked.keyed entry member ▸ UriTable.known_of_mem member
    have whole := StoreAction.Preserves.forM
      (f := fun entry : Uri × Document => indexImports t entry.2)
      fun entry member => preserves_indexImports t entry.2 (known entry member)
    exact (whole s ⟨linked, rfl⟩).1

theorem preserves_loadWorkspace (t : FileTree) :
    StoreAction.Preserves Linked (loadWorkspace t) := by
  refine StoreAction.Preserves.get_bind fun s linked => ?_
  refine StoreAction.Preserves.bind (fun s linked => ?_) (fun paths => ?_) s linked
  · cases s.scan t <;> exact linked
  · exact (preserves_loadPaths t paths).bind fun _ => StoreAction.Preserves.pure _

theorem preserves_add (t : FileTree) (uri : Uri) : StoreAction.Preserves Linked (add t uri) := by
  refine StoreAction.Preserves.bind (fun s linked => ?_) fun d => ?_
  · cases load t uri <;> exact linked
  · intro s linked
    have known : ((s.put d).documents.lookup d.uri).isSome := by
      have found := document?_put s d d.uri
      rw [if_pos rfl] at found
      exact Option.isSome_of_eq_some found
    rw [StoreAction.run_bind, StoreAction.run_modify]
    exact (preserves_indexImports t d known (s.put d) ⟨linked.put d, rfl⟩).1

/-! ## Taking a document out -/

/-- The store without a document, and with another import graph. -/
def without (s : Store) (uri : Uri) (graph : ImportGraph) : Store :=
  { s with documents := s.documents.filter (·.1 ≠ uri), graph := graph }

theorem document?_without (s : Store) (uri : Uri) (graph : ImportGraph) (u : Uri) :
    (s.without uri graph).document? u = if u = uri then none else s.document? u :=
  UriTable.lookup_filter_entry s.documents uri u

theorem run_delete_unknown {s : Store} {uri : Uri} (unknown : s.document? uri = none) :
    (delete uri).run.run s = (.error .unknownDocument, s) := by
  simp only [delete, StoreAction.run_bind, StoreAction.run_get, unknown, Option.isNone_none,
    if_true]
  rfl

theorem Linked.run_delete {s : Store} (linked : s.Linked) {uri : Uri}
    (known : (s.document? uri).isSome) :
    ∃ graph, graph.Consistent ∧ s.graph.Unlinked uri graph ∧
      (delete uri).run.run s = (.ok (), s.without uri graph) := by
  obtain ⟨graph, complete, consistent, unlinked⟩ := linked.graph.unlink uri
  refine ⟨graph, consistent, unlinked, ?_⟩
  have present : (s.document? uri).isNone = false := by
    rw [← Option.not_isSome, known]
    rfl
  simp only [delete, StoreAction.run_bind, StoreAction.run_get, present, Bool.false_eq_true,
    if_false, complete]
  rfl

theorem Linked.without {s : Store} (linked : s.Linked) {uri : Uri} {graph : ImportGraph}
    (consistent : graph.Consistent) (unlinked : s.graph.Unlinked uri graph) :
    (s.without uri graph).Linked := by
  refine ⟨fun entry member => linked.keyed entry (List.mem_filter.mp member).1, consistent,
    fun u nonempty => ?_⟩
  obtain ⟨v, member⟩ := List.exists_mem_of_ne_nil _ nonempty
  obtain ⟨old, different, -⟩ := unlinked.mem_imports.mp member
  rw [document?_without, if_neg different]
  exact linked.importers u (List.ne_nil_of_mem old)

theorem preserves_delete (uri : Uri) : StoreAction.Preserves Linked (delete uri) := by
  intro s linked
  cases found : s.document? uri with
  | none =>
      rw [run_delete_unknown found]
      exact linked
  | some d =>
      obtain ⟨graph, consistent, unlinked, done⟩ :=
        linked.run_delete (Option.isSome_of_eq_some found)
      rw [done]
      exact linked.without consistent unlinked

theorem preserves_update (t : FileTree) (uri : Uri) :
    StoreAction.Preserves Linked (update t uri) :=
  (preserves_delete uri).bind fun _ => preserves_add t uri

/-! ## Reachable stores -/

/-- What a store is asked to do. -/
inductive Call where
  | loadWorkspace
  | loadPaths (paths : List FilePath)
  | add (uri : Uri)
  | delete (uri : Uri)
  | update (uri : Uri)

/-- The store after a call, whether or not the call fails. -/
def Call.after (t : FileTree) (s : Store) : Call → Store
  | loadWorkspace => ((Store.loadWorkspace t).run.run s).2
  | loadPaths paths => ((Store.loadPaths t paths).run.run s).2
  | add uri => ((Store.add t uri).run.run s).2
  | delete uri => ((Store.delete uri).run.run s).2
  | update uri => ((Store.update t uri).run.run s).2

/-- The stores that calls lead to. Every call finds the files in a state of its own. -/
inductive Reachable : Store → Prop where
  | fresh (config : Config) (workspaceUri : Uri) (order : ImporterOrder) :
      Reachable { config := config, workspaceUri := workspaceUri, order := order }
  | call {s : Store} (reached : Reachable s) (t : FileTree) (c : Call) : Reachable (c.after t s)

theorem Linked.after {s : Store} (linked : s.Linked) (t : FileTree) (c : Call) :
    (c.after t s).Linked := by
  cases c with
  | loadWorkspace => exact preserves_loadWorkspace t s linked
  | loadPaths paths => exact preserves_loadPaths t paths s linked
  | add uri => exact preserves_add t uri s linked
  | delete uri => exact preserves_delete uri s linked
  | update uri => exact preserves_update t uri s linked

theorem Reachable.linked {s : Store} (reached : s.Reachable) : s.Linked := by
  induction reached with
  | fresh config workspaceUri order => exact .fresh config workspaceUri order
  | call _ t c ih => exact ih.after t c

/-- In every store that calls lead to, the two maps of the import graph are converse to
    each other and have no empty sets, and only documents of the store import anything.
    Taking a document out fails exactly if there is no such document, and then changes
    nothing; otherwise it takes away the document and the links it has a part in. -/
theorem reachable_import_graph {s : Store} (reached : s.Reachable) :
    (∀ u v, v ∈ s.graph.imports.get u ↔ u ∈ s.graph.importedBy.get v) ∧
    (∀ entry ∈ s.graph.imports, entry.2 ≠ []) ∧
    (∀ entry ∈ s.graph.importedBy, entry.2 ≠ []) ∧
    (∀ entry ∈ s.graph.imports, (s.document? entry.1).isSome) ∧
    ∀ uri,
      (s.document? uri = none → (delete uri).run.run s = (.error .unknownDocument, s)) ∧
      ((s.document? uri).isSome → ∃ s', (delete uri).run.run s = (.ok (), s') ∧
        s' = s.without uri s'.graph ∧
        (∀ u, s'.document? u = if u = uri then none else s.document? u) ∧
        (∀ u v, v ∈ s'.graph.imports.get u ↔
          v ∈ s.graph.imports.get u ∧ u ≠ uri ∧ v ≠ uri) ∧
        (∀ u v, u ∈ s'.graph.importedBy.get v ↔
          u ∈ s.graph.importedBy.get v ∧ u ≠ uri ∧ v ≠ uri)) := by
  have linked := reached.linked
  refine ⟨linked.graph.converse, linked.graph.imports.inhabited,
    linked.graph.importedBy.inhabited, fun entry member => ?_, fun uri => ⟨run_delete_unknown, ?_⟩⟩
  · have some := linked.graph.imports.inhabited_get (UriTable.known_of_mem member)
    exact linked.importers entry.1 some
  · intro known
    obtain ⟨graph, -, unlinked, done⟩ := linked.run_delete known
    exact ⟨s.without uri graph, done, rfl, document?_without s uri graph,
      fun _ _ => unlinked.mem_imports, fun _ _ => unlinked.mem_importedBy⟩

/-- A document that only imports a file. -/
def importing (file : String) : FileContent :=
  let range := Range.ofNats 0 0 0 10
  let part := fun (type text : String) => { type := type, range := range, text := some text }
  let path := { type := "string", range := range, children :=
    [part "string_start" "'", part "string_content" file, part "string_end" "'"] }
  .source { type := "document", range := range, children :=
    [{ type := "import", range := range, children := [path] }] }

/-- Two documents: one imports the other, which imports itself. -/
def pairOfFiles : FileTree :=
  { files := [([.ofString "a"], importing "b"), ([.ofString "b"], importing "b")] }

def pairOfPaths : List FilePath :=
  [.ofString "/a", .ofString "/b"]

/-- The store of the two documents. -/
def pairStore : Store :=
  Call.after pairOfFiles { config := {}, workspaceUri := "file:///" } (.loadPaths pairOfPaths)

theorem pairStore_contents :
    (fun s : Store => (s.documents.map Prod.fst, s.graph.imports)) pairStore =
      (["file:///a", "file:///b"],
        [("file:///a", ["file:///b"]), ("file:///b", ["file:///b"])]) := by
  decide +kernel

theorem pairStore_known (uri : Uri) (listed : uri ∈ ["file:///a", "file:///b"]) :
    (pairStore.document? uri).isSome := by
  rw [← (Prod.mk.inj pairStore_contents).1] at listed
  obtain ⟨entry, member, rfl⟩ := List.mem_map.mp listed
  exact UriTable.known_of_mem member

theorem pairStore_import_graph :
    pairStore.Reachable ∧ (pairStore.document? "file:///b").isSome ∧
    (∃ s', (delete "file:///b").run.run pairStore = (.ok (), s') ∧
      ∀ u v, v ∉ s'.graph.imports.get u) := by
  have reached : pairStore.Reachable := .call (.fresh {} "file:///" .increasing) pairOfFiles _
  have known := pairStore_known "file:///b" (by simp)
  obtain ⟨-, -, -, -, deleting⟩ := reachable_import_graph reached
  obtain ⟨s', done, -, -, links, -⟩ := (deleting "file:///b").2 known
  refine ⟨reached, known, s', done, fun u v member => ?_⟩
  obtain ⟨old, importer, importee⟩ := (links u v).mp member
  simp only [LinkMap.get, (Prod.mk.inj pairStore_contents).2, List.lookup_cons,
    List.lookup_nil] at old
  grind

end Store

end JsonnetNav
