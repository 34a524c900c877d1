import JsonnetNav.Proofs.Documents
import JsonnetNav.Proofs.Importers
import JsonnetNav.Proofs.StoreRuns
import Mathlib

/-! # Updating a document of a loaded workspace

A load links every document to the documents its imports stand for. An update takes a
document out with all its links, and then links it again to what it imports. While the
files stay as they are this brings back the links that lead out of the document. The links
that lead from other documents into it are gone, so an update changes the import graph as
soon as another document imports the updated one.
-/

namespace JsonnetNav

namespace LinkMap

/-- The maps have sets for the same uris, with the same members. -/
def Agrees (m m' : LinkMap) : Prop :=
  ∀ key, ((m.lookup key).isSome ↔ (m'.lookup key).isSome) ∧
    ∀ value, value ∈ m.get key ↔ value ∈ m'.get key

theorem WellFormed.known_iff {m : LinkMap} (wf : m.WellFormed) (key : Uri) :
    (m.lookup key).isSome ↔ ∃ value, value ∈ m.get key := by
  constructor
  · exact fun known => List.exists_mem_of_ne_nil _ (wf.inhabited_get known)
  · rintro ⟨value, member⟩
    exact known_of_mem_get member

theorem WellFormed.agrees_iff {m m' : LinkMap} (wf : m.WellFormed) (wf' : m'.WellFormed) :
    m.Agrees m' ↔ ∀ key value, value ∈ m.get key ↔ value ∈ m'.get key := by
  constructor
  · exact fun agrees key => (agrees key).2
  · intro same key
    refine ⟨?_, same key⟩
    rw [wf.known_iff, wf'.known_iff]
    exact exists_congr (same key)

end LinkMap

/-- The links in one direction determine both maps. -/
theorem ImportGraph.Consistent.agrees_iff {g g' : ImportGraph} (consistent : g.Consistent)
    (consistent' : g'.Consistent) :
    g.imports.Agrees g'.imports ∧ g.importedBy.Agrees g'.importedBy ↔
      ∀ u v, v ∈ g.imports.get u ↔ v ∈ g'.imports.get u := by
  rw [consistent.imports.agrees_iff consistent'.imports,
    consistent.importedBy.agrees_iff consistent'.importedBy]
  refine ⟨And.left, fun links => ⟨links, fun v u => ?_⟩⟩
  rw [← consistent.converse, ← consistent'.converse, links]

/-- How the imports of documents are looked up. -/
abbrev ImportSearch := Site → Except QueryError (Option Uri)

namespace Document

/-- One of the imports of the document stands for the uri. -/
def Imports (d : Document) (search : ImportSearch) (uri : Uri) : Prop :=
  ∃ importee ∈ d.importees, search importee = .ok (some uri)

/-- Looking up the imports of the document does not fail. -/
def Resolves (d : Document) (search : ImportSearch) : Prop :=
  ∀ importee ∈ d.importees, ∃ target, search importee = .ok target

end Document

namespace Store

/-- Links were added to the store, and nothing else was changed. -/
structure Extended (s : Store) (link : Uri → Uri → Prop) (s' : Store) : Prop where
  rest : s' = { s with graph := s'.graph }
  consistent : s.graph.Consistent → s'.graph.Consistent
  imports : ∀ u v, v ∈ s'.graph.imports.get u ↔ v ∈ s.graph.imports.get u ∨ link u v

theorem Extended.refl {s : Store} {link : Uri → Uri → Prop} (none : ∀ u v, ¬ link u v) :
    s.Extended link s :=
  ⟨rfl, id, fun u v => by simp [none u v]⟩

theorem Extended.trans {s s' s'' : Store} {link link' both : Uri → Uri → Prop}
    (first : s.Extended link s') (second : s'.Extended link' s'')
    (either : ∀ u v, both u v ↔ link u v ∨ link' u v) : s.Extended both s'' := by
  refine ⟨?_, second.consistent ∘ first.consistent, fun u v => ?_⟩
  · rw [second.rest, first.rest]
  · rw [second.imports, first.imports, either, or_assoc]

theorem Extended.importTarget {s s' : Store} {link : Uri → Uri → Prop}
    (extended : s.Extended link s') (t : FileTree) : s'.importTarget t = s.importTarget t := by
  rw [extended.rest]
  rfl

/-- In every store that looks imports up in this way, the action adds the links if the
    condition holds, and fails otherwise. -/
def Adds (t : FileTree) (search : ImportSearch) (action : StoreAction Unit) (possible : Prop)
    (link : Uri → Uri → Prop) : Prop :=
  ∀ s : Store, s.importTarget t = search →
    (possible → ∃ s', action.run.run s = (.ok (), s') ∧ s.Extended link s') ∧
    (¬ possible → ∃ e s', action.run.run s = (.error e, s'))

variable {t : FileTree} {search : ImportSearch}

theorem adds_linkImport (d : Document) (importee : Site) :
    Adds t search (linkImport t d importee) (∃ target, search importee = .ok target)
      (fun u v => u = d.uri ∧ search importee = .ok (some v)) := by
  rintro s rfl
  simp only [linkImport, StoreAction.run_bind, StoreAction.run_get]
  cases found : s.importTarget t importee with
  | error e =>
      refine ⟨?_, fun _ => ⟨_, s, rfl⟩⟩
      rintro ⟨target, ok⟩
      cases ok
  | ok target =>
      refine ⟨fun _ => ?_, fun impossible => absurd ⟨target, rfl⟩ impossible⟩
      cases target with
      | none => exact ⟨s, rfl, .refl (by simp)⟩
      | some uri =>
          refine ⟨_, rfl, rfl, fun consistent => consistent.link _ _, fun u v => ?_⟩
          simp only [ImportGraph.link, LinkMap.mem_get_insert, Except.ok.injEq, Option.some.injEq,
            @eq_comm _ uri v]

/-- Actions in turn add their links together, if all of them can. -/
theorem Adds.forM {α : Type} {f : α → StoreAction Unit} {possible : α → Prop}
    {link : α → Uri → Uri → Prop} {xs : List α}
    (each : ∀ x ∈ xs, Adds t search (f x) (possible x) (link x)) :
    Adds t search (xs.forM f) (∀ x ∈ xs, possible x) (fun u v => ∃ x ∈ xs, link x u v) := by
  induction xs with
  | nil =>
      intro s _
      exact ⟨fun _ => ⟨s, rfl, .refl (by simp)⟩, fun impossible => absurd (by simp) impossible⟩
  | cons x xs ih =>
      intro s same
      have rest := ih fun y member => each y (List.mem_cons_of_mem x member)
      obtain ⟨succeeds, fails⟩ := each x (List.mem_cons_self ..) s same
      simp only [List.forM_eq_forM, List.forM_cons, StoreAction.run_bind, List.forall_mem_cons]
        at rest ⊢
      by_cases first : possible x
      · obtain ⟨s', done, extended⟩ := succeeds first
        obtain ⟨succeeds', fails'⟩ := rest s' ((extended.importTarget t).trans same)
        rw [done]
        refine ⟨fun all => ?_, fun not_all => fails' fun all => not_all ⟨first, all⟩⟩
        obtain ⟨s'', done', extended'⟩ := succeeds' all.2
        exact ⟨s'', done', extended.trans extended' fun u v => by simp⟩
      · obtain ⟨e, s', failed⟩ := fails first
        rw [failed]
        exact ⟨fun all => absurd all.1 first, fun _ => ⟨e, s', rfl⟩⟩

theorem adds_indexImports (d : Document) :
    Adds t search (indexImports t d) (d.Resolves search)
      (fun u v => u = d.uri ∧ d.Imports search v) := by
  intro s same
  obtain ⟨succeeds, fails⟩ := Adds.forM (fun importee _ => adds_linkImport d importee) s same
  refine ⟨fun resolves => ?_, fails⟩
  obtain ⟨s', done, extended⟩ := succeeds resolves
  refine ⟨s', done, extended.rest, extended.consistent, fun u v => ?_⟩
  rw [extended.imports, Document.Imports]
  constructor
  · rintro (old | ⟨importee, member, rfl, found⟩)
    · exact .inl old
    · exact .inr ⟨rfl, importee, member, found⟩
  · rintro (old | ⟨rfl, importee, member, found⟩)
    · exact .inl old
    · exact .inr ⟨importee, member, rfl, found⟩

/-! ## Loaded stores -/

/-- The stores that one load of a fresh store ends in. -/
inductive Loaded (t : FileTree) : Store → Prop where
  | workspace {config : Config} {workspaceUri : Uri} {order : ImporterOrder}
      {found : List FilePath} {s : Store}
      (done : (loadWorkspace t).run.run
        { config := config, workspaceUri := workspaceUri, order := order } = (.ok found, s)) :
      Loaded t s
  | paths {config : Config} {workspaceUri : Uri} {order : ImporterOrder} {paths : List FilePath}
      {s : Store}
      (done : (loadPaths t paths).run.run
        { config := config, workspaceUri := workspaceUri, order := order } = (.ok (), s)) :
      Loaded t s

/-- A workspace is loaded by loading the paths that a scan finds. -/
theorem Loaded.from_paths {s : Store} (loaded : Loaded t s) :
    ∃ config workspaceUri order paths,
      (loadPaths t paths).run.run
        { config := config, workspaceUri := workspaceUri, order := order } = (.ok (), s) := by
  cases loaded with
  | paths done => exact ⟨_, _, _, _, done⟩
  | @workspace config workspaceUri order found s done =>
      obtain ⟨_, _, read, rest⟩ := StoreAction.run_bind_ok.mp done
      cases read
      obtain ⟨paths, _, scanned, rest⟩ := StoreAction.run_bind_ok.mp rest
      obtain ⟨-, rfl⟩ := Prod.mk.inj scanned
      obtain ⟨_, _, loaded, finish⟩ := StoreAction.run_bind_ok.mp rest
      cases finish
      exact ⟨config, workspaceUri, order, found, loaded⟩

theorem built_of_load {uri : Uri} {d : Document} (done : load t uri = .ok d) :
    ∃ d₀ : Document, d₀.Built uri ∧ d = d₀.resolve := by
  obtain ⟨path, -, done⟩ := Except.bind_eq_ok.mp done
  obtain ⟨content, -, done⟩ := Except.bind_eq_ok.mp done
  split at done
  · obtain ⟨d₀, parsed, done⟩ := Except.bind_eq_ok.mp done
    cases done
    exact ⟨d₀, Document.built (Except.mapError_eq_ok.mp parsed), rfl⟩
  · cases done

theorem uri_of_load {uri : Uri} {d : Document} (done : load t uri = .ok d) : d.uri = uri := by
  obtain ⟨d₀, built, rfl⟩ := built_of_load done
  exact built.uri

/-- The documents are what their files hold, and there are no links yet. -/
structure ReadFrom (s : Store) (t : FileTree) : Prop where
  documents : ∀ entry ∈ s.documents, load t entry.1 = .ok entry.2
  graph : s.graph = {}

theorem ReadFrom.put {s : Store} (read : s.ReadFrom t) {uri : Uri} {d : Document}
    (done : load t uri = .ok d) : (s.put d).ReadFrom t := by
  have same := uri_of_load done
  refine ⟨fun entry member => ?_, read.graph⟩
  unfold Store.put at member
  split at member
  · obtain ⟨⟨key, old⟩, present, rfl⟩ := List.mem_map.mp member
    by_cases here : key = d.uri
    · simpa [here, same] using done
    · simpa [here] using read.documents _ present
  · rcases List.mem_append.mp member with present | new
    · exact read.documents entry present
    · simpa [List.mem_singleton.mp new, same] using done

theorem readFrom_takeIn (t : FileTree) (paths : List FilePath) :
    StoreAction.Preserves (ReadFrom · t) (paths.forM (takeIn t)) :=
  StoreAction.Preserves.forM fun p _ => preserves_takeIn
    (fun _ _ read => ⟨read.documents, read.graph⟩) (fun _ _ _ done read => read.put done) p

theorem mem_documents {s : Store} {uri : Uri} {d : Document}
    (found : s.document? uri = some d) : (uri, d) ∈ s.documents := by
  obtain ⟨before, after, split, -⟩ := List.lookup_eq_some_iff.mp found
  simp [split]

theorem ReadFrom.load {s : Store} (read : s.ReadFrom t) {uri : Uri} {d : Document}
    (found : s.document? uri = some d) : Store.load t uri = .ok d :=
  read.documents (uri, d) (mem_documents found)

/-- A link from one of the documents to what one of its imports stands for. -/
def LinksFrom (search : ImportSearch) (entries : List (Uri × Document)) (u v : Uri) : Prop :=
  ∃ entry ∈ entries, u = entry.2.uri ∧ entry.2.Imports search v

theorem linked_of_forM {s s' : Store} {entries : List (Uri × Document)}
    (done : (entries.forM fun entry => indexImports t entry.2).run.run s = (.ok (), s')) :
    (∀ entry ∈ entries, entry.2.Resolves (s.importTarget t)) ∧
      s.Extended (LinksFrom (s.importTarget t) entries) s' := by
  obtain ⟨succeeds, fails⟩ := Adds.forM
    (fun entry (_ : entry ∈ entries) => adds_indexImports entry.2) s rfl
  by_cases all : ∀ entry ∈ entries, entry.2.Resolves (s.importTarget t)
  · obtain ⟨s₁, done₁, extended⟩ := succeeds all
    cases done₁.symm.trans done
    exact ⟨all, extended⟩
  · obtain ⟨e, s₁, failed⟩ := fails all
    cases failed.symm.trans done

/-- A file holds one document, so a uri has one document only. -/
theorem ReadFrom.found {s : Store} (read : s.ReadFrom t) {entry : Uri × Document}
    (member : entry ∈ s.documents) : s.document? entry.1 = some entry.2 := by
  obtain ⟨d, found⟩ := Option.isSome_iff_exists.mp (UriTable.known_of_mem member)
  cases (read.load found).symm.trans (read.documents entry member)
  exact found

theorem ReadFrom.linksFrom_iff {s : Store} (read : s.ReadFrom t) (search : ImportSearch)
    (u v : Uri) : LinksFrom search s.documents u v ↔
      ∃ d, s.document? u = some d ∧ d.Imports search v := by
  constructor
  · rintro ⟨entry, member, rfl, imports⟩
    rw [uri_of_load (read.documents entry member)]
    exact ⟨entry.2, read.found member, imports⟩
  · rintro ⟨d, found, imports⟩
    exact ⟨_, mem_documents found, (uri_of_load (read.load found)).symm, imports⟩

/-- A loaded store: every document is what its file holds, its imports can be looked up,
    and its links are those of its imports. -/
structure Complete (s : Store) (t : FileTree) : Prop where
  linked : s.Linked
  documents : ∀ uri d, s.document? uri = some d → load t uri = .ok d ∧
    d.Resolves (s.importTarget t) ∧
    ∀ v, v ∈ s.graph.imports.get uri ↔ d.Imports (s.importTarget t) v

theorem Loaded.complete {s : Store} (loaded : Loaded t s) : s.Complete t := by
  obtain ⟨config, workspaceUri, order, paths, done⟩ := loaded.from_paths
  have linked : s.Linked := by
    have preserved := preserves_loadPaths t paths _ (Linked.fresh config workspaceUri order)
    rwa [done] at preserved
  have fresh : ReadFrom { config := config, workspaceUri := workspaceUri, order := order } t :=
    ⟨fun _ member => by simp at member, rfl⟩
  obtain ⟨_, s₁, taken, done⟩ := StoreAction.run_bind_ok.mp done
  have read : s₁.ReadFrom t := by
    have preserved := readFrom_takeIn t paths _ fresh
    rwa [taken] at preserved
  obtain ⟨_, _, got, done⟩ := StoreAction.run_bind_ok.mp done
  cases got
  obtain ⟨resolves, extended⟩ := linked_of_forM done
  refine ⟨linked, fun uri d found => ?_⟩
  have found₁ : s₁.document? uri = some d := by
    rw [extended.rest] at found
    exact found
  rw [extended.importTarget t]
  refine ⟨read.load found₁, resolves _ (mem_documents found₁), fun v => ?_⟩
  rw [extended.imports, read.graph, read.linksFrom_iff, found₁]
  simp [LinkMap.get]

/-! ## Updating -/

/-- Loading a document again links it to what it imports. -/
theorem run_add {s : Store} {uri : Uri} {d : Document} (read : load t uri = .ok d)
    (resolves : d.Resolves (s.importTarget t)) :
    ∃ s', (add t uri).run.run s = (.ok (), s') ∧
      (s.put d).Extended (fun u v => u = uri ∧ d.Imports (s.importTarget t) v) s' := by
  obtain ⟨s', done, extended⟩ := (adds_indexImports d (s.put d) rfl).1 resolves
  rw [uri_of_load read] at extended
  refine ⟨s', ?_, extended⟩
  rw [add, StoreAction.run_bind, read]
  exact done

theorem Complete.run_update {s : Store} (complete : s.Complete t) {uri : Uri}
    (known : (s.document? uri).isSome) :
    ∃ s', (update t uri).run.run s = (.ok (), s') ∧ s'.Linked ∧
      (∀ u, (s'.document? u).isSome ↔ (s.document? u).isSome) ∧
      ∀ u v, v ∈ s'.graph.imports.get u ↔ v ∈ s.graph.imports.get u ∧ (v = uri → u = uri) := by
  obtain ⟨d, found⟩ := Option.isSome_iff_exists.mp known
  obtain ⟨read, resolves, links⟩ := complete.documents uri d found
  obtain ⟨graph, consistent, unlinked, deleted⟩ := complete.linked.run_delete known
  obtain ⟨s', added, extended⟩ := run_add (s := s.without uri graph) read resolves
  have done : (update t uri).run.run s = (.ok (), s') := by
    rw [update, StoreAction.run_bind, deleted]
    exact added
  have linked : s'.Linked := by
    have preserved := preserves_update t uri s complete.linked
    rwa [done] at preserved
  refine ⟨s', done, linked, fun u => ?_, fun u v => ?_⟩
  · rw [extended.rest]
    change (((s.without uri graph).put d).document? u).isSome ↔ _
    rw [document?_put, document?_without, uri_of_load read]
    by_cases same : u = uri
    · simp [same, known]
    · simp [same]
  · rw [extended.imports]
    change v ∈ graph.imports.get u ∨ (u = uri ∧ d.Imports (s.importTarget t) v) ↔ _
    rw [unlinked.mem_imports, ← links]
    by_cases same : u = uri
    · simp [same]
    · simp [same]

/-- While the files stay as they are, updating a document of a loaded workspace succeeds,
    and takes away exactly the links that lead from other documents into it. So the import
    graph stays the same if and only if no other document imports the updated one, and
    then so do the importers of every document. -/
theorem update_of_loaded {s : Store} (loaded : Loaded t s) {uri : Uri}
    (known : (s.document? uri).isSome) :
    ∃ s', (update t uri).run.run s = (.ok (), s') ∧
      (∀ u, (s'.document? u).isSome ↔ (s.document? u).isSome) ∧
      (∀ u v, v ∈ s'.graph.imports.get u ↔
        v ∈ s.graph.imports.get u ∧ (v = uri → u = uri)) ∧
      (s'.graph.imports.Agrees s.graph.imports ∧ s'.graph.importedBy.Agrees s.graph.importedBy ↔
        ∀ u, uri ∈ s.graph.imports.get u → u = uri) ∧
      ((∀ u, uri ∈ s.graph.imports.get u → u = uri) →
        ∀ u, s'.graph.importers u = s.graph.importers u) := by
  have complete := loaded.complete
  obtain ⟨s', done, linked, documents, links⟩ := complete.run_update known
  have before := complete.linked.graph
  have after := linked.graph
  have back : ∀ u v, u ∈ s'.graph.importedBy.get v ↔
      u ∈ s.graph.importedBy.get v ∧ (v = uri → u = uri) := by
    intro u v
    rw [← after.converse, ← before.converse, links]
  refine ⟨s', done, documents, links, ?_, fun alone u => ?_⟩
  · rw [after.imports.agrees_iff before.imports, after.importedBy.agrees_iff before.importedBy]
    constructor
    · intro same u member
      exact ((links u uri).mp ((same.1 u uri).mpr member)).2 rfl
    · intro alone
      refine ⟨fun u v => ?_, fun v u => ?_⟩
      · rw [links, and_iff_left_iff_imp]
        rintro member rfl
        exact alone u member
      · rw [back, and_iff_left_iff_imp]
        rintro member rfl
        exact alone u ((before.converse u v).mpr member)
  · refine ImportGraph.importers_congr (fun v u => ?_) u
    rw [back, and_iff_left_iff_imp]
    rintro member rfl
    exact alone u ((before.converse u v).mpr member)

theorem pairOfPaths_succeeds : ((loadPaths pairOfFiles pairOfPaths).run.run
    { config := {}, workspaceUri := "file:///" }).1 = .ok () :=
  ok_of_isOk (by decide +kernel)

theorem pairStore_loaded : Loaded pairOfFiles pairStore :=
  .paths (Prod.ext pairOfPaths_succeeds rfl)

theorem mem_pairStore_imports {u v : Uri} :
    v ∈ pairStore.graph.imports.get u ↔ (u = "file:///a" ∨ u = "file:///b") ∧ v = "file:///b" := by
  rw [(Prod.mk.inj pairStore_contents).2]
  simp only [LinkMap.get, List.lookup_cons, List.lookup_nil]
  grind

/-- Nobody imports the first document of the pair, so its update changes nothing. -/
theorem pairStore_update_first :
    Loaded pairOfFiles pairStore ∧ (pairStore.document? "file:///a").isSome ∧
    ∃ s', (update pairOfFiles "file:///a").run.run pairStore = (.ok (), s') ∧
      s'.graph.imports.Agrees pairStore.graph.imports ∧
      s'.graph.importedBy.Agrees pairStore.graph.importedBy := by
  have known := pairStore_known "file:///a" (by simp)
  obtain ⟨s', done, -, -, same, -⟩ := update_of_loaded pairStore_loaded known
  refine ⟨pairStore_loaded, known, s', done, same.mpr fun u member => ?_⟩
  simp [mem_pairStore_imports] at member

/-- The first document of the pair imports the second. This is forgotten when the second
    is updated. -/
theorem pairStore_update_second :
    Loaded pairOfFiles pairStore ∧ (pairStore.document? "file:///b").isSome ∧
    ∃ s', (update pairOfFiles "file:///b").run.run pairStore = (.ok (), s') ∧
      "file:///b" ∈ pairStore.graph.imports.get "file:///a" ∧
      "file:///b" ∉ s'.graph.imports.get "file:///a" ∧
      ¬ s'.graph.imports.Agrees pairStore.graph.imports := by
  have known := pairStore_known "file:///b" (by simp)
  obtain ⟨s', done, -, -, links⟩ := pairStore_loaded.complete.run_update known
  have member : "file:///b" ∈ pairStore.graph.imports.get "file:///a" := by
    simp [mem_pairStore_imports]
  have gone : "file:///b" ∉ s'.graph.imports.get "file:///a" := by
    simp [links]
  exact ⟨pairStore_loaded, known, s', done, member, gone,
    fun agrees => gone (((agrees "file:///a").2 _).mpr member)⟩

end Store

end JsonnetNav
