import JsonnetNav.Proofs.Rereading
import Mathlib

/-! # Loading a workspace

A load takes in the listed paths in turn and links the documents only after that, when all
library folders are known. So the order of the paths matters for the library folders alone,
and a file that cannot be read is just not there. The links are made document by document.
This ends at the first import that cannot be looked up, and the documents behind it stay
without links.
-/

namespace JsonnetNav

namespace FileTree

/-- One of the paths is that of a file with this uri. -/
def Lists (t : FileTree) (paths : List FilePath) (uri : Uri) : Prop :=
  ∃ p ∈ paths, ¬ t.isFolder p ∧ t.isFile p ∧ p.toUri = .ok uri

/-- Every file among the paths has a uri. -/
def Named (t : FileTree) (paths : List FilePath) : Prop :=
  ∀ p ∈ paths, ¬ t.isFolder p → t.isFile p → ∃ uri, p.toUri = .ok uri

theorem lists_append {t : FileTree} {paths paths' : List FilePath} {uri : Uri} :
    t.Lists (paths ++ paths') uri ↔ t.Lists paths uri ∨ t.Lists paths' uri := by
  simp [Lists, or_and_right, exists_or]

end FileTree

/-- The library folders among the paths. -/
def Config.libraries (c : Config) (t : FileTree) (paths : List FilePath) : List FilePath :=
  paths.filter fun p => t.isFolder p && c.isLibrary p

namespace Store

variable {t : FileTree} {s s' s'' : Store} {paths paths' : List FilePath}

/-! ## Taking in paths -/

/-- The store has got the library folders and the documents of some paths. -/
structure TookIn (t : FileTree) (paths : List FilePath) (s s' : Store) : Prop where
  rest : s' = { s with documents := s'.documents, libraryPaths := s'.libraryPaths }
  libraryPaths : s'.libraryPaths = s.libraryPaths ++ s.config.libraries t paths
  known : ∀ uri, (s'.document? uri).isSome ↔
    (s.document? uri).isSome ∨ t.Lists paths uri ∧ ∃ d, load t uri = .ok d

theorem TookIn.nil (t : FileTree) (s : Store) : TookIn t [] s s :=
  ⟨rfl, by simp [Config.libraries], fun uri => by simp [FileTree.Lists]⟩

theorem TookIn.trans (first : TookIn t paths s s') (second : TookIn t paths' s' s'') :
    TookIn t (paths ++ paths') s s'' := by
  have config : s'.config = s.config := by rw [first.rest]
  refine ⟨by rw [second.rest, first.rest], ?_, fun uri => ?_⟩
  · rw [second.libraryPaths, first.libraryPaths, config, Config.libraries, Config.libraries,
      Config.libraries, List.filter_append, List.append_assoc]
  · rw [second.known, first.known, FileTree.lists_append, or_and_right, or_assoc]

theorem tookIn_of_takeIn {p : FilePath} (done : (takeIn t p).run.run s = (.ok (), s')) :
    TookIn t [p] s s' ∧ t.Named [p] := by
  have outcome := takeIn_outcome t p s
  rw [done] at outcome
  cases outcome with
  | library folder library =>
      refine ⟨⟨rfl, by simp [Config.libraries, folder, library], fun uri => ?_⟩, ?_⟩
      · change (s.document? uri).isSome ↔ _
        simp [FileTree.Lists, folder]
      · simp [FileTree.Named, folder]
  | folder folder other =>
      exact ⟨⟨rfl, by simp [Config.libraries, other], by simp [FileTree.Lists, folder]⟩,
        by simp [FileTree.Named, folder]⟩
  | missing folder file =>
      exact ⟨⟨rfl, by simp [Config.libraries, folder], by simp [FileTree.Lists, file]⟩,
        by simp [FileTree.Named, file]⟩
  | unread folder file named unread =>
      refine ⟨⟨rfl, by simp [Config.libraries, folder], fun uri => ?_⟩,
        by simp [FileTree.Named, named]⟩
      rw [or_iff_left]
      rintro ⟨⟨_, member, -, -, here⟩, d, read⟩
      rw [List.mem_singleton.mp member, named] at here
      cases here
      cases unread.symm.trans read
  | @read uri d folder file named read =>
      refine ⟨⟨rfl, by simp [Config.libraries, folder, put], fun u => ?_⟩,
        by simp [FileTree.Named, named]⟩
      rw [document?_put, uri_of_load read]
      by_cases same : u = uri
      · subst same
        simp [FileTree.Lists, folder, file, named, read]
      · simp [FileTree.Lists, named, same, Ne.symm same]

theorem tookIn_of_forM (done : (paths.forM (takeIn t)).run.run s = (.ok (), s')) :
    TookIn t paths s s' ∧ t.Named paths := by
  rw [List.forM_eq_forM] at done
  induction paths generalizing s with
  | nil =>
      cases done
      exact ⟨.nil t _, by simp [FileTree.Named]⟩
  | cons p paths ih =>
      rw [List.forM_cons] at done
      obtain ⟨_, s₁, first, rest⟩ := StoreAction.run_bind_ok.mp done
      obtain ⟨took, named⟩ := tookIn_of_takeIn first
      obtain ⟨tookRest, namedRest⟩ := ih rest
      refine ⟨took.trans tookRest, ?_⟩
      exact List.forall_mem_cons.mpr ⟨named p (List.mem_singleton_self p), namedRest⟩

/-! ## Linking documents -/

/-- The first document with an import that cannot be looked up ends the linking. -/
theorem linking_stops {entries : List (Uri × Document)} {e : StoreError}
    (failed : (entries.forM fun entry => indexImports t entry.2).run.run s = (.error e, s')) :
    ∃ before entry after linked cause, entries = before ++ entry :: after ∧
      (∀ entry ∈ before, entry.2.Resolves (s.importTarget t)) ∧
      entry.2.StopsAfter (s.importTarget t) linked cause ∧ e = .query cause ∧
      s.Extended (fun u v => LinksFrom (s.importTarget t) before u v ∨
        LinksOf (s.importTarget t) entry.2.uri linked u v) s' := by
  rcases StoreAction.run_forM (fun entry : Uri × Document => indexImports t entry.2) entries s with
    ⟨s₁, done⟩ | ⟨before, entry, after, s₁, e₁, s₂, rfl, done, stuck, all⟩
  · cases done.symm.trans failed
  cases all.symm.trans failed
  -- The documents before are linked completely, the one that fails up to its failing import.
  obtain ⟨resolves, extended⟩ := linked_of_forM done
  rw [← extended.importTarget t] at resolves
  rcases entry.2.resolves_or_stopsAfter (s₁.importTarget t) with possible | ⟨linked, cause, stops⟩
  · obtain ⟨s₃, done₃, -⟩ := (adds_indexImports entry.2 s₁ rfl).1 possible
    cases done₃.symm.trans stuck
  · obtain ⟨s₃, failed₃, extended₃⟩ := run_indexImports_stops stops
    cases failed₃.symm.trans stuck
    rw [extended.importTarget t] at resolves stops extended₃
    exact ⟨before, entry, after, linked, cause, rfl, resolves, stops, rfl,
      extended.trans extended₃ fun _ _ => Iff.rfl⟩

/-! ## Loading -/

/-- The documents of the store are those of the listed files that can be loaded, and its
    library paths are the listed library folders. -/
structure Collected (s : Store) (t : FileTree) (config : Config) (workspaceUri : Uri)
    (paths : List FilePath) : Prop where
  settings : s.config = config ∧ s.workspaceUri = workspaceUri
  documents : ∀ uri d, s.document? uri = some d ↔ t.Lists paths uri ∧ load t uri = .ok d
  libraryPaths : s.libraryPaths = config.libraries t paths

variable {config : Config} {workspaceUri : Uri}

theorem collected_of_forM
    (done : (paths.forM (takeIn t)).run.run { config := config, workspaceUri := workspaceUri } =
      (.ok (), s)) :
    s.Collected t config workspaceUri paths ∧ s.ReadFrom t ∧ t.Named paths := by
  obtain ⟨took, named⟩ := tookIn_of_forM done
  have read : s.ReadFrom t := by
    have preserved := readFrom_takeIn t paths { config := config, workspaceUri := workspaceUri }
      ⟨fun _ member => by simp at member, rfl⟩
    rwa [done] at preserved
  refine ⟨⟨by rw [took.rest]; exact ⟨rfl, rfl⟩, fun uri d => ?_, ?_⟩, read, named⟩
  · have known := took.known uri
    constructor
    · intro found
      rw [found] at known
      rcases known.mp rfl with old | ⟨listed, -⟩
      · cases old
      · exact ⟨listed, read.load found⟩
    · rintro ⟨listed, done⟩
      obtain ⟨d', found⟩ := Option.isSome_iff_exists.mp (known.mpr (.inr ⟨listed, d, done⟩))
      cases (read.load found).symm.trans done
      exact found
  · simpa using took.libraryPaths

theorem Collected.extended {link : Uri → Uri → Prop}
    (collected : s.Collected t config workspaceUri paths) (extended : s.Extended link s') :
    s'.Collected t config workspaceUri paths := by
  rw [extended.rest]
  exact ⟨collected.settings, collected.documents, collected.libraryPaths⟩

/-- What loading some paths into a fresh store comes to. -/
inductive LoadOutcome (t : FileTree) (config : Config) (workspaceUri : Uri)
    (paths : List FilePath) : Except StoreError Unit × Store → Prop where
  | loaded {s : Store} (named : t.Named paths)
      (collected : s.Collected t config workspaceUri paths)
      (resolves : ∀ uri d, s.document? uri = some d → d.Resolves (s.importTarget t))
      (links : ∀ u v, v ∈ s.graph.imports.get u ↔
        ∃ d, s.document? u = some d ∧ d.Imports (s.importTarget t) v) :
      LoadOutcome t config workspaceUri paths (.ok (), s)
  | stopped {s : Store} {before after : List (Uri × Document)} {uri : Uri} {d : Document}
      {linked : List Site} {cause : QueryError} (named : t.Named paths)
      (collected : s.Collected t config workspaceUri paths)
      (split : s.documents = before ++ (uri, d) :: after) (found : s.document? uri = some d)
      (resolves : ∀ entry ∈ before, entry.2.Resolves (s.importTarget t))
      (stops : d.StopsAfter (s.importTarget t) linked cause)
      (links : ∀ u v, v ∈ s.graph.imports.get u ↔ LinksFrom (s.importTarget t) before u v ∨
        LinksOf (s.importTarget t) uri linked u v) :
      LoadOutcome t config workspaceUri paths (.error (.query cause), s)
  | unnamed {s : Store} {before after : List FilePath} {p : FilePath} {e : UriError}
      (split : paths = before ++ p :: after) (folder : ¬ t.isFolder p) (file : t.isFile p)
      (unnamed : p.toUri = .error e) (collected : s.Collected t config workspaceUri before)
      (links : ∀ u v, v ∉ s.graph.imports.get u) :
      LoadOutcome t config workspaceUri paths (.error (.uri e), s)

theorem load_outcome (t : FileTree) (config : Config) (workspaceUri : Uri)
    (paths : List FilePath) : LoadOutcome t config workspaceUri paths
      ((loadPaths t paths).run.run { config := config, workspaceUri := workspaceUri }) := by
  have none {s : Store} (read : s.ReadFrom t) (u v : Uri) : v ∉ s.graph.imports.get u := by
    simp [read.graph, LinkMap.get]
  rw [loadPaths, StoreAction.run_bind]
  rcases StoreAction.run_forM (takeIn t) paths { config := config, workspaceUri := workspaceUri }
    with ⟨s, taken⟩ | ⟨before, p, after, s, e, s', split, taken, failed, stopped⟩
  · obtain ⟨collected, read, named⟩ := collected_of_forM taken
    -- Linking starts when all library folders are known, and never changes the search.
    rw [taken]
    change LoadOutcome t config workspaceUri paths
      ((s.documents.forM fun entry => indexImports t entry.2).run.run s)
    cases linking : (s.documents.forM fun entry => indexImports t entry.2).run.run s with
    | mk result s' =>
        cases result with
        | ok _ =>
            obtain ⟨resolves, extended⟩ := linked_of_forM linking
            have documents : s'.document? = s.document? := by rw [extended.rest]; rfl
            refine .loaded named (collected.extended extended) (fun uri d found => ?_) fun u v => ?_
            · rw [documents] at found
              exact extended.importTarget t ▸ resolves _ (mem_documents found)
            · rw [extended.imports, or_iff_right (none read u v), read.linksFrom_iff, documents,
                extended.importTarget t]
        | error e =>
            obtain ⟨before, entry, after, linked, cause, split, resolves, stops, rfl, extended⟩ :=
              linking_stops linking
            have member : entry ∈ s.documents := by simp [split]
            have documents : s'.documents = s.documents := by rw [extended.rest]
            have found : s'.document? entry.1 = some entry.2 := by
              rw [extended.rest]
              exact read.found member
            rw [← extended.importTarget t] at resolves stops
            refine .stopped named (collected.extended extended) (documents.trans split) found
              resolves stops fun u v => ?_
            rw [extended.imports, or_iff_right (none read u v), extended.importTarget t,
              uri_of_load (read.documents entry member)]
  · obtain ⟨collected, read, -⟩ := collected_of_forM taken
    have outcome := takeIn_outcome t p s
    rw [failed] at outcome
    rw [stopped]
    cases outcome with
    | unnamed folder file unnamed =>
        exact .unnamed split folder file unnamed collected (none read)

theorem LoadOutcome.collected {out : Except StoreError Unit × Store}
    (outcome : LoadOutcome t config workspaceUri paths out) (named : t.Named paths) :
    out.2.Collected t config workspaceUri paths := by
  cases outcome with
  | loaded _ collected => exact collected
  | stopped _ collected => exact collected
  | unnamed split folder file unnamed =>
      obtain ⟨uri, ok⟩ := named _ (by simp [split]) folder file
      cases unnamed.symm.trans ok

theorem LoadOutcome.ok_iff {out : Except StoreError Unit × Store}
    (outcome : LoadOutcome t config workspaceUri paths out) :
    out.1 = .ok () ↔ t.Named paths ∧
      ∀ uri d, out.2.document? uri = some d → d.Resolves (out.2.importTarget t) := by
  cases outcome with
  | loaded named _ resolves => exact iff_of_true rfl ⟨named, resolves⟩
  | stopped _ _ _ found _ stops =>
      refine iff_of_false (by simp) fun right => ?_
      obtain ⟨importee, after, split, -, failed⟩ := stops
      obtain ⟨target, ok⟩ := right.2 _ _ found importee (by simp [split])
      cases failed.symm.trans ok
  | unnamed split folder file unnamed =>
      refine iff_of_false (by simp) fun right => ?_
      obtain ⟨uri, ok⟩ := right.1 _ (by simp [split]) folder file
      cases unnamed.symm.trans ok

theorem LoadOutcome.links {out : Except StoreError Unit × Store}
    (outcome : LoadOutcome t config workspaceUri paths out) (done : out.1 = .ok ()) (u v : Uri) :
    v ∈ out.2.graph.imports.get u ↔
      ∃ d, out.2.document? u = some d ∧ d.Imports (out.2.importTarget t) v := by
  cases outcome with
  | loaded _ _ _ links => exact links u v
  | stopped => cases done
  | unnamed => cases done

theorem importTarget_congr (libraries : s.libraryPaths = s'.libraryPaths)
    (workspace : s.workspaceUri = s'.workspaceUri) : s.importTarget t = s'.importTarget t := by
  funext importee
  unfold importTarget resolveImport searchPath workspacePath
  rw [libraries, workspace]

/-- What is collected does not depend on the order of the files. -/
theorem Collected.reordered (collected : s.Collected t config workspaceUri paths)
    (collected' : s'.Collected t config workspaceUri paths')
    (same : ∀ p, p ∈ paths' ↔ p ∈ paths)
    (libraries : config.libraries t paths' = config.libraries t paths) :
    s'.libraryPaths = s.libraryPaths ∧ s'.document? = s.document? ∧
      s'.importTarget t = s.importTarget t := by
  have folders : s'.libraryPaths = s.libraryPaths := by
    rw [collected'.libraryPaths, collected.libraryPaths, libraries]
  refine ⟨folders, ?_, importTarget_congr folders ?_⟩
  · funext uri
    refine Option.ext fun d => ?_
    rw [collected'.documents, collected.documents]
    simp only [FileTree.Lists, same]
  · rw [collected'.settings.2, collected.settings.2]

/-- Paths in another order load the same documents with the same success and the same links. -/
theorem LoadOutcome.reordered {out out' : Except StoreError Unit × Store}
    (outcome : LoadOutcome t config workspaceUri paths out)
    (outcome' : LoadOutcome t config workspaceUri paths' out')
    (same : ∀ p, p ∈ paths' ↔ p ∈ paths)
    (libraries : config.libraries t paths' = config.libraries t paths) :
    (out'.1 = .ok () ↔ out.1 = .ok ()) ∧
    (t.Named paths → out'.2.libraryPaths = out.2.libraryPaths ∧
      ∀ uri, out'.2.document? uri = out.2.document? uri) ∧
    (out.1 = .ok () → ∀ u v,
      v ∈ out'.2.graph.imports.get u ↔ v ∈ out.2.graph.imports.get u) := by
  have named_iff : t.Named paths' ↔ t.Named paths := by simp only [FileTree.Named, same]
  have contents (named : t.Named paths) :=
    (outcome.collected named).reordered (outcome'.collected (named_iff.mpr named)) same libraries
  have ok_iff : out'.1 = .ok () ↔ out.1 = .ok () := by
    rw [outcome'.ok_iff, outcome.ok_iff, named_iff, and_congr_right_iff]
    intro named
    obtain ⟨-, documents, search⟩ := contents named
    rw [documents, search]
  refine ⟨ok_iff, fun named => ?_, fun done u v => ?_⟩
  · obtain ⟨folders, documents, -⟩ := contents named
    exact ⟨folders, fun uri => by rw [documents]⟩
  · obtain ⟨-, documents, search⟩ := contents (outcome.ok_iff.mp done).1
    rw [outcome'.links (ok_iff.mpr done), outcome.links done, documents, search]

/-- Every load of a fresh store: it succeeds exactly if every listed file has a uri and the
    loaded documents have no import that cannot be looked up. If the listed files have uris, the
    documents are exactly those of the listed files that can be loaded, and the library paths
    are the listed library folders in their order. If the load succeeds, the links are exactly
    those of the imports. Otherwise they are the links of the documents before the one with the
    failing import, and those of the imports before this one; a file without a uri leaves no
    links at all. Paths in another order load the same documents, and succeed or fail alike. If
    they succeed, they lead to the same import graph. -/
theorem load_builds_import_graph (t : FileTree) (config : Config) (workspaceUri : Uri)
    (paths : List FilePath) :
    let run := fun paths =>
      (loadPaths t paths).run.run { config := config, workspaceUri := workspaceUri }
    let s := (run paths).2
    s.graph.Consistent ∧
    ((run paths).1 = .ok () ↔ t.Named paths ∧
      ∀ uri d, s.document? uri = some d → d.Resolves (s.importTarget t)) ∧
    (t.Named paths → s.Collected t config workspaceUri paths) ∧
    ((run paths).1 = .ok () → ∀ u v, v ∈ s.graph.imports.get u ↔
      ∃ d, s.document? u = some d ∧ d.Imports (s.importTarget t) v) ∧
    (∀ e, (run paths).1 = .error e →
      (∃ before uri d after linked cause, s.documents = before ++ (uri, d) :: after ∧
        (∀ entry ∈ before, entry.2.Resolves (s.importTarget t)) ∧
        d.StopsAfter (s.importTarget t) linked cause ∧ e = .query cause ∧
        ∀ u v, v ∈ s.graph.imports.get u ↔ LinksFrom (s.importTarget t) before u v ∨
          LinksOf (s.importTarget t) uri linked u v) ∨
      (∃ before p after cause, paths = before ++ p :: after ∧
        (¬ t.isFolder p ∧ t.isFile p ∧ p.toUri = .error cause) ∧ e = .uri cause ∧
        s.Collected t config workspaceUri before ∧ ∀ u v, v ∉ s.graph.imports.get u)) ∧
    ∀ paths', (∀ p, p ∈ paths' ↔ p ∈ paths) →
      config.libraries t paths' = config.libraries t paths →
      let s' := (run paths').2
      ((run paths').1 = .ok () ↔ (run paths).1 = .ok ()) ∧
      (t.Named paths → s'.libraryPaths = s.libraryPaths ∧
        ∀ uri, s'.document? uri = s.document? uri) ∧
      ((run paths).1 = .ok () → s'.graph.imports.Agrees s.graph.imports ∧
        s'.graph.importedBy.Agrees s.graph.importedBy) := by
  intro run s
  have outcome (paths : List FilePath) : LoadOutcome t config workspaceUri paths (run paths) :=
    load_outcome t config workspaceUri paths
  have consistent (paths : List FilePath) : (run paths).2.graph.Consistent :=
    (preserves_loadPaths t paths _ (Linked.fresh config workspaceUri .increasing)).graph
  refine ⟨consistent paths, (outcome paths).ok_iff, (outcome paths).collected,
    (outcome paths).links, fun e failed => ?_, fun paths' same libraries => ?_⟩
  · have outcome := outcome paths
    change LoadOutcome _ _ _ _ ((run paths).1, s) at outcome
    rw [failed] at outcome
    generalize s = s at outcome ⊢
    cases outcome with
    | stopped _ _ split _ resolves stops links =>
        exact .inl ⟨_, _, _, _, _, _, split, resolves, stops, rfl, links⟩
    | unnamed split folder file unnamed collected links =>
        exact .inr ⟨_, _, _, _, split, ⟨folder, file, unnamed⟩, rfl, collected, links⟩
  · obtain ⟨ok_iff, contents, links⟩ := (outcome paths).reordered (outcome paths') same libraries
    exact ⟨ok_iff, contents, fun done =>
      ((consistent paths').agrees_iff (consistent paths)).mpr (links done)⟩

/-- The store of two documents that are loaded in some order. -/
def loadedPair (t : FileTree) (paths : List FilePath) : Except StoreError Unit × Store :=
  (loadPaths t paths).run.run { config := {}, workspaceUri := "file:///" }

/-- The two documents load in both orders, with the same import graph. -/
theorem pair_loads_in_any_order :
    let out := loadedPair pairOfFiles pairOfPaths
    let out' := loadedPair pairOfFiles pairOfPaths.reverse
    out.1 = .ok () ∧ out'.1 = .ok () ∧
    out'.2.graph.imports.Agrees out.2.graph.imports ∧
    out'.2.graph.importedBy.Agrees out.2.graph.importedBy := by
  have done : (loadedPair pairOfFiles pairOfPaths).1 = .ok () := pairOfPaths_succeeds
  obtain ⟨-, -, -, -, -, reordered⟩ :=
    load_builds_import_graph pairOfFiles {} "file:///" pairOfPaths
  obtain ⟨ok_iff, -, agrees⟩ := reordered pairOfPaths.reverse (by simp) (by decide +kernel)
  exact ⟨done, ok_iff.mpr done, agrees done⟩

/-- The first document imports a path that has no uri, the second one imports itself. -/
def unnamedImport : FileTree :=
  { files := [([.ofString "a"], importing "/\\ud800"), ([.ofString "b"], importing "b")] }

/-- The second document stays without its link if the first one is loaded before it, and gets
    it if the first one is loaded after it. -/
theorem unnamed_import_loses_links :
    let s := (loadedPair unnamedImport pairOfPaths).2
    let s' := (loadedPair unnamedImport pairOfPaths.reverse).2
    (s.document? "file:///b").map (fun d => d.importees.map (s.importTarget unnamedImport)) =
      some [.ok (some "file:///b")] ∧
    s.graph.imports = [] ∧ s'.graph.imports = [("file:///b", ["file:///b"])] := by
  refine ⟨?_, ?_, ?_⟩
  · cbv
  · decide +kernel
  · decide +kernel

end Store

end JsonnetNav
