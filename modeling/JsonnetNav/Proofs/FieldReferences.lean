import JsonnetNav.Answers.Definition
import JsonnetNav.Proofs.FoundInside
import JsonnetNav.Proofs.Importers
import JsonnetNav.Proofs.Reload
import Mathlib

/-! # Definitions of fields and references to them

The definitions of the name of a field are looked for wherever the search leads, through
the calls of a function even into documents that the own document knows nothing about. The
references to a field are looked for in its own document and in those that import it,
directly or through others. So from a reference one gets to its fields, but back only where
the document of the reference imports that of the field.
-/

namespace JsonnetNav

theorem Node.same_fieldName {id id' : Ident} :
    (Node.fieldName id).same (.fieldName id') = true ↔ id = id' := by
  obtain ⟨range, name⟩ := id
  obtain ⟨range', name'⟩ := id'
  rw [same]
  simp [kind, Node.range, parts, Leaf.same]
  exact fun _ => decide_eq_true_iff

theorem mem_flatten_of_mapM {α β ε : Type} {f : α → Except ε (List β)} {xs : List α}
    {ls : List (List β)} (done : xs.mapM f = .ok ls) {y : β} :
    y ∈ ls.flatten ↔ ∃ x ∈ xs, ∃ l, f x = .ok l ∧ y ∈ l := by
  induction xs generalizing ls with
  | nil =>
      cases done
      simp
  | cons x xs ih =>
      rw [List.mapM_cons] at done
      obtain ⟨l, first, done⟩ := Except.bind_eq_ok.mp done
      obtain ⟨rest, later, done⟩ := Except.bind_eq_ok.mp done
      cases done
      simp [ih later, first]

namespace Workspace

variable {w : Workspace}

/-- Keys of fields look the same if they are at the same place and have the same name. -/
theorem same_field {field other : Site} {id id' : Ident} (has : w.Has field) (has' : w.Has other)
    (node : field.node = .fieldName id) (node' : other.node = .fieldName id') :
    other.same field = true ↔ other.location = field.location ∧ id'.name = id.name := by
  obtain ⟨d, found, inside⟩ := has
  obtain ⟨d', found', inside'⟩ := has'
  have same_node : other.node.same field.node = true ↔ id' = id := by
    rw [node, node']
    exact Node.same_fieldName
  simp only [Site.same, Bool.and_eq_true, Bool.or_eq_true, decide_eq_true_eq, same_node]
  constructor
  · rintro ⟨uri, path | rfl⟩
    · -- one place of a document holds one node
      rw [uri, found] at found'
      cases found'
      cases Site.eq_of_path_eq inside' inside path
      rw [node] at node'
      cases node'
      exact ⟨rfl, rfl⟩
    · simp [Site.location, Site.range, uri, node, node']
  · intro ⟨location, name⟩
    simp only [Site.location, Site.range, node, node', Node.range, Location.mk.injEq] at location
    refine ⟨location.1, .inr ?_⟩
    obtain ⟨range, text⟩ := id
    obtain ⟨range', text'⟩ := id'
    exact Ident.mk.injEq .. ▸ ⟨location.2, name⟩

theorem mem_fieldReferences {depth : Nat} {field : Site} {name : Text} {refs : List Site}
    (done : w.fieldReferences depth field name = .ok refs) {ref : Site} :
    ref ∈ refs ↔
      (∃ uri ∈ w.importers field.uri ++ [field.uri], ∃ d, w.document? uri = some d ∧
        ref ∈ d.fieldRefs) ∧
      ref.hasName name ∧
      ∃ bindings, (w.fieldBindings depth ref).results = .ok bindings ∧
        ∃ b ∈ bindings, b.id.same field := by
  obtain ⟨found, each, done⟩ := Except.bind_eq_ok.mp done
  cases done
  rw [mem_flatten_of_mapM each]
  constructor
  · intro ⟨candidate, listed, l, looked, member⟩
    obtain ⟨bindings, answer, same⟩ := Except.bind_eq_ok.mp looked
    cases same
    obtain ⟨b, kept, rfl⟩ := List.mem_map.mp member
    obtain ⟨inDocuments, named⟩ := List.mem_filter.mp listed
    obtain ⟨d, known, inDocument⟩ := List.mem_flatMap.mp inDocuments
    obtain ⟨uri, isUri, document⟩ := List.mem_filterMap.mp known
    obtain ⟨inBindings, isSame⟩ := List.mem_filter.mp kept
    exact ⟨⟨uri, isUri, d, document, inDocument⟩, named, bindings, answer, b, inBindings, isSame⟩
  · intro ⟨⟨uri, isUri, d, document, inDocument⟩, named, bindings, answer, b, inBindings, isSame⟩
    have known := List.mem_filterMap.mpr ⟨uri, isUri, document⟩
    have inDocuments := List.mem_flatMap.mpr ⟨d, known, inDocument⟩
    refine ⟨ref, List.mem_filter.mpr ⟨inDocuments, named⟩, _,
      Except.bind_eq_ok.mpr ⟨bindings, answer, rfl⟩, ?_⟩
    exact List.mem_map.mpr ⟨b, List.mem_filter.mpr ⟨inBindings, isSame⟩, rfl⟩

/-- A reference is listed in the documents where references to the field are looked for. -/
theorem Resolved.mem_fieldRefs (resolved : w.Resolved) {ref : Site} {id : Ident} (has : w.Has ref)
    (node : ref.node = .fieldRef id) (uris : List Uri) :
    (∃ uri ∈ uris, ∃ d, w.document? uri = some d ∧ ref ∈ d.fieldRefs) ↔ ref.uri ∈ uris := by
  constructor
  · intro ⟨uri, member, d, found, listed⟩
    obtain ⟨d₀, built, rfl⟩ := resolved uri d found
    have inside := (built.mem_fieldRefs.mp listed).1
    rwa [(Site.above_of_mem_preorder inside).1.trans built.uri]
  · intro member
    obtain ⟨d, found, inside⟩ := has
    obtain ⟨d₀, built, rfl⟩ := resolved ref.uri d found
    exact ⟨ref.uri, member, _, found, built.mem_fieldRefs.mpr ⟨inside, id, node⟩⟩

theorem Resolved.definitions_of_fieldRef (resolved : w.Resolved) {depth : Nat} {ref : Site}
    {id : Ident} (has : w.Has ref) (node : ref.node = .fieldRef id) {locations : List Location}
    (done : (w.definitionsOf depth ref).results = .ok locations) :
    ∃ bindings, (w.fieldBindings depth ref).results = .ok bindings ∧
      locations = bindings.map (fun b => b.id.location) ∧
      ∀ b ∈ bindings, w.Binds b ∧ id.name = b.name := by
  have plan : w.definitionPlan ref = .ask (.fields ref) fun b => .found [b.id.location] := by
    rw [definitionPlan, node]
  unfold definitionsOf at done
  rw [plan] at done
  cases file : ref.demandFile with
  | error e =>
      rw [file] at done
      cases done
  | ok _ =>
      rw [file] at done
      obtain ⟨bindings, found, same, suit⟩ :=
        (resolved.search_only depth (.fields ref) has).results_image (fun b => b.id.location) done
      refine ⟨bindings, found, same, fun b member => ?_⟩
      obtain ⟨binds, named⟩ := suit b member
      exact ⟨binds, by simpa [Site.hasName, node] using named⟩

/-- The references to a field are those that it is a definition of, as far as they are in its
    document and in the importers of that. -/
theorem Resolved.mem_references_of_field (resolved : w.Resolved) {depth : Nat} {d : Document}
    {field ref : Site} {id name : Ident} (has : w.Has field) (isField : field.node = .fieldName id)
    (has' : w.Has ref) (isRef : ref.node = .fieldRef name) {refs : List Site}
    (references : w.referencesOf depth d field = .ok refs) {locations : List Location}
    (definitions : (w.definitionsOf depth ref).results = .ok locations) :
    ref ∈ refs ↔ field.location ∈ locations ∧ name.name = id.name ∧
      (ref.uri = field.uri ∨ ref.uri ∈ w.importers field.uri) := by
  obtain ⟨bindings, found, rfl, suit⟩ := resolved.definitions_of_fieldRef has' isRef definitions
  rw [referencesOf, isField] at references
  rw [mem_fieldReferences references, resolved.mem_fieldRefs has' isRef, found]
  constructor
  · intro listed
    obtain ⟨reached, named, _, same, b, member, isSame⟩ := listed
    cases same
    obtain ⟨binds, bound⟩ := suit b member
    obtain ⟨id', isKey, same⟩ := binds.name
    obtain ⟨location, -⟩ := (same_field has binds.id isField isKey).mp isSame
    refine ⟨List.mem_map.mpr ⟨b, member, location⟩, by simpa [Site.hasName, isRef] using named, ?_⟩
    simpa [or_comm] using reached
  · intro defined
    obtain ⟨located, named, reached⟩ := defined
    obtain ⟨b, member, location⟩ := List.mem_map.mp located
    obtain ⟨binds, bound⟩ := suit b member
    obtain ⟨id', isKey, same⟩ := binds.name
    have isSame := (same_field has binds.id isField isKey).mpr
      ⟨location, same.trans (bound.symm.trans named)⟩
    refine ⟨by simpa [or_comm] using reached, by simp [Site.hasName, isRef, named], ?_⟩
    exact ⟨bindings, rfl, b, member, isSame⟩

end Workspace

namespace Store

open Relation

/-- A document of the store imports another one itself. -/
def Imports (s : Store) (t : FileTree) (importer importee : Uri) : Prop :=
  ∃ d, s.document? importer = some d ∧ d.Imports (s.importTarget t) importee

theorem Complete.mem_importers {s : Store} {t : FileTree} (complete : s.Complete t) {u v : Uri} :
    u ∈ s.importers v ↔ TransGen (s.Imports t) u v := by
  have linked := complete.linked
  have direct : s.graph.importedBy.Leads = Function.swap (s.Imports t) := by
    funext importee importer
    apply propext
    rw [LinkMap.Leads, ← linked.graph.converse]
    constructor
    · intro link
      obtain ⟨d, found⟩ := Option.isSome_iff_exists.mp
        (linked.importers importer (List.ne_nil_of_mem link))
      exact ⟨d, found, ((complete.documents importer d found).2.2 importee).mp link⟩
    · intro link
      obtain ⟨d, found, imports⟩ := link
      exact ((complete.documents importer d found).2.2 importee).mpr imports
  rw [importers, ImportGraph.mem_importers, direct, transGen_swap]

theorem Complete.resolved {s : Store} {t : FileTree} (complete : s.Complete t) :
    (s.workspace t).Resolved :=
  fun uri d found => built_of_load (complete.documents uri d found).1

/-- In a loaded store, a reference is among the references to a field exactly if the field is
    among its definitions, by place and by name, and it is in the document of the field or in
    one that imports this document directly or through others. -/
theorem field_reference_iff_definition {s : Store} {t : FileTree} (loaded : Loaded t s)
    (depth : Nat) {d d' : Document} {field ref : Site} {id name : Ident}
    (known : s.document? field.uri = some d) (inside : field ∈ d.sites)
    (isField : field.node = .fieldName id)
    (known' : s.document? ref.uri = some d') (inside' : ref ∈ d'.sites)
    (isRef : ref.node = .fieldRef name) {refs : List Site}
    (references : (s.workspace t).referencesOf depth d field = .ok refs)
    {locations : List Location}
    (definitions : ((s.workspace t).definitionsOf depth ref).results = .ok locations) :
    ref ∈ refs ↔ field.location ∈ locations ∧ name.name = id.name ∧
      (ref.uri = field.uri ∨ TransGen (s.Imports t) ref.uri field.uri) := by
  have complete := loaded.complete
  rw [← complete.mem_importers]
  exact complete.resolved.mem_references_of_field ⟨d, known, inside⟩ isField ⟨d', known', inside'⟩
    isRef references definitions

/-- A node that stands in one line. -/
def lineNode (type : String) (start stop : Nat) (children : List ParseTree) : ParseTree :=
  { type := type, range := Range.ofNats 0 start 0 stop, children := children }

def lineLeaf (type : String) (start : Nat) (text : String) : ParseTree :=
  { type := type, range := Range.ofNats 0 start 0 (start + text.length), text := some text }

/-- The document of `function(p) p.x`. -/
def readingTree : ParseTree :=
  let name := { lineLeaf "id" 9 "p" with field := some "identifier" }
  lineNode "document" 0 15
    [lineNode "anonymous_function" 0 15
      [lineNode "params" 9 10 [lineNode "param" 9 10 [name]],
        lineNode "fieldaccess" 12 15 [lineLeaf "id" 12 "p", lineLeaf "id" 14 "x"]]]

/-- The document of `{ x: null }`. -/
def recordTree : ParseTree :=
  let colon := { lineLeaf ":" 3 ":" with named := false }
  lineNode "document" 0 11
    [lineNode "object" 0 11
      [lineNode "member" 2 9
        [lineNode "field" 2 9
          [lineNode "fieldname" 2 3 [lineLeaf "id" 2 "x"], colon, lineLeaf "null" 5 "null"]]]]

/-- The document of `local f = import 'f', o = import 'o'; [f(o), o.x]`. -/
def callingTree : ParseTree :=
  let importOf (start : Nat) (file : String) := lineNode "import" start (start + 10)
    [lineNode "string" (start + 7) (start + 10)
      [lineLeaf "string_start" (start + 7) "'", lineLeaf "string_content" (start + 8) file,
        lineLeaf "string_end" (start + 9) "'"]]
  lineNode "document" 0 49
    [lineNode "local_bind" 0 49
      [lineLeaf "local" 0 "local",
        lineNode "bind" 6 20 [lineLeaf "id" 6 "f", importOf 10 "f"],
        lineNode "bind" 22 36 [lineLeaf "id" 22 "o", importOf 26 "o"],
        lineNode "array" 38 49
          [lineNode "functioncall" 39 43
            [lineLeaf "id" 39 "f", lineNode "args" 41 42 [lineLeaf "id" 41 "o"]],
            lineNode "fieldaccess" 45 48 [lineLeaf "id" 45 "o", lineLeaf "id" 47 "x"]]]]

def callingFiles : FileTree :=
  { files := [([.ofString "f"], .source readingTree), ([.ofString "m"], .source callingTree),
      ([.ofString "o"], .source recordTree)] }

def callingPaths : List FilePath :=
  [.ofString "/f", .ofString "/m", .ofString "/o"]

/-- The store of the three documents. -/
def callingStore : Store :=
  Call.after callingFiles { config := {}, workspaceUri := "file:///" } (.loadPaths callingPaths)

def callingWorkspace : Workspace :=
  callingStore.workspace callingFiles

theorem callingStore_loaded : Loaded callingFiles callingStore := by
  have succeeds : ((loadPaths callingFiles callingPaths).run.run
      { config := {}, workspaceUri := "file:///" }).1 = .ok () := ok_of_isOk (by decide +kernel)
  exact .paths (Prod.ext succeeds rfl)

/-- The document and the node at a column of its first line. -/
def siteAt? (s : Store) (uri : Uri) (column : Nat) : Option (Document × Site) := do
  let d ← s.document? uri
  let site ← d.nodeAt? (Range.ofNats 0 column 0 column)
  return (d, site)

theorem mem_sites_of_siteAt {s : Store} {uri : Uri} {column : Nat} {d : Document} {site : Site}
    (found : s.siteAt? uri column = some (d, site)) :
    s.document? uri = some d ∧ site ∈ d.sites := by
  obtain ⟨_, known, rest⟩ := Option.bind_eq_some_iff.mp found
  obtain ⟨_, here, same⟩ := Option.bind_eq_some_iff.mp rest
  cases same
  exact ⟨known, Site.mem_preorder_of_nodeAt here⟩

def callingX (column : Nat) : Ident :=
  ⟨Range.ofNats 0 column 0 (column + 1), .ofString "x"⟩

/-- What the store answers for the key of the field and for both references. -/
theorem calling_computed :
    (callingStore.importers "file:///o",
      (callingStore.siteAt? "file:///o" 2).map (fun found =>
        (found.2.uri, found.2.node,
          (callingWorkspace.referencesOf Workspace.depthLimit found.1 found.2).map
            (List.map Site.location))),
      [("file:///m", 47), ("file:///f", 14)].map (fun place =>
        (callingStore.siteAt? place.1 place.2).map fun found =>
          (found.2.uri, found.2.node,
            (callingWorkspace.definitionsOf Workspace.depthLimit found.2).results))) =
      (["file:///m"],
        some ("file:///o", .fieldName (callingX 2), .ok [⟨"file:///m", Range.ofNats 0 47 0 48⟩]),
        [("file:///m", 47), ("file:///f", 14)].map fun place =>
          some (place.1, .fieldRef (callingX place.2),
            .ok [⟨"file:///o", Range.ofNats 0 2 0 3⟩])) := by
  cbv

theorem calling_field :
    ∃ d field refs, callingStore.siteAt? "file:///o" 2 = some (d, field) ∧
      field.uri = "file:///o" ∧ field.node = .fieldName (callingX 2) ∧
      field.location = ⟨"file:///o", Range.ofNats 0 2 0 3⟩ ∧
      callingWorkspace.referencesOf Workspace.depthLimit d field = .ok refs ∧
      refs.map Site.location = [⟨"file:///m", Range.ofNats 0 47 0 48⟩] := by
  obtain ⟨-, computed⟩ := Prod.mk.inj calling_computed
  obtain ⟨computed, -⟩ := Prod.mk.inj computed
  obtain ⟨⟨d, field⟩, here, computed⟩ := Option.map_eq_some_iff.mp computed
  obtain ⟨uri, computed⟩ := Prod.mk.inj computed
  obtain ⟨node, computed⟩ := Prod.mk.inj computed
  cases answer : callingWorkspace.referencesOf Workspace.depthLimit d field with
  | error e =>
      rw [answer] at computed
      cases computed
  | ok refs =>
      rw [answer] at computed
      refine ⟨d, field, refs, here, uri, node, ?_, answer, Except.ok.inj computed⟩
      rw [Site.location, Site.range, uri, node]
      rfl

theorem calling_ref {place : Uri × Nat} (listed : place ∈ [("file:///m", 47), ("file:///f", 14)]) :
    ∃ d ref, callingStore.siteAt? place.1 place.2 = some (d, ref) ∧
      ref.uri = place.1 ∧ ref.node = .fieldRef (callingX place.2) ∧
      (callingWorkspace.definitionsOf Workspace.depthLimit ref).results =
        .ok [⟨"file:///o", Range.ofNats 0 2 0 3⟩] := by
  obtain ⟨-, computed⟩ := Prod.mk.inj calling_computed
  obtain ⟨-, computed⟩ := Prod.mk.inj computed
  have computed := List.map_inj_left.mp computed place listed
  obtain ⟨⟨d, ref⟩, here, computed⟩ := Option.map_eq_some_iff.mp computed
  obtain ⟨uri, computed⟩ := Prod.mk.inj computed
  obtain ⟨node, answer⟩ := Prod.mk.inj computed
  exact ⟨d, ref, here, uri, node, answer⟩

/-- The importer of the object reads its field, and this is among the references to it. -/
theorem calling_reference_found :
    Loaded callingFiles callingStore ∧
    ∃ d field d' ref refs,
      callingStore.siteAt? "file:///o" 2 = some (d, field) ∧
      callingStore.siteAt? "file:///m" 47 = some (d', ref) ∧
      callingWorkspace.referencesOf Workspace.depthLimit d field = .ok refs ∧
      (callingWorkspace.definitionsOf Workspace.depthLimit ref).results = .ok [field.location] ∧
      TransGen (callingStore.Imports callingFiles) ref.uri field.uri ∧ ref ∈ refs := by
  have loaded := callingStore_loaded
  obtain ⟨d, field, refs, here, uri, isField, location, references, -⟩ := calling_field
  obtain ⟨d', ref, here', uri', isRef, definitions⟩ := calling_ref (.head _)
  obtain ⟨known, inside⟩ := mem_sites_of_siteAt here
  obtain ⟨known', inside'⟩ := mem_sites_of_siteAt here'
  have imports : TransGen (callingStore.Imports callingFiles) ref.uri field.uri := by
    rw [← loaded.complete.mem_importers, uri, uri', (Prod.mk.inj calling_computed).1]
    exact .head _
  rw [← location] at definitions
  rw [← uri] at known
  rw [← uri'] at known'
  refine ⟨loaded, d, field, d', ref, refs, here, here', references, definitions, imports, ?_⟩
  exact (field_reference_iff_definition loaded Workspace.depthLimit known inside isField known'
    inside' isRef references definitions).mpr ⟨.head _, rfl, .inr imports⟩

/-- The function that gets the object reads its field as well. Its document does not import
    the object, so this is missed. -/
theorem calling_reference_missed :
    Loaded callingFiles callingStore ∧
    ∃ d field d' ref refs,
      callingStore.siteAt? "file:///o" 2 = some (d, field) ∧
      callingStore.siteAt? "file:///f" 14 = some (d', ref) ∧
      callingWorkspace.referencesOf Workspace.depthLimit d field = .ok refs ∧
      (callingWorkspace.definitionsOf Workspace.depthLimit ref).results = .ok [field.location] ∧
      ref ∉ refs := by
  obtain ⟨d, field, refs, here, -, -, location, references, only⟩ := calling_field
  obtain ⟨d', ref, here', uri, -, definitions⟩ := calling_ref (.tail _ (.head _))
  rw [← location] at definitions
  refine ⟨callingStore_loaded, d, field, d', ref, refs, here, here', references, definitions, ?_⟩
  intro member
  have elsewhere := List.mem_map_of_mem (f := Site.location) member
  rw [only, List.mem_singleton, Site.location, uri] at elsewhere
  simp at elsewhere

end Store

end JsonnetNav
