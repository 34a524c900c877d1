import JsonnetNav.Proofs.DocumentIndex
import JsonnetNav.Proofs.LiveDefinitions
import JsonnetNav.Proofs.TransitiveImporters
import Mathlib

/-! # References that are listed more than once

A variable has every reference to it once. The references to a field are looked for in its own
document and in all documents that import it. A document on a cycle of imports is among its own
importers, so it is looked through twice, and a reference that leads to the field in several
ways is listed for each of them. This is all that can make a reference appear again.
-/

namespace JsonnetNav

/-- If only the elements with one key contribute, and each of them as much, then it is their
    number that counts. -/
theorem count_flatMap_of_key {α β κ : Type} [DecidableEq β] [DecidableEq κ] {f : α → List β}
    {key : α → κ} {xs : List α} {b : β} {k : κ} {n : Nat}
    (each : ∀ x ∈ xs, (f x).count b = if key x = k then n else 0) :
    (xs.flatMap f).count b = (xs.map key).count k * n := by
  induction xs with
  | nil => simp
  | cons x xs ih =>
      rw [List.flatMap_cons, List.count_append, each x (.head _),
        ih fun y later => each y (.tail _ later), List.map_cons, List.count_cons]
      by_cases same : key x = k <;> simp [same, Nat.add_mul, Nat.add_comm]

theorem flatten_of_mapM {α β ε : Type} {f : α → Except ε (List β)} {g : α → List β} {xs : List α}
    {ls : List (List β)} (done : xs.mapM f = .ok ls)
    (each : ∀ x ∈ xs, ∀ l, f x = .ok l → l = g x) : ls.flatten = xs.flatMap g := by
  induction xs generalizing ls with
  | nil =>
      cases done
      rfl
  | cons x xs ih =>
      rw [List.mapM_cons] at done
      obtain ⟨l, first, done⟩ := Except.bind_eq_ok.mp done
      obtain ⟨rest, later, done⟩ := Except.bind_eq_ok.mp done
      cases done
      rw [List.flatten_cons, List.flatMap_cons, each x (.head _) l first,
        ih later fun y member => each y (.tail _ member)]

namespace ImportGraph

/-- The document imports itself, directly or through others. -/
def OnCycle (g : ImportGraph) (uri : Uri) : Prop :=
  Relation.TransGen g.ImportStep uri uri

theorem onCycle_iff (order : ImporterOrder) {g : ImportGraph} {uri : Uri} :
    g.OnCycle uri ↔ uri ∈ g.importers uri order := by
  rw [OnCycle, transGen_importStep, mem_importers]

instance (g : ImportGraph) (uri : Uri) : Decidable (g.OnCycle uri) :=
  decidable_of_iff _ (onCycle_iff .increasing).symm

end ImportGraph

namespace Site

variable {ref : Site} {name : Text}

theorem node_of_hasName (named : ref.hasName name = true) :
    ∃ id, ref.node = .fieldRef id ∧ id.name = name := by
  unfold hasName at named
  split at named
  · rename_i id node
    exact ⟨id, node, of_decide_eq_true named⟩
  · cases named

theorem kind_of_hasName (named : ref.hasName name = true) : ref.kind = .fieldRef := by
  obtain ⟨id, node, -⟩ := node_of_hasName named
  rw [kind, node]
  rfl

end Site

namespace Workspace

variable {w : Workspace} {depth : Nat} {field ref : Site} {name : Text} {id : Ident}

theorem references_eq_some {d : Document} {target : Range} {locations : List Location}
    (answered : w.references d target depth = .ok (some locations)) :
    ∃ site refs, d.nodeAt? target = some site ∧ w.referencesOf depth d site = .ok refs ∧
      refs ≠ [] ∧ locations = refs.map Site.location := by
  obtain ⟨-, -, answered⟩ := Except.bind_eq_ok.mp answered
  cases here : d.nodeAt? target with
  | none =>
      rw [here] at answered
      cases answered
  | some site =>
      rw [here] at answered
      obtain ⟨refs, found, answered⟩ := Except.bind_eq_ok.mp answered
      cases refs with
      | nil => cases answered
      | cons ref refs =>
          cases answered
          exact ⟨site, ref :: refs, rfl, found, List.cons_ne_nil _ _, rfl⟩

/-- No two nodes of this kind are at the same place. -/
def PlacedApart (w : Workspace) (kind : Kind) : Prop :=
  ∀ a b, w.Has a → w.Has b → a.kind = kind → b.kind = kind → a.location = b.location → a = b

/-- In how many ways a reference leads to a field. -/
def ways (w : Workspace) (depth : Nat) (field ref : Site) : Nat :=
  match (w.fieldBindings depth ref).results with
  | .ok bindings => bindings.countP (·.id.location = field.location)
  | .error _ => 0

/-- A reference that is looked at when references to the field are asked for: one with the name
    of the field, in the document of the field or in one that imports it. -/
structure Candidate (w : Workspace) (field : Site) (name : Text) (ref : Site) : Prop where
  has : w.Has ref
  named : ref.hasName name = true
  reached : ref.uri = field.uri ∨ ref.uri ∈ w.importers field.uri

/-- The references of a document that have this name. -/
def namedRefs (w : Workspace) (name : Text) (uri : Uri) : List Site :=
  ((w.document? uri).toList.flatMap Document.fieldRefs).filter (·.hasName name)

theorem placedApart_of_nodup {kind : Kind}
    (distinct : ∀ uri d, w.document? uri = some d →
      ((d.sites.filter (·.kind = kind)).map Site.location).Nodup) : w.PlacedApart kind := by
  rintro a b ⟨d, found, inside⟩ ⟨d', found', inside'⟩ isKind isKind' same
  have sameUri : a.uri = b.uri := congrArg Location.uri same
  rw [← sameUri, found] at found'
  cases found'
  refine List.inj_on_of_nodup_map (distinct a.uri d found) ?_ ?_ same
  · exact List.mem_filter.mpr ⟨inside, decide_eq_true isKind⟩
  · exact List.mem_filter.mpr ⟨inside', decide_eq_true isKind'⟩

theorem Resolved.mem_namedRefs (resolved : w.Resolved) {uri : Uri} :
    ref ∈ w.namedRefs name uri ↔ w.Has ref ∧ ref.uri = uri ∧ ref.hasName name = true := by
  rw [namedRefs, List.mem_filter, List.mem_flatMap]
  constructor
  · rintro ⟨⟨d, found, listed⟩, named⟩
    have found := Option.mem_toList.mp found
    obtain ⟨d₀, built, rfl⟩ := resolved uri d found
    have inside := (built.mem_fieldRefs.mp listed).1
    exact ⟨resolved.has found inside,
      (Site.above_of_mem_preorder inside).1.trans built.uri, named⟩
  · rintro ⟨⟨d, found, inside⟩, rfl, named⟩
    obtain ⟨d₀, built, rfl⟩ := resolved ref.uri d found
    obtain ⟨id, node, -⟩ := Site.node_of_hasName named
    exact ⟨⟨_, Option.mem_toList.mpr found, built.mem_fieldRefs.mpr ⟨inside, id, node⟩⟩, named⟩

theorem Resolved.nodup_fieldRefs (resolved : w.Resolved) {uri : Uri} {d : Document}
    (found : w.document? uri = some d) : d.fieldRefs.Nodup := by
  obtain ⟨d₀, built, rfl⟩ := resolved uri d found
  apply List.Nodup.of_map Site.path
  rw [(built.fieldRefs_perm.map Site.path).nodup_iff]
  refine Document.nodup_paths_below ⟨.field, 0⟩ fun s t accessed => ?_
  obtain ⟨range, obj, field, -, rfl⟩ := Site.accessed_eq_some.mp accessed
  rfl

/-- Each place of a reference is listed once in its document. -/
theorem Resolved.nodup_namedRefs (resolved : w.Resolved) (apart : w.PlacedApart .fieldRef)
    (name : Text) (uri : Uri) : ((w.namedRefs name uri).map Site.location).Nodup := by
  have distinct : (w.namedRefs name uri).Nodup := by
    refine List.Nodup.filter _ ?_
    cases found : w.document? uri with
    | none => exact .nil
    | some d => simpa using resolved.nodup_fieldRefs found
  refine distinct.map_on fun a listed b listed' same => ?_
  obtain ⟨has, -, named⟩ := resolved.mem_namedRefs.mp listed
  obtain ⟨has', -, named'⟩ := resolved.mem_namedRefs.mp listed'
  exact apart a b has has' (Site.kind_of_hasName named) (Site.kind_of_hasName named') same

/-- For a reference with the name of the field, the bindings that are compared with the field are
    the same as it if they are at its place. -/
theorem Resolved.countP_same (resolved : w.Resolved) (hasField : w.Has field)
    (isField : field.node = .fieldName id) (has : w.Has ref) (named : ref.hasName id.name = true)
    {bindings : List FieldBinding} (found : (w.fieldBindings depth ref).results = .ok bindings) :
    bindings.countP (·.id.same field) = w.ways depth field ref := by
  have suits := ((resolved.search_only depth (.fields ref) has).results_map fun b => b).2 _ found
  obtain ⟨id', node, sameName⟩ := Site.node_of_hasName named
  rw [ways, found]
  refine List.countP_congr fun b member => ?_
  obtain ⟨binds, bound⟩ := suits b member
  obtain ⟨key, isKey, bears⟩ := binds.name
  rw [same_field hasField binds.id isField isKey, decide_eq_true_iff]
  refine and_iff_left ?_
  obtain ⟨id'', node', alsoName⟩ := Site.node_of_hasName bound
  rw [node] at node'
  cases node'
  exact bears.trans (alsoName.symm.trans sameName)

/-- The references to a field, document by document, each as often as it leads to the field. -/
theorem Resolved.fieldReferences_eq (resolved : w.Resolved) (hasField : w.Has field)
    (isField : field.node = .fieldName id) {refs : List Site}
    (done : w.fieldReferences depth field id.name = .ok refs) :
    refs = (w.importers field.uri ++ [field.uri]).flatMap fun uri =>
      (w.namedRefs id.name uri).flatMap fun ref =>
        List.replicate (w.ways depth field ref) ref := by
  obtain ⟨found, each, done⟩ := Except.bind_eq_ok.mp done
  cases done
  have candidates (uris : List Uri) :
      ((uris.filterMap w.document?).flatMap Document.fieldRefs).filter (·.hasName id.name) =
        uris.flatMap (w.namedRefs id.name) := by
    rw [List.filterMap_eq_flatMap_toList, List.flatMap_assoc, List.filter_flatMap]
    rfl
  rw [candidates] at each
  rw [← List.flatMap_assoc]
  refine flatten_of_mapM each fun ref listed l looked => ?_
  obtain ⟨uri, -, listed⟩ := List.mem_flatMap.mp listed
  obtain ⟨has, -, named⟩ := resolved.mem_namedRefs.mp listed
  obtain ⟨bindings, answer, same⟩ := Except.bind_eq_ok.mp looked
  cases same
  rw [List.map_const', ← List.countP_eq_length_filter,
    resolved.countP_same hasField isField has named answer]

/-- How often a place is among the references of one document. -/
theorem Resolved.count_namedRefs (resolved : w.Resolved) (apart : w.PlacedApart .fieldRef)
    (has : w.Has ref) (named : ref.hasName name = true) (uri : Uri) :
    ((w.namedRefs name uri).flatMap fun other =>
      List.replicate (w.ways depth field other) other.location).count ref.location =
        if uri = ref.uri then w.ways depth field ref else 0 := by
  have each : ∀ other ∈ w.namedRefs name uri,
      (List.replicate (w.ways depth field other) other.location).count ref.location =
        if other.location = ref.location then w.ways depth field ref else 0 := by
    intro other listed
    obtain ⟨has', -, named'⟩ := resolved.mem_namedRefs.mp listed
    rw [List.count_replicate]
    by_cases same : other.location = ref.location
    · cases apart other ref has' has (Site.kind_of_hasName named') (Site.kind_of_hasName named) same
      simp
    · simp [same]
  have here : ref.location ∈ (w.namedRefs name uri).map Site.location ↔ uri = ref.uri := by
    rw [List.mem_map]
    constructor
    · rintro ⟨other, listed, same⟩
      obtain ⟨-, rfl, -⟩ := resolved.mem_namedRefs.mp listed
      exact congrArg Location.uri same
    · rintro rfl
      exact ⟨ref, resolved.mem_namedRefs.mpr ⟨has, rfl, named⟩, rfl⟩
  rw [count_flatMap_of_key each, (resolved.nodup_namedRefs apart name uri).count]
  by_cases own : uri = ref.uri
  · rw [if_pos (here.mpr own), if_pos own, Nat.one_mul]
  · rw [if_neg (mt here.mp own), if_neg own, Nat.zero_mul]

/-- How often the place of a reference is listed for a field. -/
theorem Resolved.count_fieldReferences (resolved : w.Resolved) (apart : w.PlacedApart .fieldRef)
    (distinct : (w.importers field.uri).Nodup) (hasField : w.Has field)
    (isField : field.node = .fieldName id) {refs : List Site}
    (done : w.fieldReferences depth field id.name = .ok refs)
    (candidate : w.Candidate field id.name ref) :
    (refs.map Site.location).count ref.location = w.ways depth field ref *
      if ref.uri = field.uri ∧ field.uri ∈ w.importers field.uri then 2 else 1 := by
  obtain ⟨has, named, reached⟩ := candidate
  have visits : (w.importers field.uri ++ [field.uri]).count ref.uri =
      if ref.uri = field.uri ∧ field.uri ∈ w.importers field.uri then 2 else 1 := by
    rw [List.count_append, distinct.count, List.count_singleton]
    by_cases own : ref.uri = field.uri
    · by_cases cycle : field.uri ∈ w.importers field.uri <;> simp [own, cycle]
    · simp [own, Ne.symm own, reached.resolve_left own]
  rw [resolved.fieldReferences_eq hasField isField done]
  simp only [List.map_flatMap, List.map_replicate]
  rw [count_flatMap_of_key fun uri _ => resolved.count_namedRefs apart has named uri, Nat.mul_comm,
    List.map_id', visits]

theorem Resolved.candidate_of_mem (resolved : w.Resolved) (hasField : w.Has field)
    (isField : field.node = .fieldName id) {refs : List Site}
    (done : w.fieldReferences depth field id.name = .ok refs) (listed : ref ∈ refs) :
    w.Candidate field id.name ref := by
  rw [resolved.fieldReferences_eq hasField isField done] at listed
  obtain ⟨uri, visited, listed⟩ := List.mem_flatMap.mp listed
  obtain ⟨other, inDocument, listed⟩ := List.mem_flatMap.mp listed
  obtain rfl := (List.mem_replicate.mp listed).2
  obtain ⟨has, rfl, named⟩ := resolved.mem_namedRefs.mp inDocument
  exact ⟨has, named, by simpa [or_comm] using visited⟩

/-- No place is listed twice if every reference is listed in one way and by one document. -/
theorem Resolved.nodup_fieldReferences (resolved : w.Resolved) (apart : w.PlacedApart .fieldRef)
    (distinct : (w.importers field.uri).Nodup) (hasField : w.Has field)
    (isField : field.node = .fieldName id) {refs : List Site}
    (done : w.fieldReferences depth field id.name = .ok refs) :
    (refs.map Site.location).Nodup ↔ ∀ ref, w.Candidate field id.name ref →
      ref.location ∈ refs.map Site.location → w.ways depth field ref = 1 ∧
        ¬ (ref.uri = field.uri ∧ field.uri ∈ w.importers field.uri) := by
  have count {ref : Site} (candidate : w.Candidate field id.name ref) :=
    resolved.count_fieldReferences apart distinct hasField isField done candidate
  rw [List.nodup_iff_count_le_one]
  constructor
  · intro once ref candidate listed
    have most := once ref.location
    have least := List.count_pos_iff.mpr listed
    rw [count candidate] at most least
    by_cases twice : ref.uri = field.uri ∧ field.uri ∈ w.importers field.uri
    · rw [if_pos twice] at most least
      omega
    · rw [if_neg twice] at most least
      exact ⟨by omega, twice⟩
  · intro single place
    by_cases listed : place ∈ refs.map Site.location
    · obtain ⟨ref, member, rfl⟩ := List.mem_map.mp listed
      have candidate := resolved.candidate_of_mem hasField isField done member
      obtain ⟨one, other⟩ := single ref candidate listed
      rw [count candidate, one, if_neg other]
    · rw [List.count_eq_zero_of_not_mem listed]
      omega

theorem Resolved.nodup_var_references (resolved : w.Resolved) (apart : w.PlacedApart .varRef)
    {uri : Uri} {d : Document} (known : w.document? uri = some d) {var : Site}
    (inside : var ∈ d.sites) : ((d.references var).map Site.location).Nodup := by
  have has (ref : Site) (member : ref ∈ d.sites) : w.Has ref := resolved.has known member
  obtain ⟨d₀, built, rfl⟩ := resolved uri d known
  have isRef : ∀ ref ∈ d₀.resolve.references var, w.Has ref ∧ ref.kind = .varRef := by
    intro ref listed
    obtain ⟨member, id, node, -⟩ := built.mem_found.mp ((built.mem_references inside).mp listed)
    exact ⟨has ref member, by rw [Site.kind, node]; rfl⟩
  refine (built.nodup_references var).map_on fun a listed b listed' same => ?_
  exact apart a b (isRef a listed).1 (isRef b listed').1 (isRef a listed).2 (isRef b listed').2 same

end Workspace

namespace Store

/-- Where nodes of one kind are at different places, a list of references to a variable has no
    place twice. In a list of references to a field a reference is counted for each way in which
    it leads to the field, twice if it is in the document of the field and this is on a cycle of
    imports. So no place is listed twice exactly if every listed reference leads to the field in
    one way and none is in the document of the field while that is on a cycle. -/
theorem references_repeated {s : Store} {t : FileTree} (resolved : (s.workspace t).Resolved)
    (fieldsApart : (s.workspace t).PlacedApart .fieldRef)
    (varsApart : (s.workspace t).PlacedApart .varRef) {uri : Uri} {d : Document}
    (known : s.document? uri = some d) {target : Range} {depth : Nat} {locations : List Location}
    (answered : (s.workspace t).references d target depth = .ok (some locations)) :
    ∃ site, d.nodeAt? target = some site ∧
      ((∃ id, site.node = .var id) ∧ locations.Nodup ∨
        ∃ id, site.node = .fieldName id ∧
          (∀ place ∈ locations, ∃ ref, (s.workspace t).Candidate site id.name ref ∧
            ref.location = place) ∧
          (∀ ref, (s.workspace t).Candidate site id.name ref →
            locations.count ref.location = (s.workspace t).ways depth site ref *
              if ref.uri = site.uri ∧ s.graph.OnCycle site.uri then 2 else 1) ∧
          (locations.Nodup ↔ ∀ ref, (s.workspace t).Candidate site id.name ref →
            ref.location ∈ locations → (s.workspace t).ways depth site ref = 1 ∧
              ¬ (ref.uri = site.uri ∧ s.graph.OnCycle site.uri))) := by
  obtain ⟨site, refs, here, found, some, rfl⟩ := Workspace.references_eq_some answered
  have inside := Site.mem_preorder_of_nodeAt here
  refine ⟨site, here, ?_⟩
  rw [Workspace.referencesOf] at found
  cases node : site.node with
  | fieldName id =>
      rw [node] at found
      have hasField := resolved.has known inside
      have distinct := s.graph.nodup_importers site.uri s.order
      refine .inr ⟨id, rfl, fun place listed => ?_, fun ref candidate => ?_, ?_⟩
      · obtain ⟨ref, member, rfl⟩ := List.mem_map.mp listed
        exact ⟨ref, resolved.candidate_of_mem hasField node found member, rfl⟩
      · simp only [ImportGraph.onCycle_iff s.order]
        exact resolved.count_fieldReferences fieldsApart distinct hasField node found candidate
      · simp only [ImportGraph.onCycle_iff s.order]
        exact resolved.nodup_fieldReferences fieldsApart distinct hasField node found
  | var id =>
      rw [node] at found
      cases found
      exact .inl ⟨⟨id, rfl⟩, resolved.nodup_var_references varsApart known inside⟩
  | _ =>
      rw [node] at found
      cases found
      exact absurd rfl some

/-- The document of `{ x: null, y: (import 'a').x }`, in a file with the name `a`. -/
def selfTree : ParseTree :=
  let word (type : String) (start : Nat) := { lineLeaf type start type with named := false }
  let field (start stop : Nat) (name : String) (value : ParseTree) := lineNode "member" start stop
    [lineNode "field" start stop
      [lineNode "fieldname" start (start + 1) [lineLeaf "id" start name],
        word ":" (start + 1), value]]
  let path := lineNode "string" 22 25
    [lineLeaf "string_start" 22 "'", lineLeaf "string_content" 23 "a", lineLeaf "string_end" 24 "'"]
  let own := lineNode "parenthesis" 14 26 [lineNode "import" 15 25 [path]]
  lineNode "document" 0 30
    [lineNode "object" 0 30
      [field 2 9 "x" (lineLeaf "null" 5 "null"),
        field 11 28 "y" (lineNode "fieldaccess" 14 28 [own, lineLeaf "id" 27 "x"])]]

/-- The document of `local o = { x: null }, p = if true then o else o; p.x`. -/
def branchingTree : ParseTree :=
  let colon := { lineLeaf ":" 13 ":" with named := false }
  let record := lineNode "object" 10 21
    [lineNode "member" 12 19
      [lineNode "field" 12 19
        [lineNode "fieldname" 12 13 [lineLeaf "id" 12 "x"], colon, lineLeaf "null" 15 "null"]]]
  let either := lineNode "conditional" 27 48
    [lineLeaf "true" 30 "true", lineLeaf "id" 40 "o", lineLeaf "id" 47 "o"]
  lineNode "document" 0 53
    [lineNode "local_bind" 0 53
      [lineLeaf "local" 0 "local",
        lineNode "bind" 6 21 [lineLeaf "id" 6 "o", record],
        lineNode "bind" 23 48 [lineLeaf "id" 23 "p", either],
        lineNode "fieldaccess" 50 53 [lineLeaf "id" 50 "p", lineLeaf "id" 52 "x"]]]

def repeatingFiles : FileTree :=
  { files := [([.ofString "a"], .source selfTree), ([.ofString "b"], .source branchingTree)] }

def repeatingStore : Store :=
  Call.after repeatingFiles { config := {}, workspaceUri := "file:///" }
    (.loadPaths [.ofString "/a", .ofString "/b"])

def repeatingWorkspace : Workspace :=
  repeatingStore.workspace repeatingFiles

theorem repeatingWorkspace_resolved : repeatingWorkspace.Resolved :=
  Reachable.resolved (.call (.fresh {} "file:///" .increasing) repeatingFiles _) repeatingFiles

theorem repeatingWorkspace_apart (kind : Kind) (listed : kind ∈ [.fieldRef, .varRef]) :
    repeatingWorkspace.PlacedApart kind := by
  have distinct : ∀ kind ∈ [Kind.fieldRef, Kind.varRef], ∀ entry ∈ repeatingStore.documents,
      ((entry.2.sites.filter (·.kind = kind)).map Site.location).Nodup := by
    decide +kernel
  apply Workspace.placedApart_of_nodup
  intro uri d found
  exact distinct kind listed (uri, d) (mem_documents found)

/-- A document with the columns of a field and of a reference to it. -/
def repeatingPlaces : List (Uri × Nat × Nat) :=
  [("file:///a", 2, 27), ("file:///b", 12, 52)]

def columnLocation (uri : Uri) (column : Nat) : Location :=
  ⟨uri, Range.ofNats 0 column 0 (column + 1)⟩

theorem repeating_computed :
    repeatingPlaces.map (fun place =>
        (repeatingStore.siteAt? place.1 place.2.1).map fun found =>
          (found.2.uri, found.2.node,
            repeatingWorkspace.references found.1 (Range.ofNats 0 place.2.1 0 place.2.1))) =
      repeatingPlaces.map fun place =>
        some (place.1, Node.fieldName (callingX place.2.1),
          .ok (some (List.replicate 2 (columnLocation place.1 place.2.2)))) := by
  cbv

theorem repeating_importers :
    repeatingStore.graph.importers "file:///a" = ["file:///a"] ∧
      repeatingStore.graph.importers "file:///b" = [] := by
  constructor <;> cbv

theorem repeating_answer {place : Uri × Nat × Nat} (listed : place ∈ repeatingPlaces) :
    ∃ d field, repeatingStore.document? place.1 = some d ∧
      d.nodeAt? (Range.ofNats 0 place.2.1 0 place.2.1) = some field ∧ field.uri = place.1 ∧
      field.node = .fieldName (callingX place.2.1) ∧
      repeatingWorkspace.references d (Range.ofNats 0 place.2.1 0 place.2.1) =
        .ok (some (List.replicate 2 (columnLocation place.1 place.2.2))) := by
  have computed := List.map_inj_left.mp repeating_computed place listed
  obtain ⟨⟨d, field⟩, found, computed⟩ := Option.map_eq_some_iff.mp computed
  obtain ⟨uri, computed⟩ := Prod.mk.inj computed
  obtain ⟨node, answer⟩ := Prod.mk.inj computed
  obtain ⟨_, known, rest⟩ := Option.bind_eq_some_iff.mp found
  obtain ⟨_, here, same⟩ := Option.bind_eq_some_iff.mp rest
  cases same
  exact ⟨d, field, known, here, uri, node, answer⟩

/-- In the document that imports itself, the reference leads to the field in one way and is
    counted twice. In the other one it leads to the field by both branches. -/
theorem repeating_references_counted :
    repeatingWorkspace.Resolved ∧ repeatingWorkspace.PlacedApart .fieldRef ∧
    repeatingWorkspace.PlacedApart .varRef ∧
    ∀ place ∈ repeatingPlaces, ∃ d field ref, repeatingStore.document? place.1 = some d ∧
      d.nodeAt? (Range.ofNats 0 place.2.1 0 place.2.1) = some field ∧
      repeatingWorkspace.references d (Range.ofNats 0 place.2.1 0 place.2.1) =
        .ok (some [ref.location, ref.location]) ∧
      repeatingWorkspace.Candidate field (.ofString "x") ref ∧
      repeatingWorkspace.ways Workspace.depthLimit field ref =
        if repeatingStore.graph.OnCycle place.1 then 1 else 2 := by
  have fieldsApart := repeatingWorkspace_apart .fieldRef (.head _)
  have varsApart := repeatingWorkspace_apart .varRef (.tail _ (.head _))
  refine ⟨repeatingWorkspace_resolved, fieldsApart, varsApart, fun place listed => ?_⟩
  obtain ⟨d, field, known, here, uri, node, answer⟩ := repeating_answer listed
  obtain ⟨site, here', ⟨⟨id, isVar⟩, -⟩ | ⟨id, isField, fromRef, count, -⟩⟩ :=
    references_repeated repeatingWorkspace_resolved fieldsApart varsApart known answer
  · cases here.symm.trans here'
    rw [node] at isVar
    cases isVar
  · cases here.symm.trans here'
    rw [node] at isField
    cases isField
    obtain ⟨ref, candidate, located⟩ := fromRef _ (.head _)
    have total := count ref candidate
    have own : ref.uri = field.uri := (congrArg Location.uri located).trans uri.symm
    rw [located, List.count_replicate_self, own, uri] at total
    change 2 = repeatingWorkspace.ways Workspace.depthLimit field ref * _ at total
    refine ⟨d, field, ref, known, here, by rw [located]; exact answer, candidate, ?_⟩
    by_cases cycle : repeatingStore.graph.OnCycle place.1
    · rw [if_pos ⟨rfl, cycle⟩] at total
      rw [if_pos cycle]
      omega
    · rw [if_neg fun both => cycle both.2] at total
      rw [if_neg cycle]
      omega

/-- A place is listed twice both on a cycle of imports and where there is none. -/
theorem repeating_place_listed_twice :
    repeatingWorkspace.Resolved ∧ repeatingWorkspace.PlacedApart .fieldRef ∧
    repeatingWorkspace.PlacedApart .varRef ∧
    repeatingStore.graph.OnCycle "file:///a" ∧ ¬ repeatingStore.graph.OnCycle "file:///b" ∧
    ∀ place ∈ repeatingPlaces, ∃ d locations, repeatingStore.document? place.1 = some d ∧
      repeatingWorkspace.references d (Range.ofNats 0 place.2.1 0 place.2.1) =
        .ok (some locations) ∧
      locations.count (columnLocation place.1 place.2.2) = 2 ∧ ¬ locations.Nodup := by
  refine ⟨repeatingWorkspace_resolved, repeatingWorkspace_apart .fieldRef (.head _),
    repeatingWorkspace_apart .varRef (.tail _ (.head _)), ?_, ?_, fun place listed => ?_⟩
  · rw [ImportGraph.onCycle_iff .increasing, repeating_importers.1]
    exact .head _
  · rw [ImportGraph.onCycle_iff .increasing, repeating_importers.2]
    exact List.not_mem_nil
  · obtain ⟨d, field, known, -, -, -, answer⟩ := repeating_answer listed
    refine ⟨d, _, known, answer, List.count_replicate_self, fun distinct => ?_⟩
    exact absurd (List.nodup_replicate.mp distinct) (by decide)

end Store

end JsonnetNav
