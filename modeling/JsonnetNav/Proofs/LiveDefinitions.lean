import JsonnetNav.Proofs.DefinitionEnds
import JsonnetNav.Proofs.FieldReferences
import Mathlib

/-! # Definitions are live

Documents are replaced and taken out while names are looked up in between. Every document
that a store has at some moment was built and resolved by a load of its own, and a search
never leaves the documents that are there. So a definition is always a node of a document
of the store as it is now, and it has the name that was looked up.
-/

namespace JsonnetNav

namespace Store

/-! ## Documents come from files -/

theorem mem_documents_put {s : Store} {d : Document} {entry : Uri × Document}
    (member : entry ∈ (s.put d).documents) : entry = (d.uri, d) ∨ entry ∈ s.documents := by
  unfold put at member
  split at member
  · obtain ⟨⟨key, old⟩, present, rfl⟩ := List.mem_map.mp member
    by_cases here : key = d.uri
    · simp [here]
    · exact .inr (by simpa [here] using present)
  · rcases List.mem_append.mp member with present | new
    · exact .inr present
    · exact .inl (List.mem_singleton.mp new)

/-- Every document was loaded from its file at some time. -/
def Sourced (s : Store) : Prop :=
  ∀ entry ∈ s.documents, ∃ t, load t entry.1 = .ok entry.2

theorem Sourced.put {s : Store} (sourced : s.Sourced) {t : FileTree} {uri : Uri} {d : Document}
    (done : load t uri = .ok d) : (s.put d).Sourced := by
  intro entry member
  rcases mem_documents_put member with rfl | before
  · exact ⟨t, by rw [uri_of_load done, done]⟩
  · exact sourced entry before

/-- Indexing leaves the documents as they are. -/
theorem sourced_indexImports (t : FileTree) (d : Document) :
    StoreAction.Preserves Sourced (indexImports t d) := by
  refine StoreAction.Preserves.forM fun importee _ => StoreAction.Preserves.get_bind ?_
  intro s sourced
  split <;> exact sourced

theorem sourced_loadPaths (t : FileTree) (paths : List FilePath) :
    StoreAction.Preserves Sourced (loadPaths t paths) := by
  refine StoreAction.Preserves.bind (StoreAction.Preserves.forM fun p _ => ?_)
    fun _ => StoreAction.Preserves.get_bind fun s sourced => ?_
  · exact preserves_takeIn (fun _ _ sourced => sourced)
      (fun _ _ _ done sourced => sourced.put done) p
  · have whole : StoreAction.Preserves Sourced
        (s.documents.forM fun entry => indexImports t entry.2) :=
      StoreAction.Preserves.forM fun entry _ => sourced_indexImports t entry.2
    exact whole s sourced

theorem sourced_add (t : FileTree) (uri : Uri) : StoreAction.Preserves Sourced (add t uri) := by
  intro s sourced
  rw [add, StoreAction.run_bind]
  cases done : load t uri with
  | error e => exact sourced
  | ok d =>
      have puts : StoreAction.Preserves Sourced (do modify (·.put d); indexImports t d) :=
        (StoreAction.Preserves.modify fun s sourced => sourced.put done).bind
          fun _ => sourced_indexImports t d
      exact puts s sourced

theorem Sourced.after {s : Store} (sourced : s.Sourced) (linked : s.Linked) (t : FileTree)
    (c : Call) : (c.after t s).Sourced := by
  have deletes (uri : Uri) : ((Store.delete uri).run.run s).2.Sourced := by
    cases found : s.document? uri with
    | none =>
        rw [run_delete_unknown found]
        exact sourced
    | some d =>
        obtain ⟨graph, -, -, done⟩ := linked.run_delete (Option.isSome_of_eq_some found)
        rw [done]
        exact fun entry member => sourced entry (List.mem_filter.mp member).1
  cases c with
  | loadWorkspace =>
      have scans : StoreAction.Preserves Sourced (Store.loadWorkspace t) := by
        refine StoreAction.Preserves.get_bind fun s sourced => ?_
        refine StoreAction.Preserves.bind (fun s sourced => ?_) (fun paths => ?_) s sourced
        · cases s.scan t <;> exact sourced
        · exact (sourced_loadPaths t paths).bind fun _ => StoreAction.Preserves.pure _
      exact scans s sourced
  | loadPaths paths => exact sourced_loadPaths t paths s sourced
  | add uri => exact sourced_add t uri s sourced
  | delete uri => exact deletes uri
  | update uri =>
      have deleted := deletes uri
      rw [Call.after, Store.update, StoreAction.run_bind]
      generalize (Store.delete uri).run.run s = outcome at deleted ⊢
      obtain ⟨result, s'⟩ := outcome
      cases result with
      | ok _ => exact sourced_add t uri s' deleted
      | error e => exact deleted

theorem Reachable.sourced {s : Store} (reached : s.Reachable) : s.Sourced := by
  induction reached with
  | fresh config workspaceUri =>
      intro entry member
      cases member
  | call before t c ih => exact ih.after before.linked t c

theorem isFileUri_of_load {t : FileTree} {uri : Uri} {d : Document} (done : load t uri = .ok d) :
    FilePath.isFileUri uri := by
  obtain ⟨path, named, -⟩ := Except.bind_eq_ok.mp done
  cases file : FilePath.isFileUri uri with
  | true => rfl
  | false =>
      rw [FilePath.ofUri, file] at named
      cases named

/-- All documents are loaded from files. -/
theorem Reachable.isFileUri {s : Store} (reached : s.Reachable) {uri : Uri}
    (known : (s.document? uri).isSome) : FilePath.isFileUri uri := by
  obtain ⟨d, found⟩ := Option.isSome_iff_exists.mp known
  obtain ⟨t, done⟩ := reached.sourced (uri, d) (mem_documents found)
  exact isFileUri_of_load done

theorem Reachable.resolved {s : Store} (reached : s.Reachable) (t : FileTree) :
    (s.workspace t).Resolved := by
  intro uri d found
  obtain ⟨t', done⟩ := reached.sourced (uri, d) (mem_documents found)
  exact built_of_load done

end Store

/-! ## What a definition is -/

/-- The nodes that have definitions. -/
def Node.isReference : Node → Bool
  | .fieldRef _ | .paramRef _ | .expr (.ref _) | .importee _ => true
  | _ => false

namespace Workspace

/-- The node is what the name at the reference may mean: a key or a variable of that name, the
    variable of a parameter of a function for the name of an argument, and a whole document for
    an import of it. -/
def Defines (w : Workspace) (found ref : Site) : Prop :=
  match ref.node with
  | .fieldRef id => ∃ key, found.node = .fieldName key ∧ key.name = id.name
  | .expr (.ref id) => ∃ var, found.node = .var var ∧ var.name = id.name
  | .paramRef id => ∃ fn param p, w.Has fn ∧ (param, p) ∈ fn.parameters ∧
      found = param.part .id (.var p.id) ∧ p.id.name = id.name
  | .importee _ => ∃ uri d, w.importTarget ref = .ok (some uri) ∧ w.document? uri = some d ∧
      found = d.site
  | _ => False

/-- The place of a node of the workspace that the name at the reference may mean. -/
def DefinedAt (w : Workspace) (ref : Site) (l : Location) : Prop :=
  ∃ found, w.Has found ∧ found.location = l ∧ w.Defines found ref

variable {w : Workspace}

theorem Has.parameter {fn param : Site} {p : Param} (has : w.Has fn)
    (member : (param, p) ∈ fn.parameters) :
    param.uri = fn.uri ∧ w.Has (param.part .id (.var p.id)) := by
  unfold Site.parameters at member
  split at member
  · rename_i range params body node
    obtain ⟨i, bound, same⟩ := List.mem_mapIdx.mp member
    cases same
    have child : fn.down ⟨.params, i⟩ (.param params[i]) ∈ fn.children :=
      Site.mem_children_of_row (by simp [node, Node.parts, Expr.parts]) bound
    have inFn := has.below (Site.mem_preorder_of_child child)
    exact ⟨rfl, inFn.part (by simp [Site.down, Node.parts])⟩
  · cases member

/-- The binding of a variable of a document is found at the variable itself. -/
theorem Resolved.id_of_binding (resolved : w.Resolved) {var : Site} (has : w.Has var) {b : Binding}
    (found : (w.documentOf? var).bind (·.bindingOf? var) = some b) : b.id = var := by
  obtain ⟨d, here, inside⟩ := has
  obtain ⟨d', here', binds⟩ := Option.bind_eq_some_iff.mp found
  cases here.symm.trans here'
  obtain ⟨d₀, built, rfl⟩ := resolved var.uri d here
  obtain ⟨bound, isAt⟩ := built.id_mem_sites binds
  exact (Site.isAt_iff bound inside).mp isAt

theorem Resolved.variable_of_ref (resolved : w.Resolved) {ref : Site} (has : w.Has ref) {id : Ident}
    (node : ref.node = .expr (.ref id)) {b : Binding} (found : w.varBinding? ref = some b) :
    w.Has b.id ∧ ∃ var, b.id.node = .var var ∧ var.name = id.name := by
  obtain ⟨d, here, inside⟩ := has
  obtain ⟨d', here', binds⟩ := Option.bind_eq_some_iff.mp found
  cases here.symm.trans here'
  obtain ⟨d₀, built, rfl⟩ := resolved ref.uri d here
  have bound := (built.bindingOfRef_eq_some inside).mp (by rw [binds, Option.map_some])
  obtain ⟨inSites, id', var, node', isVar, same⟩ := built.names_of_found bound
  cases node.symm.trans node'
  exact ⟨resolved.has here inSites, var, isVar, same⟩

theorem Resolved.stays_paramPlan (resolved : w.Resolved) {ref : Site} (has : w.Has ref) :
    (w.paramPlan ref).Stays w (w.DefinedAt ref) := by
  apply Plan.stays_ofOption
  intro call around
  have hasCall := has.outward (Site.mem_outward_of_enclosing around)
  split
  · rename_i range callee args id node name
    refine ⟨hasCall.part (by simp [node, Node.parts, Expr.parts]), ?_⟩
    intro fn isIn entry member
    obtain ⟨param, p⟩ := entry
    obtain ⟨sameUri, hasVar⟩ := isIn.parameter member
    dsimp only
    split
    · rename_i sameName
      apply Plan.stays_ofOption
      intro b found l listed
      cases List.mem_singleton.mp listed
      rw [resolved.id_of_binding hasVar found]
      refine ⟨_, hasVar, rfl, ?_⟩
      rw [Defines, name]
      exact ⟨fn, param, p, isIn, member, rfl, sameName⟩
    · exact Plan.stays_none
  · exact Plan.stays_none

/-- Each way to a definition ends at one. -/
theorem Resolved.stays_definitionPlan (resolved : w.Resolved) {ref : Site} (has : w.Has ref) :
    (w.definitionPlan ref).Stays w (w.DefinedAt ref) := by
  rw [definitionPlan]
  cases node : ref.node with
  | fieldRef id =>
      refine ⟨has, fun b suits l listed => ?_⟩
      cases List.mem_singleton.mp listed
      obtain ⟨key, isKey, same⟩ := suits.1.name
      have named : id.name = b.name := by simpa [Site.hasName, node] using suits.2
      refine ⟨b.id, suits.1.id, rfl, ?_⟩
      rw [Defines, node]
      exact ⟨key, isKey, same.trans named.symm⟩
  | paramRef id => exact resolved.stays_paramPlan has
  | expr e =>
      cases e with
      | ref id =>
          intro l listed
          obtain ⟨b, found, rfl⟩ := Option.map_eq_some_iff.mp (Option.mem_toList.mp listed)
          obtain ⟨hasVar, isVar⟩ := resolved.variable_of_ref has node found
          refine ⟨b.id, hasVar, rfl, ?_⟩
          rw [Defines, node]
          exact isVar
      | _ => exact Plan.stays_none
  | importee i =>
      dsimp only
      unfold imported
      split
      · rename_i uri target
        apply Plan.stays_ofOption
        intro d found l listed
        cases List.mem_singleton.mp listed
        obtain ⟨uri, rfl, here⟩ := Option.bind_eq_some_iff.mp found
        refine ⟨d.site, resolved.has here (Site.mem_preorder_self _), rfl, ?_⟩
        rw [Defines, node]
        exact ⟨uri, d, target, here, rfl⟩
      · trivial
  | _ => exact Plan.stays_none

theorem Resolved.definitions_defined (resolved : w.Resolved) {uri : Uri} {d : Document}
    (known : w.document? uri = some d) {target : Range} {depth : Nat} {locations : List Location}
    (answered : w.definitions d target depth = .ok locations) {l : Location}
    (listed : l ∈ locations) : ∃ ref, d.nodeAt? target = some ref ∧ w.DefinedAt ref l := by
  have isResolved : d.isResolved := by
    obtain ⟨d₀, -, rfl⟩ := resolved uri d known
    rfl
  cases here : d.nodeAt? target with
  | none =>
      rw [definitions, Document.demandResolved, if_pos isResolved, here] at answered
      cases answered
      cases listed
  | some ref =>
      have has := resolved.has known (Site.mem_preorder_of_nodeAt here)
      have finds := (resolved.stays_definitionPlan has).run (resolved.search_only depth)
      rw [definitions_at isResolved here] at answered
      obtain ⟨-, -, done⟩ := Except.bind_eq_ok.mp answered
      exact ⟨ref, rfl, (finds.results_map id).2 locations done l listed⟩

end Workspace

namespace Store

/-- Whatever calls have led to the store: a definition is the place of a node of one of the
    documents that the store has now, and this node has the name that was looked up. Where there
    is no name of a field, a variable or an argument, and no import, there is no definition. -/
theorem definitions_live {s : Store} (reached : s.Reachable) {t : FileTree} {uri : Uri}
    {d : Document} (known : s.document? uri = some d) {target : Range} {depth : Nat}
    {locations : List Location}
    (answered : (s.workspace t).definitions d target depth = .ok locations) :
    (∀ l ∈ locations, ∃ ref found, d.nodeAt? target = some ref ∧ (s.workspace t).Has found ∧
      found.location = l ∧ (s.workspace t).Defines found ref) ∧
    ((∀ ref, d.nodeAt? target = some ref → ref.node.isReference = false) → locations = []) := by
  have defined {l : Location} (listed : l ∈ locations) :=
    (reached.resolved t).definitions_defined known answered listed
  constructor
  · intro l listed
    obtain ⟨ref, here, found, has, place, defines⟩ := defined listed
    exact ⟨ref, found, here, has, place, defines⟩
  · intro noReference
    rw [List.eq_nil_iff_forall_not_mem]
    intro l listed
    obtain ⟨ref, here, found, -, -, defines⟩ := defined listed
    have other := noReference ref here
    unfold Workspace.Defines at defines
    split at defines <;> simp_all [Node.isReference]

theorem callingStore_reachable : callingStore.Reachable :=
  .call (.fresh {} "file:///" .increasing) callingFiles _

theorem calling_definitions :
    ∃ d ref, callingStore.document? "file:///m" = some d ∧
      d.nodeAt? (Range.ofNats 0 47 0 47) = some ref ∧ ref.node = .fieldRef (callingX 47) ∧
      callingWorkspace.definitions d (Range.ofNats 0 47 0 47) =
        .ok [⟨"file:///o", Range.ofNats 0 2 0 3⟩] := by
  obtain ⟨d, ref, here, -, node, answer⟩ := calling_ref (.head _)
  obtain ⟨d', known, rest⟩ := Option.bind_eq_some_iff.mp here
  obtain ⟨ref', atTarget, same⟩ := Option.bind_eq_some_iff.mp rest
  cases same
  have isResolved : d.isResolved := by
    obtain ⟨d₀, -, rfl⟩ := callingStore_reachable.resolved callingFiles "file:///m" d known
    rfl
  refine ⟨d, ref, known, atTarget, node, ?_⟩
  rw [Workspace.definitions, Document.demandResolved, if_pos isResolved, atTarget]
  exact answer

/-- The field that is read in the calling document is found in the document of the object. -/
theorem calling_definition_live :
    callingStore.Reachable ∧
    ∃ d found key, callingStore.document? "file:///m" = some d ∧
      callingWorkspace.definitions d (Range.ofNats 0 47 0 47) = .ok [found.location] ∧
      callingWorkspace.Has found ∧ found.node = .fieldName key ∧ key.name = .ofString "x" := by
  obtain ⟨d, ref, known, here, node, answered⟩ := calling_definitions
  obtain ⟨ref', found, here', has, place, defines⟩ :=
    (definitions_live callingStore_reachable known answered).1 _ (.head _)
  cases here.symm.trans here'
  rw [Workspace.Defines, node] at defines
  obtain ⟨key, isKey, same⟩ := defines
  exact ⟨callingStore_reachable, d, found, key, known, place ▸ answered, has, isKey, same⟩

end Store

end JsonnetNav
