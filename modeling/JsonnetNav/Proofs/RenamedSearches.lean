import JsonnetNav.Proofs.GivenArguments
import JsonnetNav.Proofs.LiveDefinitions
import JsonnetNav.Proofs.MirroredSearches
import JsonnetNav.Proofs.NeededCalls
import JsonnetNav.Proofs.RenamedBindings
import Mathlib

/-! # Definitions under other names

Where a document is alone in its workspace and its variables get other names, all searches mirror
those before, as long as references stand for the same variables and the names of arguments for
the same parameters. So everything is defined where it was.
-/

namespace JsonnetNav

theorem Site.isA_of_enclosing {s t : Site} {cls : NodeClass} {level : Option Int}
    (found : s.enclosing? cls level = some t) : t.node.isA cls := by
  have within (sites : List Site) (level : Option Int)
      (found : enclosingIn cls level sites = some t) : t.node.isA cls := by
    induction sites generalizing level with
    | nil => cases found
    | cons s sites ih =>
        unfold enclosingIn at found
        split at found
        · cases found
        · split at found
          · rename_i isA
            cases found
            exact isA
          · exact ih _ found
  exact within s.outward level found

/-- Every parameter is one of the function around it. -/
theorem Document.Built.mem_parameters {d : Document} {uri : Uri} (built : d.Built uri)
    {param fn : Site} (inside : param ∈ d.sites) {p : Param} (node : param.node = .param p)
    (around : param.enclosing? (.only .fn) (some 1) = some fn) : (param, p) ∈ fn.parameters := by
  rcases Site.parent_of_mem_preorder inside with rfl | ⟨s, -, child⟩
  · obtain ⟨range, body, root⟩ := built.root
    cases node.symm.trans root
  · have here := Site.mem_bindersHere_of_param child node
    obtain ⟨uri', node', above⟩ := s
    cases node' with
    | expr e =>
        cases e with
        | fn range params body =>
            obtain ⟨i, n, listed, rfl⟩ := Site.mem_row.mp here
            obtain ⟨bound, same⟩ := List.getElem?_eq_some_iff.mp listed
            cases same
            cases node
            cases (Site.enclosing_param rfl).symm.trans around
            exact List.mem_mapIdx.mpr ⟨i, bound, rfl⟩
        | _ => cases here
    | bind b =>
        cases List.mem_singleton.mp here
        cases node
    | forSpec clause =>
        cases List.mem_singleton.mp here
        cases node
    | _ => cases here

namespace Workspace

variable {w : Workspace}

/-- What can be found comes from a plan, by things that can be found. -/
theorem CanFind.hands {q : Question} {x : q.Find} (can : w.CanFind q x) :
    (w.plan q).Hands w.CanFind (fun q xs => ∀ x ∈ xs, w.CanFind q x) x :=
  can (fun q x => (w.plan q).Hands w.CanFind (fun q xs => ∀ x ∈ xs, w.CanFind q x) x)
    fun q _ handed => (w.plan q).hands_mono canFind_closed handed

theorem callee_of_canFind {fn call : Site} (can : w.CanFind (.callers fn) call) :
    ∃ range callee args found, call.node = .expr (.call range callee args) ∧
      w.CanFind (.fns (call.part .callee (.expr callee))) found ∧ Site.same found fn := by
  obtain ⟨uri, -, document, -, call', -, handed⟩ := can.hands
  dsimp only at handed
  split at handed
  · rename_i range callee args node
    obtain ⟨found, isFound, handed⟩ := handed
    dsimp only at handed
    split at handed
    · rename_i same
      cases List.mem_singleton.mp handed
      exact ⟨range, callee, args, found, node, isFound, same⟩
    · cases handed
  · cases handed

/-- What is and what can be found. -/
def Finding (w : Workspace) (q : Question) (x : q.Find) : Prop :=
  w.Suits q x ∧ w.CanFind q x

theorem Resolved.keeps_finding (resolved : w.Resolved) {q : Question} (has : w.Has q.site) :
    (w.plan q).Keeps (fun q => w.Has q.site) w.Finding (w.Finding q) := by
  have stays := resolved.stays_plan has
  refine (w.plan q).keeps_of (fun q' asks => stays.asks (fun _ _ _ found => found.1) asks) ?_
  intro x handed
  constructor
  · exact stays.hands (fun _ _ _ found => found.1) handed
  · exact canFind_closed q x ((w.plan q).hands_mono (fun _ _ found => found.2) handed)

/-- The reference names an argument of a call that the function can come to. -/
def PassesTo (w : Workspace) (ref fn : Site) : Prop :=
  ∃ call range callee args, ref.enclosing? (.only .call) (some 2) = some call ∧
    call.node = .expr (.call range callee args) ∧
    w.CanFind (.fns (call.part .callee (.expr callee))) fn

/-- A call that comes to its function gives the parameter by name. -/
def GivenByName (w : Workspace) (param : Site) (p : Param) : Prop :=
  ∃ fn ref id, (param, p) ∈ fn.parameters ∧ w.Has ref ∧ ref.node = .paramRef id ∧
    id.name = p.id.name ∧ w.PassesTo ref fn

/-- The first workspace has one document, and the second has the document with other names in its
    place. -/
structure Renames (f : Renaming) (d : Document) (w w' : Workspace) : Prop where
  built : d.Built d.uri
  faithful : d.Faithful f
  apart : d.ToldApart
  document : ∀ uri, w.document? uri = if uri = d.uri then some d.resolve else none
  document' : ∀ uri, w'.document? uri = if uri = d.uri then some (d.renamed f).resolve else none
  target : ∀ s : Site, w'.importTarget (s.rename f) = w.importTarget s
  importers : ∀ uri, w'.importers uri = w.importers uri
  /-- The name of an argument is the name of the same parameters as before. -/
  args : ∀ ref ∈ d.sites, ∀ id, ref.node = .paramRef id → ∀ fn ∈ d.sites, w.PassesTo ref fn →
    ∀ entry ∈ fn.parameters,
      (f (⟨.id, 0⟩ :: entry.1.path) entry.2.id.name = id.name ↔ entry.2.id.name = id.name)

namespace Renames

variable {f : Renaming} {d : Document} {w' : Workspace}

theorem eq_resolve (renames : Renames f d w w') {uri : Uri} {d' : Document}
    (found : w.document? uri = some d') : uri = d.uri ∧ d' = d.resolve := by
  rw [renames.document, Option.ite_none_right_eq_some] at found
  exact ⟨found.1, (Option.some.inj found.2).symm⟩

theorem document_rename (renames : Renames f d w w') (uri : Uri) :
    w'.document? uri = (w.document? uri).map fun _ => (d.renamed f).resolve := by
  rw [renames.document, renames.document']
  split <;> rfl

theorem resolved (renames : Renames f d w w') : w.Resolved := by
  intro uri d' found
  obtain ⟨rfl, rfl⟩ := renames.eq_resolve found
  exact ⟨d, renames.built, rfl⟩

theorem mem_sites (renames : Renames f d w w') {s : Site} (has : w.Has s) : s ∈ d.sites := by
  obtain ⟨d', found, inside⟩ := has
  obtain ⟨-, rfl⟩ := renames.eq_resolve found
  exact inside

theorem has (renames : Renames f d w w') {s : Site} (inside : s ∈ d.sites) : w.Has s := by
  have sameUri : s.uri = d.uri := (Site.above_of_mem_preorder inside).1
  exact ⟨d.resolve, by rw [renames.document, if_pos sameUri], inside⟩

theorem documentOf (renames : Renames f d w w') {s : Site} (has : w.Has s) :
    w.documentOf? s = some d.resolve ∧
      w'.documentOf? (s.rename f) = some (d.renamed f).resolve := by
  obtain ⟨d', found, -⟩ := has
  obtain ⟨-, rfl⟩ := renames.eq_resolve found
  refine ⟨found, (renames.document_rename s.uri).trans ?_⟩
  rw [found, Option.map_some]

theorem varBinding (renames : Renames f d w w') {s : Site} (has : w.Has s) {id : Ident}
    (node : s.node = .expr (.ref id)) :
    (w'.varBinding? (s.rename f)).map (fun b => (b.id, b.target)) =
      (w.varBinding? s).map fun b => (b.id.rename f, b.target.rename f) := by
  obtain ⟨here, here'⟩ := renames.documentOf has
  rw [varBinding?, here', varBinding?, here]
  exact renames.built.binding_rename renames.faithful (renames.mem_sites has) node

theorem objectScope (renames : Renames f d w w') {s : Site} (has : w.Has s) :
    w'.objectScope? (s.rename f) = (w.objectScope? s).map (FieldScope.rename f) := by
  obtain ⟨here, here'⟩ := renames.documentOf has
  rw [objectScope?, here', objectScope?, here]
  exact FieldScope.ofObject_rename f s

theorem imported (renames : Renames f d w w') {α α' : Type} {g : α → α'} (importee : Site)
    {next : Document → Plan α} {next' : Document → Plan α'}
    (each : (next d.resolve).Mirrors f w.Finding g (next' (d.renamed f).resolve)) :
    (w.imported importee next).Mirrors f w.Finding g (w'.imported (importee.rename f) next') := by
  rw [Workspace.imported, Workspace.imported, renames.target]
  cases w.importTarget importee with
  | error e => exact .fail e
  | ok uri =>
      have documents : uri.bind w'.document? =
          (uri.bind w.document?).map fun _ => (d.renamed f).resolve := by
        rw [Option.map_bind]
        exact Option.bind_congr fun uri _ => renames.document_rename uri
      refine .ofOption_map documents fun d' found => ?_
      obtain ⟨uri, -, here⟩ := Option.bind_eq_some_iff.mp found
      rw [(renames.eq_resolve here).2]
      exact each

/-- A call gives an argument to the same parameters of a function by its name. -/
theorem args_of_call (renames : Renames f d w w') {fn call : Site} (has : w.Has fn)
    (isFn : fn.kind = .fn) (isIn : w.Finding (.callers fn) call) {param : Site} {p : Param}
    (own : (param, p) ∈ fn.parameters) {entry : Site × Arg} (member : entry ∈ call.arguments)
    {id : Ident} (named : entry.2.name = some id) :
    f (⟨.id, 0⟩ :: param.path) p.id.name = id.name ↔ p.id.name = id.name := by
  obtain ⟨range, callee, args, found, node, isFound, same⟩ := callee_of_canFind isIn.2
  have hasCall : w.Has call := isIn.1
  have hasCallee : w.Has (call.part .callee (.expr callee)) :=
    hasCall.part (by simp [node, Node.parts, Expr.parts])
  have hasFound : w.Has found := renames.resolved.suits_of_canFind (q := .fns _) hasCallee isFound
  have itself := (renames.apart.same_iff (renames.mem_sites hasFound) (renames.mem_sites has)
    (.inl isFn)).mp same
  obtain ⟨ref, inside, isName, around⟩ :=
    Document.ref_of_argument (renames.mem_sites hasCall) member named
  exact renames.args ref inside id isName fn (renames.mem_sites has)
    ⟨call, range, callee, args, around, node, itself ▸ isFound⟩ (param, p) own

/-! ## Plans -/

/-- A reference stands for the same place as before. -/
theorem targets (renames : Renames f d w w') {s : Site} (has : w.Has s) {id : Ident}
    (node : s.node = .expr (.ref id)) :
    List.Forall₂ (fun b b' : Binding => b'.target = b.target.rename f) (w.varBinding? s).toList
      (w'.varBinding? (s.rename f)).toList := by
  have same := renames.varBinding has node
  cases before : w.varBinding? s with
  | none =>
      rw [before] at same
      rw [Option.map_eq_none_iff.mp same]
      exact .nil
  | some b =>
      rw [before] at same
      obtain ⟨b', after, same⟩ := Option.map_eq_some_iff.mp same
      rw [after]
      exact .cons (Prod.mk.inj same).2 .nil

theorem mirrors_tails (s : Site) {α α' : Type} {g : α → α'} (next : Site → Plan α)
    (next' : Site → Plan α') (each : ∀ t, (next t).Mirrors f w.Finding g (next' (t.rename f))) :
    (if Site.hasTailPosition s.node then .forEach s.tails next else .none : Plan α).Mirrors
      f w.Finding g
      (if Site.hasTailPosition (s.rename f).node then .forEach (s.rename f).tails next'
        else .none) := by
  have keeps : Site.hasTailPosition (s.rename f).node = Site.hasTailPosition s.node :=
    Node.hasTailPosition_rename f s.path s.node
  rw [keeps]
  split
  · exact .forEach_map (Site.tails_rename f s) fun t _ => each t
  · exact .none

theorem fnPlan (renames : Renames f d w w') {s : Site} (has : w.Has s) :
    (w.fnPlan s).Mirrors f w.Finding (Site.rename f) (w'.fnPlan (s.rename f)) := by
  have find (t : Site) : (Plan.find (.fns t)).Mirrors f w.Finding (Site.rename f)
      (.find (.fns (t.rename f))) := .find (q := .fns t) trivial
  have tails := mirrors_tails s (fun t => (.find (.fns t) : Plan Site))
    (fun t => (.find (.fns t) : Plan Site)) find
  obtain ⟨uri, node, above⟩ := s
  cases node with
  | expr e =>
      cases e with
      | call range callee args =>
          exact .ask trivial fun fn _ => .forEach_map (Site.bodyTails_rename f fn) fun t _ => find t
      | fieldAccess range obj field => exact find _
      | fn range params body => exact .found [_]
      | ref id =>
          refine .forEach (renames.targets has rfl) fun b b' target => ?_
          rw [target]
          exact find b.target
      | importFile range kind importee =>
          cases kind with
          | value => exact renames.imported _ (find _)
          | _ => exact tails
      | _ => exact tails
  | field x =>
      obtain ⟨range, key, value, visibility, inherited⟩ := x
      cases value with
      | fn range params body => exact .found [_]
      | _ => exact .none
  | fieldRef id => exact .ask trivial fun b _ => find b.target
  | _ => exact tails

theorem fieldPlan (ref : Site) :
    (Workspace.fieldPlan ref).Mirrors f w.Finding (FieldBinding.rename f)
      (Workspace.fieldPlan (ref.rename f)) := by
  refine .ofOption_map (Site.enclosing_rename f ref _ _) fun access _ => ?_
  obtain ⟨uri, node, above⟩ := access
  obtain ⟨uri', node', above'⟩ := ref
  cases node with
  | expr e =>
      cases e with
      | fieldAccess range obj field =>
          cases node' with
          | fieldRef id =>
              refine .ask trivial fun scope _ => .found_map ?_
              exact (congrArg _ (FieldScope.get_rename f scope id.name)).trans Option.toList_map
          | _ => exact .none
      | _ => exact .none
  | _ => exact .none

theorem callerPlan (renames : Renames f d w w') {fn : Site} (has : w.Has fn)
    (isFn : fn.kind = .fn) :
    (w.callerPlan fn).Mirrors f w.Finding (Site.rename f) (w'.callerPlan (fn.rename f)) := by
  have sameUri : (fn.rename f).uri = fn.uri := rfl
  rw [Workspace.callerPlan, Workspace.callerPlan, sameUri, renames.importers]
  refine .forEach (List.forall₂_same.mpr fun uri _ => rfl) ?_
  rintro uri _ rfl
  refine .ofOption_map (renames.document_rename uri) fun d' here => ?_
  obtain ⟨-, rfl⟩ := renames.eq_resolve here
  refine .forEach_map renames.built.calls_rename fun call _ => ?_
  obtain ⟨uri, node, above⟩ := call
  cases node with
  | expr e =>
      cases e with
      | call range callee args =>
          refine .ask trivial fun found isIn => ?_
          have same : (Site.rename f found).same (fn.rename f) = Site.same found fn :=
            renames.apart.same_rename (renames.mem_sites isIn.1) (renames.mem_sites has) (.inl isFn)
          change (if Site.same found fn then Plan.found [_] else .none).Mirrors f w.Finding
            (Site.rename f)
            (if (Site.rename f found).same (fn.rename f) then .found [Site.rename f _] else .none)
          rw [same]
          split
          · exact .found [_]
          · exact .none
      | _ => exact .none
  | _ => exact .none

theorem scopePlan (renames : Renames f d w w') {s : Site} (has : w.Has s) :
    (w.scopePlan s).Mirrors f w.Finding (FieldScope.rename f) (w'.scopePlan (s.rename f)) := by
  have find (t : Site) : (Plan.find (.scopes t)).Mirrors f w.Finding (FieldScope.rename f)
      (.find (.scopes (t.rename f))) := .find (q := .scopes t) trivial
  have tails := mirrors_tails s (fun t => (.find (.scopes t) : Plan FieldScope))
    (fun t => (.find (.scopes t) : Plan FieldScope)) find
  have object {t : Site} (isIn : w.Has t) : (Plan.found (w.objectScope? t).toList).Mirrors f
      w.Finding (FieldScope.rename f) (.found (w'.objectScope? (t.rename f)).toList) := by
    refine .found_map ?_
    rw [renames.objectScope isIn, Option.toList_map]
  obtain ⟨uri, node, above⟩ := s
  cases node with
  | expr e =>
      cases e with
      | array range values =>
          let s : Site := ⟨uri, .expr (.array range values), above⟩
          have row : (s.rename f).row .values
              ((Expr.renameRow f (⟨.values, ·⟩ :: s.path) values).map .expr) =
                (s.row .values (values.map .expr)).map (Site.rename f) := by
            rw [Node.map_expr_renameRow]
            exact Site.row_rename f s .values _
          exact .forEach_map row fun t _ => find t
      | binary range op lhs rhs =>
          cases op with
          | plus =>
              refine .gather trivial fun parents _ => .gather trivial fun children _ => ?_
              exact .found_map (FieldScope.extended_rename f parents children)
          | _ => exact tails
      | call range callee args =>
          exact .ask trivial fun fn _ => .forEach_map (Site.bodyTails_rename f fn) fun t _ => find t
      | dollar range =>
          refine .ofOption_map (Site.outermostObject_rename f _) fun outer found => ?_
          exact object (has.outward (Site.mem_outward_of_outermostObject found))
      | fieldAccess range obj field =>
          refine .ask trivial fun b _ => ?_
          obtain ⟨name, id, ⟨uri', node, above'⟩, owner⟩ := b
          cases node with
          | field x =>
              cases x
              exact find _
          | _ => exact .none
      | ref id =>
          refine .forEach (renames.targets has rfl) fun b b' target => ?_
          rw [target]
          exact find b.target
      | importFile range kind importee =>
          cases kind with
          | value => exact renames.imported _ (find _)
          | _ => exact tails
      | object range binds assertions fields => exact object has
      | self range =>
          refine .ofOption_map (Site.enclosing_rename f _ _ _) fun around found => ?_
          exact object (has.outward (Site.mem_outward_of_enclosing found))
      | _ => exact tails
  | forSpec clause =>
      cases clause
      exact find _
  | fieldRef id => exact .ofOption_map (Site.parent_rename f _) fun t _ => find t
  | param p =>
      refine .append (.ofOption_map (Param.default_rename f _ p) fun e _ => find _) ?_
      refine .ofOption_map (Site.enclosing_rename f _ _ _) fun fn around => ?_
      have isFn : fn.kind = .fn := of_decide_eq_true (Site.isA_of_enclosing around)
      refine .ask isFn fun call isIn => ?_
      have isParam := renames.mem_sites has
      have own := renames.built.mem_parameters isParam rfl around
      have given := renames.apart.argOfParam_rename isParam rfl fun entry member id named =>
        renames.args_of_call (has.outward (Site.mem_outward_of_enclosing around)) isFn isIn own
          member named
      exact .ofOption_map given fun value _ => find value
  | _ => exact tails

theorem plan (renames : Renames f d w w') {q : Question} (has : w.Has q.site)
    (proper : q.Proper) :
    (w.plan q).Mirrors f w.Finding (q.renameFind f) (w'.plan (q.rename f)) := by
  cases q with
  | scopes s => exact renames.scopePlan has
  | fns s => exact renames.fnPlan has
  | fields ref => exact fieldPlan ref
  | callers fn => exact renames.callerPlan has proper

/-- The call can be one of the function at a place. -/
def IsCallOf (w : Workspace) (place : Location) (call : Site) : Prop :=
  ∀ fn, w.Has fn → fn.kind = .fn → fn.location = place → w.Finding (.callers fn) call

/-- A question about a place of the document with other names is answered as the question about
    the place of the document itself. -/
theorem search (renames : Renames f d w w') (depth : Nat) {q : Question} (has : w.Has q.site)
    (proper : q.Proper) :
    Search.Mirrors (Run.mirroring f (IsCallOf w))
      (fun x x' => w.Finding q x ∧ x' = q.renameFind f x)
      (w.search depth q) (w'.search depth (q.rename f)) := by
  induction depth generalizing q with
  | zero => exact .fail .tooDeep
  | succ depth ih =>
      have planned := (renames.plan has proper).run (renames.resolved.keeps_finding has)
        fun q' asked isProper => ih asked isProper
      have file : (q.rename f).site.demandFile = q.site.demandFile := by
        rw [Question.site_rename]
        rfl
      rw [Workspace.search, Workspace.search, file]
      cases q.site.demandFile with
      | error e => exact .fail e
      | ok _ =>
          cases q with
          | callers fn =>
              change Search.Mirrors _ _ (.sharedCalls _ fn.location _)
                (.sharedCalls _ (fn.rename f).location _)
              rw [Site.location_rename]
              -- in the table the calls are those of the function at this place, which is `fn`
              have listed : ∀ call call', w.Finding (.callers fn) call ∧ call' = call.rename f →
                  IsCallOf w fn.location call ∧ call' = call.rename f := by
                rintro call _ ⟨isIn, rfl⟩
                refine ⟨fun fn' has' isFn' place => ?_, rfl⟩
                have same := renames.apart fn' (renames.mem_sites has') fn (renames.mem_sites has)
                  (isFn'.trans proper.symm) (.inl isFn') (congrArg Location.range place)
                rw [same]
                exact isIn
              refine ((planned.imp listed).sharedCalls _).imp ?_
              rintro call _ ⟨isCall, rfl⟩
              exact ⟨isCall fn has proper rfl, rfl⟩
          | _ => exact planned

/-! ## Definitions -/

/-- The variable of a parameter is found where it was. -/
theorem paramBindings (renames : Renames f d w w') {param : Site} {p : Param}
    (inside : param ∈ d.sites) (node : param.node = .param p) :
    List.Forall₂ (fun b b' : Binding => b'.id.location = b.id.location)
      ((w.documentOf? param).bind (·.bindingOf? (param.part .id (.var p.id)))).toList
      ((w'.documentOf? (param.rename f)).bind
        (·.bindingOf? ((param.rename f).part .id (.var (p.rename f param.path).id)))).toList := by
  obtain ⟨here, here'⟩ := renames.documentOf (renames.has inside)
  have nodeNew : (param.rename f).node = .param (p.rename f param.path) := by
    rw [Site.rename, node]
    rfl
  obtain ⟨b, found, place⟩ := renames.built.bindingOf_param inside node
  obtain ⟨b', found', place'⟩ := (renames.built.renamed f).bindingOf_param
    (Document.mem_sites_renamed inside) nodeNew
  have same : b'.id.location = b.id.location := by
    rw [place', place, Param.id_rename]
    exact Site.location_rename f (param.part .id (.var p.id))
  rw [here, here', Option.bind_some, Option.bind_some, found, found']
  exact .cons same .nil

theorem paramPlan (renames : Renames f d w w') {ref : Site} (has : w.Has ref) :
    (w.paramPlan ref).Mirrors f w.Finding id (w'.paramPlan (ref.rename f)) := by
  refine .ofOption_map (Site.enclosing_rename f ref _ _) fun call around => ?_
  have isRef := renames.mem_sites has
  obtain ⟨uri, node, above⟩ := call
  obtain ⟨uri', node', above'⟩ := ref
  cases node with
  | expr e =>
      cases e with
      | call range callee args =>
          cases node' with
          | paramRef ident =>
              refine .ask trivial fun fn isIn => ?_
              refine .forEach_map (Site.parameters_rename f fn) fun entry member => ?_
              obtain ⟨inside, node⟩ := Document.param_of_mem (renames.mem_sites isIn.1) member
              obtain ⟨param, p⟩ := entry
              have names : (p.rename f param.path).id.name = ident.name ↔
                  p.id.name = ident.name := by
                rw [Param.id_rename]
                exact renames.args _ isRef ident rfl fn (renames.mem_sites isIn.1)
                  ⟨_, range, callee, args, around, rfl, isIn.2⟩ (param, p) member
              dsimp only
              simp only [names]
              split
              · refine .forEach (renames.paramBindings inside node) fun b b' same => .found_map ?_
                rw [same]
                rfl
              · exact .none
          | _ => exact .none
      | _ => exact .none
  | _ => exact .none

theorem definitionPlan (renames : Renames f d w w') {s : Site} (has : w.Has s) :
    (w.definitionPlan s).Mirrors f w.Finding id (w'.definitionPlan (s.rename f)) := by
  obtain ⟨uri, node, above⟩ := s
  cases node with
  | fieldRef ref =>
      refine .ask trivial fun b _ => .found_map ?_
      exact congrArg (fun l => [l]) (Site.location_rename f b.id)
  | paramRef ref => exact renames.paramPlan has
  | importee i =>
      refine renames.imported _ (.found_map ?_)
      exact congrArg (fun l => [l]) (Site.location_rename f d.site)
  | expr e =>
      cases e with
      | ref ident =>
          have places := congrArg (Option.map fun entry => entry.1.location)
            (renames.varBinding has rfl)
          simp only [Option.map_map, Function.comp_def, Site.location_rename] at places
          refine .found_map ?_
          rw [List.map_id]
          exact congrArg Option.toList places
      | _ => exact .none
  | _ => exact .none

/-- Every name is defined where it was. -/
theorem definitions (renames : Renames f d w w') (target : Range) (depth : Nat) :
    w'.definitions (d.renamed f).resolve target depth = w.definitions d.resolve target depth := by
  have node : (d.renamed f).resolve.nodeAt? target =
      (d.resolve.nodeAt? target).map (Site.rename f) := Site.nodeAt_rename f d.site target
  cases here : d.resolve.nodeAt? target with
  | none =>
      rw [here] at node
      simp only [Workspace.definitions, here, node, Option.map_none]
      rfl
  | some s =>
      rw [here] at node
      have has := renames.has (Site.mem_preorder_of_nodeAt here)
      have stays := renames.resolved.stays_definitionPlan has
      have keeps : (w.definitionPlan s).Keeps (fun q => w.Has q.site) w.Finding fun _ => True :=
        (w.definitionPlan s).keeps_of (fun q asks => stays.asks (fun _ _ _ found => found.1) asks)
          fun _ _ => trivial
      have found := (renames.definitionPlan has).run keeps
        fun q asked proper => renames.search depth asked proper
      rw [definitions_at rfl here, definitions_at rfl node, found.results]
      rfl

end Renames

end Workspace

end JsonnetNav
