import JsonnetNav.Proofs.Listings
import JsonnetNav.Proofs.RelatedSearches
import JsonnetNav.Proofs.SharedCalls
import JsonnetNav.Proofs.TailPositions
import Mathlib

/-! # Searches stay inside of the documents

A search starts at a site of a document and goes on from what it found before, or from a
table of calls that other searches have filled. Where all documents are resolved, each step
leads to a site of a document again. So whatever is found lies in the documents, and a
field is found under the name in its key.
-/

namespace JsonnetNav

/-- The table holds good calls only. -/
def CallerTable.Holds (good : Site → Prop) (t : CallerTable) : Prop :=
  ∀ fn calls, t.find? fn = some calls → ∀ call ∈ calls, good call

namespace CallerTable.Holds

variable {good : Site → Prop} {t : CallerTable}

theorem nil : Holds good [] := by
  intro fn calls found
  cases found

theorem start (holds : t.Holds good) (fn : Location) : (t.start fn).Holds good := by
  intro fn' calls found call member
  rw [find?_start] at found
  split at found
  · cases found
    simp at member
  · exact holds fn' calls found call member

theorem add (holds : t.Holds good) (fn : Location) {call : Site} (isGood : good call) :
    (t.add fn call).Holds good := by
  intro fn' calls found call' member
  rw [find?_add] at found
  split at found
  · obtain ⟨before, was, same⟩ := Option.map_eq_some_iff.mp found
    rw [← same] at member
    rcases Array.mem_push.mp member with older | rfl
    · exact holds fn' before was call' older
    · exact isGood
  · exact holds fn' calls found call' member

end CallerTable.Holds

/-- With good calls in the table, the runs fail alike, or else their results are related and
    they leave the same table with good calls. -/
def Run.Agree {β γ : Type} (good : Site → Prop) (rel : β → γ → Prop) (run : Run β)
    (run' : Run γ) : Prop :=
  ∀ t, t.Holds good →
    (∃ e, run t = .error e ∧ run' t = .error e) ∨
    ∃ b c u, run t = .ok (b, u) ∧ run' t = .ok (c, u) ∧ rel b c ∧ u.Holds good

namespace Run.Agree

variable {β γ β' γ' : Type} {good : Site → Prop} {rel : β → γ → Prop} {rel' : β' → γ' → Prop}

theorem fail (error : QueryError) : Agree good rel (throw error) (throw error) :=
  fun _ _ => .inl ⟨error, rfl, rfl⟩

theorem pure {b : β} {c : γ} (related : rel b c) : Agree good rel (pure b) (pure c) :=
  fun t holds => .inr ⟨b, c, t, rfl, rfl, related, holds⟩

theorem bind {run : Run β} {run' : Run γ} {next : β → Run β'} {next' : γ → Run γ'}
    (first : Agree good rel run run') (rest : ∀ b c, rel b c → Agree good rel' (next b) (next' c)) :
    Agree good rel' (run >>= next) (run' >>= next') := by
  intro t holds
  have unfolded : (run >>= next) t = (run t >>= fun out => next out.1 out.2) := rfl
  have unfolded' : (run' >>= next') t = (run' t >>= fun out => next' out.1 out.2) := rfl
  rw [unfolded, unfolded']
  rcases first t holds with ⟨e, one, two⟩ | ⟨b, c, u, one, two, related, holds⟩
  · rw [one, two]
    exact .inl ⟨e, rfl, rfl⟩
  · rw [one, two]
    exact rest b c related u holds

end Run.Agree

/-- Runs that agree where the calls in the table are good. -/
def Run.agreement (good : Site → Prop) : RunRelation where
  Holds := Agree good
  fail _ := .fail
  pure := .pure
  bind := .bind

/-- The searches hand over the same finds, of the given kind, and fail alike. -/
abbrev Search.Agree {α : Type} (good : Site → Prop) (kind : α → Prop) (search search' : Search α) :
    Prop :=
  Search.Related (Run.agreement good) kind search search'

/-- The search hands over finds of the given kind only. -/
abbrev Search.Only {α : Type} (good : Site → Prop) (kind : α → Prop) (search : Search α) : Prop :=
  Search.Agree good kind search search

namespace Search.Related

variable {α β : Type} {good : Site → Prop} {kind : α → Prop} {search search' : Search α}

theorem readCalls {γ : Type} {rel : β → γ → Prop} {step : β → Site → Run β}
    {step' : γ → Site → Run γ}
    (steps : ∀ b c call, rel b c → good call → Run.Agree good rel (step b call) (step' c call))
    (fn : Location) (rounds index : Nat) {b : β} {c : γ} (related : rel b c) :
    Run.Agree good rel (Search.readCalls fn step rounds index b)
      (Search.readCalls fn step' rounds index c) := by
  induction rounds generalizing index b c with
  | zero => exact .fail .tooDeep
  | succ rounds ih =>
      intro t holds
      rw [readCalls_succ, readCalls_succ]
      split
      · exact .inr ⟨b, c, t, rfl, rfl, related, holds⟩
      · have each : ∀ b c, ∀ call ∈ t.callsFrom fn index, rel b c →
            Run.Agree good rel (step b call) (step' c call) := by
          intro b c call member related
          obtain ⟨calls, inTable, here⟩ := CallerTable.mem_of_callsFrom member
          exact steps b c call related (holds fn calls inTable call here)
        have read := (Run.agreement good).foldlM each related
        exact Run.Agree.bind read (fun b c related => ih _ related) t holds

/-- It does not matter which search has filled the table. -/
theorem sharedCalls {collect collect' : Search Site} (collects : Agree good good collect collect')
    (rounds : Nat) (fn : Location) :
    Agree good good (.sharedCalls rounds fn collect) (.sharedCalls rounds fn collect') := by
  intro γ δ rel step step' steps b c related t holds
  have reads := readCalls steps fn rounds 0 related
  rw [sharedCalls_fold, sharedCalls_fold]
  split
  · have fills : Run.Agree good (fun _ _ => True)
        (collect.fold (fun _ call => modify (·.add fn call)) ())
        (collect'.fold (fun _ call => modify (·.add fn call)) ()) := by
      apply collects _ _ _ _ _ _ () () trivial
      intro _ _ call _ isGood t holds
      exact .inr ⟨(), (), t.add fn call, rfl, rfl, trivial, holds.add fn isGood⟩
    exact (fills.bind fun _ _ _ => reads) _ (holds.start fn)
  · exact reads t holds

theorem results_eq (search : Search α) :
    search.results =
      (search.fold (fun found x => pure (found.push x)) #[] []).map fun out => out.1.toList := by
  have unfolded : search.results =
      Prod.fst <$> (search.fold (fun found x => pure (found.push x)) #[] [] >>= fun out =>
        .ok (out.1.toList, out.2)) := rfl
  rw [unfolded]
  cases search.fold (fun found x => pure (found.push x)) #[] [] <;> rfl

/-- An image of what is found is an image of the same finds. -/
theorem results_map (agree : Agree good kind search search') (g : α → β) :
    (search >>= fun x => .each [g x]).results = search'.results.map (List.map g) ∧
      ∀ xs, search'.results = .ok xs → ∀ x ∈ xs, kind x := by
  have pushes : (search >>= fun x => .each [g x]).fold (fun found y => pure (found.push y)) #[] =
      search.fold (fun found x => pure (found.push (g x))) (#[] : Array β) := rfl
  rw [results_eq, results_eq, pushes]
  rcases agree.collect g [] (.nil) with
    ⟨e, one, two⟩ | ⟨image, found, t, one, two, related, -⟩
  · rw [one, two]
    exact ⟨rfl, fun xs done => by cases done⟩
  · rw [one, two]
    refine ⟨congrArg Except.ok related.1, fun xs done x member => ?_⟩
    cases done
    exact related.2 x (Array.mem_toList_iff.mp member)

theorem results_image (agree : Agree good kind search search') (g : α → β)
    {ys : List β} (done : (search >>= fun x => .each [g x]).results = .ok ys) :
    ∃ xs, search'.results = .ok xs ∧ ys = xs.map g ∧ ∀ x ∈ xs, kind x := by
  obtain ⟨image, kinds⟩ := agree.results_map g
  rw [image] at done
  cases found : search'.results with
  | error e =>
      rw [found] at done
      cases done
  | ok xs =>
      rw [found] at done
      cases done
      exact ⟨xs, rfl, rfl, kinds xs found⟩

/-- Searches that agree find the same. -/
theorem results (agree : Agree good kind search search') : search.results = search'.results := by
  have image : search.results = search'.results.map (List.map id) := (agree.results_map id).1
  rw [image]
  cases search'.results with
  | error e => rfl
  | ok xs => exact congrArg Except.ok (List.map_id xs)

end Search.Related

namespace Site

theorem outward_of_child {s c : Site} (child : c ∈ s.children) : c.outward = c :: s.outward := by
  obtain ⟨edge, -, rfl⟩ := mem_children.mp child
  rfl

theorem mem_of_enclosingIn {cls : NodeClass} {level : Option Int} {sites : List Site} {t : Site}
    (found : enclosingIn cls level sites = some t) : t ∈ sites := by
  induction sites generalizing level with
  | nil => simp [enclosingIn] at found
  | cons s sites ih =>
      unfold enclosingIn at found
      split at found
      · cases found
      · split at found
        · cases found
          exact .head _
        · exact .tail _ (ih found)

theorem mem_outward_of_enclosing {s t : Site} {cls : NodeClass} {level : Option Int}
    (found : s.enclosing? cls level = some t) : t ∈ s.outward :=
  mem_of_enclosingIn found

theorem mem_outward_of_outermostObject {s t : Site} (found : s.outermostObject? = some t) :
    t ∈ s.outward :=
  List.mem_of_mem_filter (List.mem_of_getLast? found)

theorem mem_outward_of_parent {s p : Site} (parent : s.parent? = some p) : p ∈ s.outward := by
  obtain ⟨uri, node, above⟩ := s
  cases above with
  | nil => cases parent
  | cons edge above =>
      cases parent
      exact .tail _ (.head _)

end Site

/-- The nodes around a node of a document are in the document, too. -/
theorem Document.mem_sites_of_outward {d : Document} {s t : Site} (inside : s ∈ d.sites)
    (outer : t ∈ s.outward) : t ∈ d.sites := by
  rcases Site.parent_of_mem_preorder inside with rfl | ⟨p, around, child⟩
  · cases List.mem_singleton.mp outer
    exact inside
  · have above : p.above.length < s.above.length := by
      obtain ⟨edge, -, rfl⟩ := Site.mem_children.mp child
      exact Nat.lt_succ_self _
    rw [Site.outward_of_child child] at outer
    cases outer with
    | head => exact inside
    | tail _ further => exact mem_sites_of_outward around further
termination_by s.above.length

namespace Workspace

/-- The site is one of a document of the workspace. -/
def Has (w : Workspace) (s : Site) : Prop :=
  ∃ d, w.document? s.uri = some d ∧ s ∈ d.sites

/-- The documents of the workspace are resolved, each of them once. -/
def Resolved (w : Workspace) : Prop :=
  ∀ uri d, w.document? uri = some d → ∃ d₀ : Document, d₀.Built uri ∧ d = d₀.resolve

/-- The binding is that of a field of the workspace under the name in its key. -/
structure Binds (w : Workspace) (b : FieldBinding) : Prop where
  id : w.Has b.id
  target : w.Has b.target
  name : ∃ id, b.id.node = .fieldName id ∧ id.name = b.name

def Scopes (w : Workspace) (scope : FieldScope) : Prop :=
  ∀ layer ∈ scope.layers, ∀ b ∈ layer.bindings, w.Binds b

/-- What an answer to a question in the workspace may consist of. -/
def Suits (w : Workspace) : (q : Question) → q.Find → Prop
  | .scopes _, scope => w.Scopes scope
  | .fns _, fn => w.Has fn
  | .fields ref, b => w.Binds b ∧ ref.hasName b.name
  | .callers _, call => w.Has call

end Workspace

/-- Where questions about the workspace have suitable answers, the plan asks such questions
    only and finds things of the given kind. -/
abbrev Plan.Stays {α : Type} (w : Workspace) (kind : α → Prop) (p : Plan α) : Prop :=
  p.Keeps (fun q => w.Has q.site) w.Suits kind

namespace Plan

variable {α β : Type} {w : Workspace} {kind : α → Prop}

theorem stays_none : (none : Plan α).Stays w kind := by
  intro x member
  cases member

theorem stays_ofOption {x : Option β} {next : β → Plan α}
    (stays : ∀ y, x = some y → (next y).Stays w kind) : (ofOption x next).Stays w kind :=
  fun y member => stays y (Option.mem_toList.mp member)

theorem stays_find {q : Question} (has : w.Has q.site) : (find q).Stays w (w.Suits q) := by
  refine ⟨has, fun x suits y member => ?_⟩
  cases List.mem_singleton.mp member
  exact suits

end Plan

namespace Workspace

variable {w : Workspace}

theorem Has.below {s t : Site} (has : w.Has s) (below : t ∈ s.preorder) : w.Has t := by
  obtain ⟨d, found, inside⟩ := has
  refine ⟨d, ?_, Site.mem_preorder_trans inside below⟩
  rw [(Site.above_of_mem_preorder below).1]
  exact found

theorem Has.part {s : Site} (has : w.Has s) {role : Role} {n : Node}
    (listed : .child role n ∈ s.node.parts) : w.Has (s.part role n) :=
  has.below (Site.mem_preorder_of_part listed (.head _))

theorem Has.outward {s t : Site} (has : w.Has s) (outer : t ∈ s.outward) : w.Has t := by
  obtain ⟨d, found, inside⟩ := has
  have member := Document.mem_sites_of_outward inside outer
  refine ⟨d, ?_, member⟩
  rw [(Site.above_of_mem_preorder member).1, ← (Site.above_of_mem_preorder inside).1]
  exact found

theorem Resolved.has (resolved : w.Resolved) {uri : Uri} {d : Document}
    (found : w.document? uri = some d) {s : Site} (inside : s ∈ d.sites) : w.Has s := by
  obtain ⟨d₀, built, rfl⟩ := resolved uri d found
  have same : s.uri = uri := (Site.above_of_mem_preorder inside).1.trans built.uri
  exact ⟨_, same ▸ found, inside⟩

theorem Resolved.has_call (resolved : w.Resolved) {uri : Uri} {d : Document}
    (found : w.document? uri = some d) {call : Site} (listed : call ∈ d.calls) : w.Has call := by
  obtain ⟨d₀, built, rfl⟩ := resolved uri d found
  exact resolved.has found (built.call_mem_sites listed)

theorem Resolved.has_target (resolved : w.Resolved) {ref : Site} {b : Binding}
    (found : w.varBinding? ref = some b) : w.Has b.target := by
  obtain ⟨d, here, binds⟩ := Option.bind_eq_some_iff.mp found
  obtain ⟨d₀, built, rfl⟩ := resolved ref.uri d here
  exact resolved.has here (built.target_mem_sites binds)

theorem binds_ofField {object : Site} (has : w.Has object) {i : Nat} {f : Field}
    (child : object.down ⟨.fields, i⟩ (.field f) ∈ object.children) {b : FieldBinding}
    (found : FieldBinding.ofField? object i f = some b) : w.Binds b := by
  have target := has.below (Site.mem_preorder_of_child child)
  obtain ⟨id, fixed, same⟩ := Option.map_eq_some_iff.mp found
  cases key : f.key with
  | computed range e =>
      rw [key] at fixed
      cases fixed
  | fixed range id' =>
      rw [key] at fixed
      cases fixed
      cases same
      refine ⟨?_, target, id, rfl, rfl⟩
      have inField : w.Has ((object.down ⟨.fields, i⟩ (.field f)).part .key (.key f.key)) :=
        target.part (by simp [Site.down, Node.parts])
      exact inField.part (by simp [Site.part, Site.down, key, Node.parts])

theorem scopes_objectScope {object : Site} (has : w.Has object) {scope : FieldScope}
    (found : w.objectScope? object = some scope) : w.Scopes scope := by
  obtain ⟨d, -, known⟩ := Option.bind_eq_some_iff.mp found
  unfold Document.fieldScope? at known
  split at known
  · unfold FieldScope.ofObject? at known
    split at known
    · rename_i range binds assertions fields node
      cases known
      intro layer inScope b member
      cases List.mem_singleton.mp inScope
      obtain ⟨_, listed, rfl⟩ := List.mem_filterMap.mp (List.mem_reverse.mp member)
      obtain ⟨i, bound, ofField⟩ := List.mem_mapIdx.mp listed
      have child : object.down ⟨.fields, i⟩ (.field fields[i]) ∈ object.children :=
        Site.mem_children_of_row (by simp [node, Node.parts, Expr.parts]) bound
      exact binds_ofField has child ofField
    · cases known
  · cases known

theorem binds_get {scope : FieldScope} (scopes : w.Scopes scope) {name : Text} {b : FieldBinding}
    (found : scope.get? name = some b) : w.Binds b ∧ b.name = name := by
  obtain ⟨layer, inScope, first⟩ := List.exists_of_findSome?_eq_some found
  refine ⟨scopes layer inScope b (List.mem_of_find?_eq_some first), ?_⟩
  simpa using List.find?_some first

theorem scopes_extended {parents children : List FieldScope}
    (outer : ∀ scope ∈ parents, w.Scopes scope) (inner : ∀ scope ∈ children, w.Scopes scope)
    {scope : FieldScope} (member : scope ∈ extended parents children) : w.Scopes scope := by
  unfold extended at member
  split at member
  · exact inner scope member
  · split at member
    · exact outer scope member
    · obtain ⟨parent, isParent, mapped⟩ := List.mem_flatMap.mp member
      obtain ⟨child, isChild, rfl⟩ := List.mem_map.mp mapped
      intro layer inScope b binds
      rcases List.mem_cons.mp inScope with rfl | further
      · exact inner child isChild child.layer (.head _) b binds
      · rcases List.mem_cons.mp further with rfl | rest
        · exact outer parent isParent parent.layer (.head _) b binds
        · exact outer parent isParent layer (.tail _ rest) b binds

theorem Has.argument {call : Site} (has : w.Has call) {entry : Site × Arg}
    (member : entry ∈ call.arguments) : w.Has entry.1 := by
  unfold Site.arguments at member
  split at member
  · rename_i range callee args node
    obtain ⟨i, bound, rfl⟩ := List.mem_mapIdx.mp member
    have child : call.down ⟨.args, i⟩ (.arg args[i]) ∈ call.children :=
      Site.mem_children_of_row (by simp [node, Node.parts, Expr.parts]) bound
    exact (has.below (Site.mem_preorder_of_child child)).part (by simp [Site.down, Node.parts])
  · cases member

theorem has_argOfParam {call param value : Site} (has : w.Has call)
    (found : call.argOfParam? param = some value) : w.Has value := by
  unfold Site.argOfParam? at found
  split at found
  · split at found
    · rename_i byName
      cases found
      obtain ⟨entry, first, rfl⟩ := Option.map_eq_some_iff.mp byName
      exact has.argument (List.mem_of_find?_eq_some first)
    · obtain ⟨fn, -, rest⟩ := Option.bind_eq_some_iff.mp found
      obtain ⟨index, -, byPosition⟩ := Option.bind_eq_some_iff.mp rest
      unfold Site.argByPosition? at byPosition
      split at byPosition
      · cases byPosition
      · obtain ⟨entry, here, rfl⟩ := Option.map_eq_some_iff.mp byPosition
        exact has.argument (List.mem_of_getElem? here)
  · cases found

theorem has_bodyTails {fn tail : Site} (has : w.Has fn) (member : tail ∈ fn.bodyTails) :
    w.Has tail := by
  unfold Site.bodyTails at member
  split at member
  · rename_i range params body node
    have inFn : w.Has (fn.part .body (.expr body)) :=
      has.part (by simp [node, Node.parts, Expr.parts])
    exact inFn.below (Site.mem_preorder_of_tails member)
  · cases member

theorem Resolved.stays_imported (resolved : w.Resolved) {α : Type} {kind : α → Prop}
    {importee : Site} {next : Document → Plan α}
    (stays : ∀ d : Document, w.Has d.site → (next d).Stays w kind) :
    (w.imported importee next).Stays w kind := by
  unfold imported
  split
  · apply Plan.stays_ofOption
    intro d found
    obtain ⟨uri, -, here⟩ := Option.bind_eq_some_iff.mp found
    exact stays d (resolved.has here (Site.mem_preorder_self d.site))
  · trivial

theorem stays_fieldPlan {ref : Site} (has : w.Has ref) :
    (fieldPlan ref).Stays w (w.Suits (.fields ref)) := by
  apply Plan.stays_ofOption
  intro access around
  have hasAccess := has.outward (Site.mem_outward_of_enclosing around)
  split
  · rename_i range obj field id node name
    refine ⟨hasAccess.part (by simp [node, Node.parts, Expr.parts]), ?_⟩
    intro scope scopes b member
    obtain ⟨binds, same⟩ := binds_get scopes (Option.mem_toList.mp member)
    exact ⟨binds, by simp [Site.hasName, name, same]⟩
  · exact Plan.stays_none

theorem Resolved.stays_callerPlan (resolved : w.Resolved) (fn : Site) :
    (w.callerPlan fn).Stays w w.Has := by
  intro uri _
  apply Plan.stays_ofOption
  intro d found call listed
  have has := resolved.has_call found listed
  dsimp only
  split
  · rename_i range callee args node
    refine ⟨has.part (by simp [node, Node.parts, Expr.parts]), fun fn' _ => ?_⟩
    dsimp only
    split
    · intro x member
      cases List.mem_singleton.mp member
      exact has
    · exact Plan.stays_none
  · exact Plan.stays_none

/-- The ways to the field scopes of a node, by what the node is. -/
inductive ScopeWay (w : Workspace) (s : Site) : Plan FieldScope → Prop where
  | array {range : Range} {values : List Expr} (node : s.node = .expr (.array range values)) :
      ScopeWay w s
        (.forEach (s.row .values (values.map .expr)) fun value => .find (.scopes value))
  | plus {range : Range} {lhs rhs : Expr} (node : s.node = .expr (.binary range .plus lhs rhs)) :
      ScopeWay w s
        (.gather (.scopes (s.part .lhs (.expr lhs))) fun parents =>
          .gather (.scopes (s.part .rhs (.expr rhs))) fun children =>
            .found (extended parents children))
  | call {range : Range} {callee : Expr} {args : List Arg}
      (node : s.node = .expr (.call range callee args)) :
      ScopeWay w s
        (.ask (.fns (s.part .callee (.expr callee))) fun fn =>
          .forEach fn.bodyTails fun tail => .find (.scopes tail))
  | dollar {range : Range} (node : s.node = .expr (.dollar range)) :
      ScopeWay w s
        (.ofOption s.outermostObject? fun object => .found (w.objectScope? object).toList)
  | fieldAccess {range : Range} {obj : Expr} {field : Ident}
      (node : s.node = .expr (.fieldAccess range obj field)) :
      ScopeWay w s
        (.ask (.fields (s.part .field (.fieldRef field))) fun binding =>
          match binding.target.node with
          | .field f => .find (.scopes (binding.target.part .value (.expr f.value)))
          | _ => .none)
  | forSpec {f : ForSpec} (node : s.node = .forSpec f) :
      ScopeWay w s (.find (.scopes (s.part .source (.expr f.source))))
  | fieldRef {id : Ident} (node : s.node = .fieldRef id) :
      ScopeWay w s (.ofOption s.parent? fun access => .find (.scopes access))
  | ref {id : Ident} (node : s.node = .expr (.ref id)) :
      ScopeWay w s (.ofOption (w.varBinding? s) fun binding => .find (.scopes binding.target))
  | importFile {range : Range} {importee : Importee}
      (node : s.node = .expr (.importFile range .value importee)) :
      ScopeWay w s
        (w.imported (s.part .importee (.importee importee)) fun document =>
          .find (.scopes document.site))
  | object {range : Range} {binds : List LocalBind} {assertions : List Assertion}
      {fields : List Field} (node : s.node = .expr (.object range binds assertions fields)) :
      ScopeWay w s (.found (w.objectScope? s).toList)
  | param {p : Param} (node : s.node = .param p) :
      ScopeWay w s
        (.append
          (.ofOption p.default fun e => .find (.scopes (s.part .default (.expr e))))
          (.ofOption (s.enclosing? (.only .fn) (some 1)) fun fn =>
            .ask (.callers fn) fun call =>
              .ofOption (call.argOfParam? s) fun value => .find (.scopes value)))
  | self {range : Range} (node : s.node = .expr (.self range)) :
      ScopeWay w s
        (.ofOption (s.enclosing? (.only .object)) fun object =>
          .found (w.objectScope? object).toList)
  | tails (has : Site.hasTailPosition s.node) :
      ScopeWay w s (.forEach s.tails fun tail => .find (.scopes tail))
  | none : ScopeWay w s .none

/-- The way that a plan takes to the field scopes of a node. -/
theorem scopeWay (w : Workspace) (s : Site) : ScopeWay w s (w.scopePlan s) := by
  have other : ScopeWay w s
      (if Site.hasTailPosition s.node then .forEach s.tails fun tail => .find (.scopes tail)
        else .none) := by
    split
    · exact .tails ‹_›
    · exact .none
  rw [scopePlan]
  cases node : s.node with
  | expr e =>
      rw [node] at other
      cases e with
      | array range values => exact .array node
      | binary range op lhs rhs =>
          cases op with
          | plus => exact .plus node
          | _ => exact other
      | call range callee args => exact .call node
      | dollar range => exact .dollar node
      | fieldAccess range obj field => exact .fieldAccess node
      | ref id => exact .ref node
      | importFile range kind importee =>
          cases kind with
          | value => exact .importFile node
          | _ => exact other
      | object range binds assertions fields => exact .object node
      | self range => exact .self node
      | _ => exact other
  | forSpec f => exact .forSpec node
  | fieldRef id => exact .fieldRef node
  | param p => exact .param node
  | _ =>
      rw [node] at other
      exact other

/-- The ways to the functions that a node can stand for, by what the node is. -/
inductive FnWay (w : Workspace) (s : Site) : Plan Site → Prop where
  | call {range : Range} {callee : Expr} {args : List Arg}
      (node : s.node = .expr (.call range callee args)) :
      FnWay w s
        (.ask (.fns (s.part .callee (.expr callee))) fun fn =>
          .forEach fn.bodyTails fun tail => .find (.fns tail))
  | method {f : Field} (node : s.node = .field f) :
      FnWay w s (.found [s.part .value (.expr f.value)])
  | fieldAccess {range : Range} {obj : Expr} {field : Ident}
      (node : s.node = .expr (.fieldAccess range obj field)) :
      FnWay w s (.find (.fns (s.part .field (.fieldRef field))))
  | fn {range : Range} {params : List Param} {body : Expr}
      (node : s.node = .expr (.fn range params body)) :
      FnWay w s (.found [s])
  | fieldRef {id : Ident} (node : s.node = .fieldRef id) :
      FnWay w s (.ask (.fields s) fun binding => .find (.fns binding.target))
  | ref {id : Ident} (node : s.node = .expr (.ref id)) :
      FnWay w s (.ofOption (w.varBinding? s) fun binding => .find (.fns binding.target))
  | importFile {range : Range} {importee : Importee}
      (node : s.node = .expr (.importFile range .value importee)) :
      FnWay w s
        (w.imported (s.part .importee (.importee importee)) fun document =>
          .find (.fns document.site))
  | tails (has : Site.hasTailPosition s.node) :
      FnWay w s (.forEach s.tails fun tail => .find (.fns tail))
  | none : FnWay w s .none

/-- The way that a plan takes to the functions that a node can stand for. -/
theorem fnWay (w : Workspace) (s : Site) : FnWay w s (w.fnPlan s) := by
  have other : FnWay w s
      (if Site.hasTailPosition s.node then .forEach s.tails fun tail => .find (.fns tail)
        else .none) := by
    split
    · exact .tails ‹_›
    · exact .none
  rw [fnPlan]
  cases node : s.node with
  | expr e =>
      rw [node] at other
      cases e with
      | call range callee args => exact .call node
      | fieldAccess range obj field => exact .fieldAccess node
      | fn range params body => exact .fn node
      | ref id => exact .ref node
      | importFile range kind importee =>
          cases kind with
          | value => exact .importFile node
          | _ => exact other
      | _ => exact other
  | field f =>
      dsimp only
      split
      · exact .method node
      · exact .none
  | fieldRef id => exact .fieldRef node
  | _ =>
      rw [node] at other
      exact other

theorem Resolved.stays_fnPlan (resolved : w.Resolved) {s : Site} (has : w.Has s) :
    (w.fnPlan s).Stays w w.Has := by
  have find {t : Site} (isIn : w.Has t) : (Plan.find (.fns t)).Stays w w.Has :=
    Plan.stays_find (q := .fns t) isIn
  have way := w.fnWay s
  generalize w.fnPlan s = plan at way
  cases way with
  | call node =>
      refine ⟨has.part (by simp [node, Node.parts, Expr.parts]), ?_⟩
      intro fn isIn tail member
      exact find (has_bodyTails isIn member)
  | method node =>
      intro fn member
      cases List.mem_singleton.mp member
      exact has.part (by simp [node, Node.parts])
  | fieldAccess node => exact find (has.part (by simp [node, Node.parts, Expr.parts]))
  | fn node =>
      intro fn member
      cases List.mem_singleton.mp member
      exact has
  | fieldRef node => exact ⟨has, fun b suits => find suits.1.target⟩
  | ref node => exact Plan.stays_ofOption fun b found => find (resolved.has_target found)
  | importFile node => exact resolved.stays_imported fun d isIn => find isIn
  | tails =>
      intro tail member
      exact find (has.below (Site.mem_preorder_of_tails member))
  | none => exact Plan.stays_none

theorem Resolved.stays_scopePlan (resolved : w.Resolved) {s : Site} (has : w.Has s) :
    (w.scopePlan s).Stays w w.Scopes := by
  have find {t : Site} (isIn : w.Has t) : (Plan.find (.scopes t)).Stays w w.Scopes :=
    Plan.stays_find (q := .scopes t) isIn
  have object {t : Site} (isIn : w.Has t) :
      (Plan.found (w.objectScope? t).toList).Stays w w.Scopes :=
    fun scope member => scopes_objectScope isIn (Option.mem_toList.mp member)
  have way := w.scopeWay s
  generalize w.scopePlan s = plan at way
  cases way with
  | @array range values node =>
      intro value member
      refine find (has.below ?_)
      refine Site.mem_preorder_of_part (p := .children .values (values.map .expr)) ?_ member
      simp [node, Node.parts, Expr.parts]
  | plus node =>
      refine ⟨has.part (by simp [node, Node.parts, Expr.parts]), fun parents outer => ?_⟩
      refine ⟨has.part (by simp [node, Node.parts, Expr.parts]), fun children inner => ?_⟩
      exact fun scope member => scopes_extended outer inner member
  | call node =>
      refine ⟨has.part (by simp [node, Node.parts, Expr.parts]), ?_⟩
      intro fn isIn tail member
      exact find (has_bodyTails isIn member)
  | dollar node =>
      apply Plan.stays_ofOption
      intro outer found
      exact object (has.outward (Site.mem_outward_of_outermostObject found))
  | fieldAccess node =>
      refine ⟨has.part (by simp [node, Node.parts, Expr.parts]), fun b suits => ?_⟩
      dsimp only
      split
      · rename_i f isField
        exact find (suits.1.target.part (by simp [isField, Node.parts]))
      · exact Plan.stays_none
  | forSpec node => exact find (has.part (by simp [node, Node.parts]))
  | fieldRef node =>
      apply Plan.stays_ofOption
      intro access parent
      exact find (has.outward (Site.mem_outward_of_parent parent))
  | ref node => exact Plan.stays_ofOption fun b found => find (resolved.has_target found)
  | importFile node => exact resolved.stays_imported fun d isIn => find isIn
  | object node => exact object has
  | param node =>
      constructor
      · apply Plan.stays_ofOption
        intro e given
        exact find (has.part (by simp [node, Node.parts, Part.ofOption, given]))
      · apply Plan.stays_ofOption
        intro fn around
        refine ⟨has.outward (Site.mem_outward_of_enclosing around), fun call isIn => ?_⟩
        apply Plan.stays_ofOption
        intro value given
        exact find (has_argOfParam isIn given)
  | self node =>
      apply Plan.stays_ofOption
      intro around found
      exact object (has.outward (Site.mem_outward_of_enclosing found))
  | tails =>
      intro tail member
      exact find (has.below (Site.mem_preorder_of_tails member))
  | none => exact Plan.stays_none

theorem Resolved.stays_plan (resolved : w.Resolved) {q : Question} (has : w.Has q.site) :
    (w.plan q).Stays w (w.Suits q) := by
  cases q with
  | scopes s => exact resolved.stays_scopePlan has
  | fns s => exact resolved.stays_fnPlan has
  | fields ref => exact stays_fieldPlan has
  | callers fn => exact resolved.stays_callerPlan fn

/-- Questions are answered alike if their plans lead to the same. -/
theorem agree_shared {q : Question} {search search' : Search q.Find}
    (agree : Search.Agree w.Has (w.Suits q) search search') (limit : Nat) :
    Search.Agree w.Has (w.Suits q) (.after q.site.demandFile (shared limit q search))
      (.after q.site.demandFile (shared limit q search')) := by
  cases q.site.demandFile with
  | error e => exact .fail e
  | ok _ =>
      cases q with
      | callers fn => exact agree.sharedCalls limit fn.location
      | _ => exact agree

/-- Whatever is found lies in the documents. -/
theorem Resolved.search_only (resolved : w.Resolved) (depth : Nat) (q : Question)
    (has : w.Has q.site) : (w.search depth q).Only w.Has (w.Suits q) := by
  induction depth generalizing q with
  | zero => exact .fail .tooDeep
  | succ depth ih => exact agree_shared ((resolved.stays_plan has).run ih) _

end Workspace

end JsonnetNav
