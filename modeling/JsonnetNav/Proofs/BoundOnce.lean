import JsonnetNav.Proofs.ScopeTrees
import Mathlib

/-! # Scopes that follow their document

When a walk comes to a bind, a parameter or a clause, the open scope is the one that should hold
its variable, and the walk leaves the scopes open that it found open. So every variable of a
document is bound once, where it should be.
-/

namespace JsonnetNav

/-- The node whose scope holds the variable that is bound here: the one around a bind or a
    parameter, or the clause itself. -/
def Site.holder? (s : Site) : Option Site :=
  match s.node with
  | .bind _ => s.parent?.filter fun p => p.kind = .localIn ∨ p.kind = .object ∨ p.kind = .objComp
  | .param _ => s.parent?.filter fun p => p.kind = .fn
  | .forSpec _ => some s
  | _ => none

/-- The variables that are bound at an event, each held by the scope that should hold it. -/
def Event.postings (event : Event) : List ScopeTable.Posting :=
  event.binders.filterMap fun s => s.posting? s.holder?

theorem Event.holder_of_opened {s c : Site} (binder : c ∈ (Event.opened s).binders) :
    c.holder? = some s := by
  obtain ⟨uri, node, above⟩ := s
  cases node with
  | expr e =>
      cases e with
      | fn range params body =>
          obtain ⟨i, p, -, rfl⟩ := Site.mem_row.mp binder
          rfl
      | _ => cases binder
  | forSpec f =>
      cases List.mem_singleton.mp binder
      rfl
  | _ => cases binder

namespace Walk

/-- With these scopes open, the events bind every variable in the scope that should hold it,
    and in the end the same scopes are open. -/
structure Steady (stack : List Site) (events : List Event) : Prop where
  returns : events.foldl Event.shift stack = stack
  places : posted stack events = events.flatMap Event.postings

theorem posted_append (stack : List Site) (events later : List Event) :
    posted stack (events ++ later) =
      posted stack events ++ posted (events.foldl Event.shift stack) later := by
  induction events generalizing stack with
  | nil => rfl
  | cons event events ih => simp [posted, ih]

namespace Steady

variable {stack : List Site} {events later : List Event} {s : Site}

theorem nil (stack : List Site) : Steady stack [] :=
  ⟨rfl, rfl⟩

theorem append (first : Steady stack events) (second : Steady stack later) :
    Steady stack (events ++ later) := by
  constructor
  · rw [List.foldl_append, first.returns, second.returns]
  · rw [posted_append, first.returns, first.places, second.places, List.flatMap_append]

theorem leave (stack : List Site) (s : Site) : Steady stack [.leave s] :=
  ⟨rfl, rfl⟩

theorem enter (held : ∀ b, s.node = .bind b → stack.head? = s.holder?) :
    Steady stack [.enter s] := by
  refine ⟨rfl, ?_⟩
  obtain ⟨uri, node, above⟩ := s
  cases node with
  | bind b =>
      simp [posted, Event.postings, Event.binders, Event.shift, held b rfl, List.filterMap_cons]
  | _ => rfl

/-- A scope is opened inside of the open ones, and closed again. -/
theorem inScope (someOpen : stack ≠ []) (inside : Steady (s :: stack) events) :
    Steady stack ([Event.opened s] ++ events ++ [Event.closed s]) := by
  obtain ⟨outer, rest, rfl⟩ := List.exists_cons_of_ne_nil someOpen
  have own : (Event.opened s).binders.filterMap (Site.posting? (some s)) =
      (Event.opened s).postings := by
    refine List.filterMap_congr fun c binder => ?_
    rw [Event.holder_of_opened binder]
  constructor
  · simp [Event.shift, inside.returns]
  · rw [posted_append, posted_append, List.flatMap_append, List.flatMap_append]
    have silent : (Event.closed s).binders = [] ∧ (Event.closed s).postings = [] := ⟨rfl, rfl⟩
    simp [posted, Event.shift, inside.places, own, silent]

theorem visits {actions : List Action} (plain : emitted actions = [])
    (each : ∀ t ∈ Walk.visits actions, Steady stack (Walk.events .keysFirst t)) :
    Steady stack (actions.flatMap Action.events) := by
  induction actions with
  | nil => exact .nil stack
  | cons action actions ih =>
      cases action with
      | emit event => cases plain
      | visit t =>
          have rest := ih plain fun u member => each u (.tail _ member)
          exact (each t (.head _)).append rest

end Steady

/-- Some scope is open, and for a bind it is the one that should hold its variable. -/
structure Fits (stack : List Site) (t : Site) : Prop where
  someOpen : stack ≠ []
  held : ∀ b, t.node = .bind b → stack.head? = t.holder?

theorem Fits.of_no_bind {stack : List Site} {t : Site} (someOpen : stack ≠ [])
    (noBind : ∀ b, t.node ≠ .bind b) : Fits stack t :=
  ⟨someOpen, fun b node => absurd node (noBind b)⟩

theorem Fits.expr {stack : List Site} (someOpen : stack ≠ []) (s : Site) (role : Role) (e : Expr) :
    Fits stack (s.part role (.expr e)) :=
  .of_no_bind someOpen (by simp [Site.part, Site.down])

/-- Wherever it fits, the walk from a site is steady. -/
def StaysSteady (t : Site) : Prop :=
  ∀ stack, Fits stack t → Steady stack (events .keysFirst t)

/-- If the second node is a bind, then its variable is held by the scope of the first. -/
def Held (s t : Site) : Prop :=
  ∀ b, t.node = .bind b → t.holder? = some s ∧ s.kind.ownsScope

theorem Held.of_no_bind {s t : Site} (noBind : ∀ b, t.node ≠ .bind b) : Held s t :=
  fun b node => absurd node (noBind b)

theorem held_expr (s c : Site) (role : Role) (e : Expr) : Held s (c.part role (.expr e)) :=
  .of_no_bind (by simp [Site.part, Site.down])

theorem held_of_visits (s : Site) : ∀ t ∈ visits (inner .keysFirst s), Held s t := by
  have none : ∀ t ∈ [], Held s t := by simp
  obtain ⟨uri, node, above⟩ := s
  cases node with
  | expr e =>
      cases e with
      | listComp range element clause rest =>
          refine forall_visits_clauses _ (held_expr _) ?_
          simpa using held_expr _ _ _ element
      | objComp range field binds assertions clause rest =>
          refine forall_visits_clauses _ (held_expr _) ?_
          simp only [visits_append, visits_emit, visits_visit, visits_nil, visits_visitAll,
            List.forall_mem_append, List.forall_mem_cons, forall_mem_row]
          refine ⟨⟨⟨⟨?_, none⟩, ?_⟩, ?_⟩, ?_, none⟩
          · exact .of_no_bind (by simp [Site.part, Site.down])
          · intro i x _ b _
            exact ⟨rfl, rfl⟩
          · intro i a _
            exact .of_no_bind (by simp [Site.down])
          · exact .of_no_bind (by simp [Site.part, Site.down])
      | object range binds assertions fs =>
          simp only [inner, visits_append, visits_emit, visits_nil, visits_fields, visits_visitAll,
            List.forall_mem_append, List.forall_mem_map, forall_mem_row, forall_mem_fieldSites]
          refine ⟨⟨none, ⟨?_, ?_, ?_⟩, ?_⟩, none⟩
          · intro i f _
            exact .of_no_bind (by simp [Site.part, Site.down])
          · intro i x _ b _
            exact ⟨rfl, rfl⟩
          · intro i a _
            exact .of_no_bind (by simp [Site.down])
          · intro i f _
            exact .of_no_bind (by simp [Site.down])
      | localIn range binds body =>
          simp only [inner, visits_append, visits_emit, visits_visit, visits_nil, visits_visitAll,
            List.forall_mem_append, List.forall_mem_cons, forall_mem_row]
          refine ⟨⟨none, ?_⟩, held_expr _ _ _ body, none⟩
          intro i x _ b _
          exact ⟨rfl, rfl⟩
      | _ => simp [Held, inner, or_imp, forall_and, forall_mem_row, Site.part, Site.down]
  | key k => cases k <;> simp [Held, inner, Site.part, Site.down]
  | _ => simp [Held, inner, or_imp, forall_and, Site.part, Site.down]

theorem steady_clauses {inside : List Action} {sites : List Site}
    (inner : ∀ stack ≠ [], Steady stack (inside.flatMap Action.events))
    (right : ∀ t ∈ visits (clauses inside sites), StaysSteady t) :
    ∀ stack ≠ [], Steady stack ((clauses inside sites).flatMap Action.events) := by
  induction sites with
  | nil => exact inner
  | cons c sites ih =>
      intro stack someOpen
      have expr {role : Role} {e : Expr} (steady : StaysSteady (c.part role (.expr e))) :
          Steady stack (Action.events (.visit (c.part role (.expr e)))) :=
        steady stack (.expr someOpen c role e)
      have entered (noBind : ∀ b, c.node ≠ .bind b) : Steady stack [.enter c] :=
        .enter fun b node => absurd node (noBind b)
      have left := Steady.leave stack c
      unfold clauses at right ⊢
      split at right
      · rename_i f node
        simp only [visits_append, visits_visit, visits_emit, visits_nil, List.forall_mem_append,
          List.forall_mem_cons] at right
        have rest := ih right.1.2 (c :: stack) (List.cons_ne_nil c stack)
        have walked := (entered (by simp [node])).append ((expr right.1.1.1).append
          ((rest.inScope someOpen).append left))
        simpa [Action.events] using walked
      · rename_i f node
        simp only [visits_append, visits_visit, visits_emit, visits_nil, List.forall_mem_append,
          List.forall_mem_cons] at right
        have rest := ih right.2 stack someOpen
        have walked := (entered (by simp [node])).append
          ((expr right.1.1).append (left.append rest))
        simpa [Action.events] using walked
      · exact ih right stack someOpen

/-- The parts of a node that are walked inside of its scope. -/
theorem steady_scope {s : Site} {actions : List Action} (plain : emitted actions = [])
    (right : ∀ t ∈ visits actions, StaysSteady t)
    (held : ∀ t ∈ visits actions, Held s t) {stack : List Site} (someOpen : stack ≠ []) :
    Steady stack
      (([Action.emit (.opened s)] ++ actions ++ [Action.emit (.closed s)]).flatMap
        Action.events) := by
  have inside : Steady (s :: stack) (actions.flatMap Action.events) := by
    refine .visits plain fun t visited => right t visited _ ⟨by simp, fun b node => ?_⟩
    rw [(held t visited b node).1]
    rfl
  simpa [Action.events] using inside.inScope someOpen

/-- The key of an object comprehension is walked inside of its clauses, but outside of its own
    scope. -/
theorem steady_objComp {s : Site} {range : Range} {field : Field} {binds : List LocalBind}
    {assertions : List Assertion} {clause : ForSpec} {rest : List CompSpec}
    (node : s.node = .expr (.objComp range field binds assertions clause rest))
    (right : ∀ t ∈ visits (inner .keysFirst s), StaysSteady t) {stack : List Site}
    (someOpen : stack ≠ []) : Steady stack ((inner .keysFirst s).flatMap Action.events) := by
  let fieldSite := s.part .field (.field field)
  let keySite := fieldSite.part .key (.key field.key)
  let parts := visitAll (s.row .binds (binds.map .bind)) ++
    visitAll (s.row .asserts (assertions.map .assertion)) ++ [Action.visit fieldSite]
  let inside := [Action.visit keySite] ++
    ([Action.emit (.opened s)] ++ parts ++ [Action.emit (.closed s)])
  have shape : inner .keysFirst s = clauses inside (clauseSites s clause rest) := by
    simp [inner, node, inside, parts, keySite, fieldSite]
  have visited {t : Site} (within : t ∈ visits inside) : t ∈ visits (inner .keysFirst s) := by
    rw [shape]
    exact mem_visits.mpr (mem_clauses _ (mem_visits.mp within))
  have inParts {t : Site} (part : t ∈ visits parts) : t ∈ visits (inner .keysFirst s) :=
    visited (by simp [inside, part])
  have plain : emitted parts = [] := by simp [parts]
  have noBind (b : LocalBind) : keySite.node ≠ .bind b := by simp [keySite, Site.part, Site.down]
  have steady (stack : List Site) (someOpen : stack ≠ []) :
      Steady stack (inside.flatMap Action.events) := by
    have key : Steady stack (Action.events (.visit keySite)) :=
      right keySite (visited (.head _)) stack (.of_no_bind someOpen noBind)
    have scope := steady_scope plain (fun t part => right t (inParts part))
      (fun t part => held_of_visits s t (inParts part)) someOpen
    exact key.append scope
  rw [shape] at right ⊢
  exact steady_clauses steady right stack someOpen

theorem steady_inner {s : Site} (whole : isClause s = false)
    (right : ∀ t ∈ visits (inner .keysFirst s), StaysSteady t) {stack : List Site}
    (someOpen : stack ≠ []) : Steady stack ((inner .keysFirst s).flatMap Action.events) := by
  have held := held_of_visits s
  have emits := emitted_inner whole
  -- a node with neither scope nor clauses only walks its parts
  have bare (alone : s.kind.ownsScope = false) (noClause : clausesOf s = []) :
      Steady stack ((inner .keysFirst s).flatMap Action.events) := by
    rw [noClause, scopeEvents, alone] at emits
    refine .visits (List.Perm.eq_nil emits) fun t visited =>
      right t visited stack (.of_no_bind someOpen fun b node => ?_)
    simpa [alone] using (held t visited b node).2
  -- all parts of a node are walked inside of its scope, but for those of an object comprehension
  have inOwn {actions : List Action} (plain : emitted actions = [])
      (shape : inner .keysFirst s =
        [Action.emit (.opened s)] ++ actions ++ [Action.emit (.closed s)]) :
      Steady stack ((inner .keysFirst s).flatMap Action.events) := by
    have parts : visits (inner .keysFirst s) = visits actions := by simp [shape]
    rw [parts] at right held
    rw [shape]
    exact steady_scope plain right held someOpen
  obtain ⟨uri, node, above⟩ := s
  let s : Site := ⟨uri, node, above⟩
  cases node with
  | expr e =>
      cases e with
      | localIn range binds body =>
          let parts := visitAll (s.row .binds (binds.map .bind)) ++
            [Action.visit (s.part .body (.expr body))]
          have plain : emitted parts = [] := by simp [parts]
          exact inOwn plain (by simp [inner, parts, s])
      | fn range params body =>
          let parts := visitAll (s.row .params (params.map .param)) ++
            [Action.visit (s.part .body (.expr body))]
          have plain : emitted parts = [] := by simp [parts]
          exact inOwn plain (by simp [inner, parts, s])
      | object range binds assertions fs =>
          let parts := fields .keysFirst (fieldSites s fs)
            (visitAll (s.row .binds (binds.map .bind)) ++
              visitAll (s.row .assertions (assertions.map .assertion)))
          have plain : emitted parts = [] := by simp [parts]
          exact inOwn plain rfl
      | listComp range element clause rest =>
          refine steady_clauses (fun stack someOpen => ?_) right stack someOpen
          refine .visits rfl fun t visited => right t ?_ stack ?_
          · exact mem_visits.mpr (mem_clauses _ (mem_visits.mp visited))
          · cases List.mem_singleton.mp visited
            exact .expr someOpen _ _ element
      | objComp range field binds assertions clause rest => exact steady_objComp rfl right someOpen
      | _ => exact bare rfl rfl
  | bind b =>
      have plain : emitted [.visit (s.part .value (.expr b.value))] = [] := rfl
      exact inOwn plain rfl
  | forSpec f => cases whole
  | key k => cases k <;> exact bare rfl rfl
  | _ => exact bare rfl rfl

theorem staysSteady {s : Site} (whole : isClause s = false) : StaysSteady s := by
  intro stack fits
  have parts : ∀ t ∈ visits (inner .keysFirst s), StaysSteady t := by
    intro t visited
    have smaller := visitsBelow_inner .keysFirst s t (mem_visits.mp visited)
    exact staysSteady (isClause_of_visits s t visited)
  have walked := (Steady.enter fits.held).append
    ((steady_inner whole parts fits.someOpen).append (.leave stack s))
  rw [events_eq]
  simpa [plan, Action.events] using walked
termination_by sizeOf s.node

end Walk

namespace Part

/-- No parameter is in the part. -/
def NoParam (part : Part) : Prop :=
  ∀ p, .param p ∉ part.nodes

@[simp]
theorem noParam_leaf (label : String) (value : Leaf) : NoParam (.leaf label value) := by
  simp [NoParam, nodes]

@[simp]
theorem noParam_child {role : Role} {n : Node} :
    NoParam (.child role n) ↔ ∀ p, n ≠ .param p := by
  simp [NoParam, nodes, eq_comm]

@[simp]
theorem noParam_children {role : Role} {ns : List Node} :
    NoParam (.children role ns) ↔ ∀ p, .param p ∉ ns := by
  simp [NoParam, nodes]

@[simp]
theorem forall_mem_ofOption {α : Type} {role : Role} {f : α → Node} {o : Option α}
    {P : Part → Prop} :
    (∀ part ∈ Part.ofOption role (o.map f), P part) ↔ ∀ x ∈ o, P (.child role (f x)) := by
  cases o <;> simp [ofOption]

end Part

/-- Parameters are children of functions only. -/
theorem Node.noParam_parts {n : Node}
    (noFn : ∀ range params body, n ≠ .expr (.fn range params body)) :
    ∀ part ∈ n.parts, part.NoParam := by
  have clause (spec : CompSpec) (p : Param) : spec.node ≠ .param p := by
    cases spec <;> simp [CompSpec.node]
  cases n with
  | expr e =>
      cases e with
      | fn range params body => exact absurd rfl (noFn range params body)
      | _ => simp [parts, Expr.parts, Part.ofString, or_imp, forall_and, clause]
  | key k => cases k <;> simp [parts]
  | _ => simp [parts]

namespace Site

/-- The binds, parameters and clauses whose variables are bound while the walk is at a node. -/
def bindersHere (s : Site) : List Site :=
  (Event.enter s).binders ++ (Event.opened s).binders

/-- The node at which a variable is bound: the parameters of a function are bound together. -/
def boundAt? (s : Site) : Option Site :=
  match s.node with
  | .param _ => s.parent?
  | .bind _ | .forSpec _ => some s
  | _ => none

theorem binders_ownEvents (s : Site) :
    (Walk.ownEvents s).flatMap Event.binders = s.bindersHere := by
  obtain ⟨uri, node, above⟩ := s
  cases node with
  | expr e =>
      cases e <;> simp [Walk.ownEvents, Walk.scopeEvents, bindersHere, Event.binders, kind,
        Node.kind, Expr.kind, Kind.ownsScope]
  | key k => cases k <;> rfl
  | _ => rfl

theorem nodup_bindersHere (s : Site) : s.bindersHere.Nodup := by
  obtain ⟨uri, node, above⟩ := s
  cases node with
  | expr e =>
      cases e with
      | fn range params body =>
          let s : Site := ⟨uri, .expr (.fn range params body), above⟩
          have row : (s.paramRow params).Sublist s.children := by
            rw [children_eq, List.flatMap_def]
            refine List.sublist_flatten_of_mem (List.mem_map.mpr ?_)
            exact ⟨.children .params (params.map .param), .head _, rfl⟩
          exact s.nodup_children.sublist row
      | _ => exact .nil
  | bind b => exact List.nodup_singleton _
  | forSpec f => exact List.nodup_singleton _
  | _ => exact .nil

theorem of_mem_bindersHere {s t : Site} (here : t ∈ s.bindersHere) :
    t.boundAt? = some s ∧ t ∈ s.preorder ∧ t.binds?.isSome ∧ Walk.isWalked s := by
  obtain ⟨uri, node, above⟩ := s
  cases node with
  | expr e =>
      cases e with
      | fn range params body =>
          have inside := mem_preorder_of_part (s := ⟨uri, .expr (.fn range params body), above⟩)
            (p := .children .params (params.map .param)) (.head _) here
          obtain ⟨i, p, -, rfl⟩ := mem_row.mp here
          exact ⟨rfl, inside, rfl, rfl⟩
      | _ => cases here
  | bind b =>
      cases List.mem_singleton.mp here
      exact ⟨rfl, mem_preorder_self _, rfl, rfl⟩
  | forSpec f =>
      cases List.mem_singleton.mp here
      exact ⟨rfl, mem_preorder_self _, rfl, rfl⟩
  | _ => cases here

theorem mem_bindersHere_of_param {s t : Site} {p : Param} (child : t ∈ s.children)
    (node : t.node = .param p) : t ∈ s.bindersHere := by
  by_cases isFn : ∃ range params body, s.node = .expr (.fn range params body)
  · obtain ⟨range, params, body, outer⟩ := isFn
    obtain ⟨uri, _, above⟩ := s
    cases outer
    rw [children_eq, Node.parts, Expr.parts, List.flatMap_cons, List.mem_append] at child
    rcases child with row | other
    · exact row
    · cases List.mem_singleton.mp other
      cases node
  · obtain ⟨edge, member, rfl⟩ := mem_children.mp child
    obtain ⟨part, listed, inPart⟩ := List.mem_flatMap.mp member
    have isParam := Node.mem_nodes_of_mem_edges inPart
    rw [show edge.2 = .param p from node] at isParam
    simp only [not_exists] at isFn
    exact absurd isParam (Node.noParam_parts isFn part listed p)

end Site

namespace Document

variable {d : Document} {uri : Uri}

theorem Built.binders_perm (built : d.Built uri) :
    ((Walk.events .keysFirst d.site).flatMap Event.binders).Perm
      (d.sites.filter (·.binds?.isSome)) := by
  have atNodes : ((Walk.events .keysFirst d.site).flatMap Event.binders).Perm
      ((d.sites.filter Walk.isWalked).flatMap Site.bindersHere) := by
    refine (built.events_perm.flatMap_right _).trans (.of_eq ?_)
    rw [List.flatMap_assoc]
    simp only [Site.binders_ownEvents]
  -- a binder is bound at one node only, so both lists are without repetitions
  refine atNodes.trans ((List.perm_ext_iff_of_nodup ?_ ?_).mpr fun t => ?_)
  · rw [List.nodup_flatMap]
    refine ⟨fun s _ => s.nodup_bindersHere, (d.site.nodup_preorder.filter _).imp ?_⟩
    intro s s' different t here there
    have same := (Site.of_mem_bindersHere here).1.symm.trans (Site.of_mem_bindersHere there).1
    exact different (Option.some.inj same)
  · exact d.site.nodup_preorder.filter _
  · rw [List.mem_flatMap, List.mem_filter]
    constructor
    · rintro ⟨s, member, here⟩
      obtain ⟨-, inside, binds, -⟩ := Site.of_mem_bindersHere here
      exact ⟨Site.mem_preorder_trans (List.mem_filter.mp member).1 inside, binds⟩
    · intro ⟨member, binds⟩
      have atItself (here : t ∈ t.bindersHere) :
          ∃ s ∈ d.sites.filter Walk.isWalked, t ∈ s.bindersHere :=
        ⟨t, List.mem_filter.mpr ⟨member, (Site.of_mem_bindersHere here).2.2.2⟩, here⟩
      obtain ⟨uri', node, above⟩ := t
      cases node with
      | bind b => exact atItself (.head _)
      | forSpec f => exact atItself (.head _)
      | param p =>
          rcases Site.parent_of_mem_preorder member with isRoot | ⟨s, around, child⟩
          · obtain ⟨range, body, root⟩ := built.root
            cases (congrArg Site.node isRoot).trans root
          · have here := Site.mem_bindersHere_of_param child rfl
            exact ⟨s, List.mem_filter.mpr ⟨around, (Site.of_mem_bindersHere here).2.2.2⟩, here⟩
      | _ => cases binds

/-- What the scopes of a resolved document hold: the variable of each bind, parameter and clause
    once, in the scope that should hold it. -/
theorem Built.postings_perm (built : d.Built uri) :
    (Walk.posted [d.site] (Walk.events .keysFirst d.site)).Perm
      (d.sites.filterMap fun s => s.posting? s.holder?) := by
  obtain ⟨range, body, root⟩ := built.root
  have fits : Walk.Fits [d.site] d.site := .of_no_bind (by simp) (by simp [site, root])
  have steady := Walk.staysSteady built.isClause_site _ fits
  have onlyBinders (s : Site) (other : s.binds?.isSome = false) : s.posting? s.holder? = none := by
    simpa [Site.posting?] using other
  have atEvents (events : List Event) : events.flatMap Event.postings =
      (events.flatMap Event.binders).filterMap fun s => s.posting? s.holder? :=
    List.filterMap_flatMap.symm
  rw [steady.places, atEvents]
  refine (built.binders_perm.filterMap _).trans (.of_eq ?_)
  rw [List.filterMap_filter]
  refine List.filterMap_congr fun s _ => ?_
  cases binds : s.binds?.isSome with
  | true => simp
  | false => simp [onlyBinders s binds]

end Document
end JsonnetNav
