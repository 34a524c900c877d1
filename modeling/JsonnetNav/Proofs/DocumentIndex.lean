import JsonnetNav.Proofs.Listings
import Mathlib

/-! # What a walk visits and what it lists

On a walk each node that is walked is entered once and left once, and opens and closes its
scope once if it has one. What is inside of an expression is left before the expression is.
So the nodes that are visited, and the calls, field names and paths of imports that are listed,
are those of the document, each of them once.
-/

namespace JsonnetNav

/-- Nodes of these kinds have a scope of their own. -/
def Kind.ownsScope : Kind → Bool
  | localIn | bind | fn | forSpec | object | objComp => true
  | _ => false

namespace Walk

def scopeEvents (s : Site) : List Event :=
  if s.kind.ownsScope then [.opened s, .closed s] else []

/-- All that happens to one node on a walk. -/
def ownEvents (s : Site) : List Event :=
  .enter s :: .leave s :: scopeEvents s

section ownEvents

variable {α : Type} {pick : Event → Option α} {s : Site}

theorem filterMap_scopeEvents (opened : pick (.opened s) = none)
    (closed : pick (.closed s) = none) : (scopeEvents s).filterMap pick = [] := by
  unfold scopeEvents
  split <;> simp [opened, closed]

theorem filterMap_ownEvents (opened : pick (.opened s) = none) (closed : pick (.closed s) = none) :
    (ownEvents s).filterMap pick = (pick (.enter s)).toList ++ (pick (.leave s)).toList := by
  rw [ownEvents, List.filterMap_cons, List.filterMap_cons, filterMap_scopeEvents opened closed]
  cases pick (.enter s) <;> cases pick (.leave s) <;> rfl

theorem entered_ownEvents (s : Site) : (ownEvents s).filterMap entered? = [s] :=
  filterMap_ownEvents rfl rfl

end ownEvents

def Action.visited? : Action → Option Site
  | .emit _ => none
  | .visit t => some t

/-- The sites that are walked in the steps of a plan. -/
def visits (actions : List Action) : List Site :=
  actions.filterMap Action.visited?

theorem mem_visits {actions : List Action} {t : Site} :
    t ∈ visits actions ↔ .visit t ∈ actions := by
  rw [visits, List.mem_filterMap]
  constructor
  · rintro ⟨action, member, same⟩
    cases action with
    | emit event => cases same
    | visit u =>
        cases same
        exact member
  · intro member
    exact ⟨.visit t, member, rfl⟩

section visits

variable (actions more : List Action)

@[simp]
theorem visits_nil : visits [] = [] :=
  rfl

@[simp]
theorem visits_emit (event : Event) : visits (.emit event :: actions) = visits actions :=
  rfl

@[simp]
theorem visits_visit (t : Site) : visits (.visit t :: actions) = t :: visits actions :=
  rfl

@[simp]
theorem visits_append : visits (actions ++ more) = visits actions ++ visits more :=
  List.filterMap_append

theorem visits_map_visit {α : Type} (site : α → Site) (xs : List α) :
    visits (xs.map fun x => .visit (site x)) = xs.map site := by
  induction xs with
  | nil => rfl
  | cons x xs ih => exact congrArg (site x :: ·) ih

@[simp]
theorem visits_visitAll (sites : List Site) : visits (visitAll sites) = sites :=
  (visits_map_visit id sites).trans (List.map_id sites)

@[simp]
theorem visits_visitOption {α : Type} (s : Site) (role : Role) (f : α → Node) (o : Option α) :
    visits (visitOption s role (o.map f)) = (o.map fun x => s.part role (f x)).toList := by
  cases o <;> rfl

@[simp]
theorem visits_fields (sites : List (Site × Field)) :
    visits (fields .keysFirst sites actions) =
      (sites.map fun x => x.1.part .key (.key x.2.key)) ++ visits actions ++
        sites.map Prod.fst := by
  simp [fields, visits_map_visit]

end visits

theorem events_actions (actions : List Action) :
    (actions.flatMap Action.events).Perm
      (emitted actions ++ (visits actions).flatMap (events .keysFirst)) := by
  induction actions with
  | nil => exact .nil
  | cons action actions ih =>
      cases action with
      | emit event => exact ih.cons event
      | visit t =>
          refine (ih.append_left (events .keysFirst t)).trans ?_
          exact List.perm_append_comm_assoc _ _ _

theorem entered_actions (actions : List Action) :
    (actions.flatMap Action.entered).Perm
      ((emitted actions).filterMap entered? ++ (visits actions).flatMap entered) := by
  have step (action : Action) : action.events.filterMap entered? = action.entered := by
    cases action with
    | emit event => cases event <;> rfl
    | visit t => rfl
  have perm := (events_actions actions).filterMap entered?
  rw [List.filterMap_flatMap, List.filterMap_append, List.filterMap_flatMap] at perm
  simp only [step] at perm
  exact perm

/-- The clauses of a comprehension. -/
def clausesOf (s : Site) : List Site :=
  match s.node with
  | .expr (.listComp _ _ clause rest) => clauseSites s clause rest
  | .expr (.objComp _ _ _ _ clause rest) => clauseSites s clause rest
  | _ => []

theorem isClause_clausesOf {s c : Site} (member : c ∈ clausesOf s) :
    ∃ spec : CompSpec, c.node = spec.node := by
  unfold clausesOf at member
  split at member
  · exact mem_clauseSites member
  · exact mem_clauseSites member
  · cases member

theorem emitted_clauses (inside : List Action) {sites : List Site}
    (spec : ∀ c ∈ sites, ∃ spec : CompSpec, c.node = spec.node) :
    (emitted (clauses inside sites)).Perm (emitted inside ++ sites.flatMap ownEvents) := by
  induction sites with
  | nil => simp [clauses]
  | cons c sites ih =>
      have rest := ih fun d member => spec d (.tail _ member)
      have move : (ownEvents c ++ emitted (clauses inside sites)).Perm
          (emitted inside ++ (c :: sites).flatMap ownEvents) := by
        rw [List.flatMap_cons]
        exact (rest.append_left (ownEvents c)).trans (List.perm_append_comm_assoc _ _ _)
      refine List.Perm.trans ?_ move
      obtain ⟨kind, node⟩ := spec c (.head _)
      cases kind with
      | forSpec f =>
          have own : ownEvents c = [.enter c, .leave c, .opened c, .closed c] := by
            simp [ownEvents, scopeEvents, Site.kind, node, CompSpec.node, Node.kind, Kind.ownsScope]
          rw [clauses_forSpec node, own]
          simp only [emitted_append, emitted_emit, emitted_visit, emitted_nil, List.cons_append,
            List.nil_append, List.append_assoc]
          refine .cons _ ?_
          -- on the walk the scope is closed and the clause is left at the end
          have ends : (emitted (clauses inside sites) ++ [Event.closed c, Event.leave c]).Perm
              ([Event.closed c, Event.leave c] ++ emitted (clauses inside sites)) :=
            List.perm_append_comm
          refine (ends.cons (Event.opened c)).trans ?_
          have first := List.perm_append_singleton (Event.leave c) [Event.opened c, Event.closed c]
          exact first.append_right _
      | ifSpec f =>
          have own : ownEvents c = [.enter c, .leave c] := by
            simp [ownEvents, scopeEvents, Site.kind, node, CompSpec.node, Node.kind, Kind.ownsScope]
          rw [clauses_ifSpec node, own]
          simp

/-- Clauses are not walked as a whole. -/
def isClause (s : Site) : Bool :=
  match s.node with
  | .forSpec _ | .ifSpec _ => true
  | _ => false

theorem forall_mem_row {α : Type} {s : Site} {role : Role} {f : α → Node} {xs : List α}
    {P : Site → Prop} : (∀ t ∈ s.row role (xs.map f), P t) ↔
      ∀ i x, xs[i]? = some x → P (s.down ⟨role, i⟩ (f x)) := by
  simp only [Site.mem_row]
  constructor
  · intro all i x found
    exact all _ ⟨i, x, found, rfl⟩
  · rintro all t ⟨i, x, found, rfl⟩
    exact all i x found

theorem forall_mem_fieldSites {s : Site} {fs : List Field} {P : Site × Field → Prop} :
    (∀ x ∈ fieldSites s fs, P x) ↔
      ∀ i f, fs[i]? = some f → P (s.down ⟨.fields, i⟩ (.field f), f) := by
  simp only [fieldSites, List.mem_mapIdx]
  constructor
  · intro all i f found
    obtain ⟨bound, rfl⟩ := List.getElem?_eq_some_iff.mp found
    exact all _ ⟨i, bound, rfl⟩
  · rintro all x ⟨i, bound, rfl⟩
    exact all i _ (List.getElem?_eq_getElem bound)

/-- Clauses add expressions to what is walked inside of them. -/
theorem forall_visits_clauses {P : Site → Prop} {inside : List Action} (sites : List Site)
    (exprs : ∀ (c : Site) role e, P (c.part role (.expr e))) (within : ∀ t ∈ visits inside, P t) :
    ∀ t ∈ visits (clauses inside sites), P t := by
  induction sites with
  | nil => exact within
  | cons c sites ih =>
      unfold clauses
      split
      · simpa using ⟨exprs c _ _, ih⟩
      · simpa using ⟨exprs c _ _, ih⟩
      · exact ih

theorem isClause_of_visits (s : Site) :
    ∀ t ∈ visits (inner .keysFirst s), isClause t = false := by
  obtain ⟨uri, node, above⟩ := s
  cases node with
  | expr e =>
      cases e with
      | listComp range element clause rest =>
          exact forall_visits_clauses _ (fun _ _ _ => rfl) (by simp; rfl)
      | objComp range field binds assertions clause rest =>
          refine forall_visits_clauses _ (fun _ _ _ => rfl) ?_
          simp [or_imp, forall_and, forall_mem_row, isClause, Site.part, Site.down]
      | object range binds assertions fs =>
          simp only [inner, visits_append, visits_emit, visits_nil, visits_fields, visits_visitAll,
            List.forall_mem_append, List.forall_mem_map, forall_mem_row, forall_mem_fieldSites]
          simp [isClause, Site.part, Site.down]
      | _ => simp [inner, or_imp, forall_and, forall_mem_row, isClause, Site.part, Site.down]
  | key k => cases k <;> simp [inner, isClause, Site.part, Site.down]
  | _ => simp [inner, or_imp, forall_and, isClause, Site.part, Site.down]

/-- What happens in the plan of a node itself: its scope is opened and closed, and its clauses
    are gone through. -/
theorem emitted_inner {s : Site} (whole : isClause s = false) :
    (emitted (inner .keysFirst s)).Perm (scopeEvents s ++ (clausesOf s).flatMap ownEvents) := by
  obtain ⟨uri, node, above⟩ := s
  cases node with
  | expr e =>
      cases e with
      | listComp range element clause rest => exact emitted_clauses _ fun c => mem_clauseSites
      | objComp range field binds assertions clause rest =>
          refine (emitted_clauses _ fun c => mem_clauseSites).trans (.of_eq ?_)
          simp [scopeEvents, Site.kind, Node.kind, Expr.kind, Kind.ownsScope, clausesOf]
      | _ =>
          simp [inner, scopeEvents, Site.kind, Node.kind, Expr.kind, Kind.ownsScope, clausesOf]
  | key k =>
      cases k <;> simp [inner, scopeEvents, Site.kind, Node.kind, Kind.ownsScope, clausesOf]
  | forSpec f => cases whole
  | _ => simp [inner, scopeEvents, Site.kind, Node.kind, Kind.ownsScope, clausesOf]

theorem entered_perm {s : Site} (whole : isClause s = false) :
    (entered s).Perm
      (s :: (clausesOf s ++ (visits (inner .keysFirst s)).flatMap entered)) := by
  have clauses : (emitted (inner .keysFirst s)).filterMap entered? |>.Perm (clausesOf s) := by
    refine ((emitted_inner whole).filterMap entered?).trans (.of_eq ?_)
    rw [List.filterMap_append, filterMap_scopeEvents rfl rfl, List.filterMap_flatMap]
    simp [entered_ownEvents]
  rw [entered_eq]
  exact ((entered_actions _).trans (clauses.append_right _)).cons s

/-- A walk is made of all that happens to the nodes that are entered. -/
theorem events_perm {s : Site} (whole : isClause s = false) :
    (events .keysFirst s).Perm ((entered s).flatMap ownEvents) := by
  have inside : ((visits (inner .keysFirst s)).flatMap (events .keysFirst)).Perm
      (((visits (inner .keysFirst s)).flatMap entered).flatMap ownEvents) := by
    rw [List.flatMap_assoc]
    refine List.Perm.flatMap_left _ fun t member => ?_
    have smaller := visitsBelow_inner .keysFirst s t (mem_visits.mp member)
    exact events_perm (isClause_of_visits s t member)
  have walked : (events .keysFirst s).Perm (.enter s :: .leave s ::
      (emitted (inner .keysFirst s) ++
        (visits (inner .keysFirst s)).flatMap (events .keysFirst))) := by
    rw [events_eq]
    simp only [plan, List.cons_append, List.flatMap_cons, List.flatMap_append, List.flatMap_nil,
      List.append_nil]
    refine .cons _ ((List.perm_append_singleton _ _).trans (.cons _ ?_))
    exact events_actions _
  refine walked.trans (.trans ?_ ((entered_perm whole).flatMap_right ownEvents).symm)
  rw [List.flatMap_cons, List.flatMap_append, ownEvents, List.cons_append, List.cons_append]
  refine .cons _ (.cons _ ?_)
  rw [← List.append_assoc]
  exact (emitted_inner whole).append inside
termination_by sizeOf s.node

/-- The walk through a node that is walked as a whole is a part of the walk around it. -/
theorem infix_of_enter {s t : Site} (whole : isClause s = false) (inner : isClause t = false)
    (enters : .enter t ∈ events .keysFirst s) : events .keysFirst t <:+: events .keysFirst s := by
  rw [← mem_entered, (entered_perm whole).mem_iff, List.mem_cons, List.mem_append] at enters
  rcases enters with rfl | clause | inside
  · exact List.infix_rfl
  · obtain ⟨kind, node⟩ := isClause_clausesOf clause
    cases kind <;> simp [isClause, node, CompSpec.node] at inner
  · obtain ⟨u, visited, inside⟩ := List.mem_flatMap.mp inside
    have smaller := visitsBelow_inner .keysFirst s u (mem_visits.mp visited)
    have within := infix_of_enter (isClause_of_visits s u visited) inner (mem_entered.mp inside)
    refine within.trans ?_
    obtain ⟨before, after, split⟩ := List.append_of_mem (mem_visits.mp visited)
    refine ⟨.enter s :: before.flatMap Action.events, after.flatMap Action.events ++ [.leave s], ?_⟩
    rw [events_eq s, plan, split]
    simp [Action.events]
termination_by sizeOf s.node

/-- What is inside of an expression is left before the expression is. -/
theorem leave_before {s t : Site} {e : Expr} (expr : s.node = .expr e) (inside : t ∈ s.preorder)
    (walked : isWalked t) (other : t ≠ s) :
    [Event.leave t, Event.leave s].Sublist (events .keysFirst s) := by
  have all : covered s = entered s := by simp [covered, starts, expr]
  have enters : t ∈ entered s := all ▸ mem_covered.mpr ⟨inside, walked⟩
  have leaves := (enter_and_leave (mem_entered.mp enters)).2
  have ends : events .keysFirst s =
      (.enter s :: (inner .keysFirst s).flatMap Action.events) ++ [.leave s] := by
    rw [events_eq, plan]
    simp [Action.events]
  rw [ends, Event.site, List.mem_append] at leaves
  rw [ends]
  rcases leaves with before | last
  · exact (List.singleton_sublist.mpr before).append (.refl _)
  · simp [other] at last

end Walk

namespace Site

def call? (s : Site) : Option Site :=
  match s.node with
  | .expr (.call _ _ _) => some s
  | _ => none

/-- The name of the field that a field access reads. -/
def accessed? (s : Site) : Option Site :=
  match s.node with
  | .expr (.fieldAccess _ _ field) => some (s.part .field (.fieldRef field))
  | _ => none

/-- The path of an import, whatever is imported. -/
def importee? (s : Site) : Option Site :=
  match s.node with
  | .expr (.importFile _ _ importee) => some (s.part .importee (.importee importee))
  | _ => none

variable {s t : Site}

theorem kind_eq_call :
    s.kind = .call ↔ ∃ range callee args, s.node = .expr (.call range callee args) := by
  obtain ⟨uri, node, above⟩ := s
  cases node with
  | expr e => cases e <;> simp [kind, Node.kind, Expr.kind]
  | key k => cases k <;> simp [kind, Node.kind]
  | _ => simp [kind, Node.kind]

theorem call_eq_guard : s.call? = Option.guard (fun s => s.kind = .call) s := by
  unfold call?
  split
  · rename_i node
    simp [kind_eq_call.mpr ⟨_, _, _, node⟩]
  · rename_i other
    have noCall : s.kind ≠ .call := by
      rw [ne_eq, kind_eq_call]
      rintro ⟨range, callee, args, node⟩
      exact other range callee args node
    simp [Option.guard, noCall]

theorem accessed_eq_some : s.accessed? = some t ↔ ∃ range obj field,
    s.node = .expr (.fieldAccess range obj field) ∧ t = s.part .field (.fieldRef field) := by
  unfold accessed?
  split <;> simp_all [eq_comm]

theorem importee_eq_some : s.importee? = some t ↔ ∃ range kind importee,
    s.node = .expr (.importFile range kind importee) ∧
      t = s.part .importee (.importee importee) := by
  unfold importee?
  split <;> simp_all [eq_comm]

end Site

/-- The path of an import that is listed at an event. -/
def Event.importee? : Event → Option Site
  | .enter s => s.importee?
  | _ => none

namespace Resolution.State

def importees (st : State) : List Site :=
  st.resolution.importees.toList

theorem importees_step (st : State) (event : Event) :
    (st.step event).importees = st.importees ++ event.importee?.toList := by
  have params (sites : List (Site × Param)) (st : State) :
      (sites.foldl (fun st entry => st.bind entry.1 entry.2.id entry.1) st).importees =
        st.importees := by
    induction sites generalizing st with
    | nil => rfl
    | cons entry sites ih => exact ih _
  cases event with
  | enter s =>
      simp only [step, enter, Event.importee?, Site.importee?]
      split <;> simp_all [importees, State.bind]
      unfold lookUp
      split <;> rfl
  | leave s =>
      simp only [step, leave, Event.importee?]
      split <;> simp [importees]
  | opened s =>
      simp only [step, opened, Event.importee?, Option.toList_none, List.append_nil]
      split
      · exact params _ _
      · rfl
      · rfl
  | closed s =>
      simp only [step, closeScope, Event.importee?, Option.toList_none, List.append_nil]
      split <;> rfl

theorem importees_foldl (events : List Event) (st : State) :
    (events.foldl step st).importees = st.importees ++ events.filterMap Event.importee? := by
  induction events generalizing st with
  | nil => simp
  | cons event events ih =>
      rw [List.foldl_cons, ih, importees_step]
      cases importee : event.importee? <;> simp [importee]

end Resolution.State

namespace Document

variable {d : Document} {uri : Uri}

theorem nodup_paths (d : Document) : (d.sites.map Site.path).Nodup :=
  List.Nodup.map_on (fun _ first _ second => Site.eq_of_path_eq first second)
    d.site.nodup_preorder

theorem Built.isClause_site (built : d.Built uri) : Walk.isClause d.site = false := by
  obtain ⟨range, body, root⟩ := built.root
  simp [Walk.isClause, site, root]

theorem Built.events_perm (built : d.Built uri) :
    (Walk.events .keysFirst d.site).Perm
      ((d.sites.filter Walk.isWalked).flatMap Walk.ownEvents) :=
  (Walk.events_perm built.isClause_site).trans (built.entered_perm.flatMap_right _)

/-- What is picked at the events of a node is picked at all nodes of a document. -/
theorem Built.filterMap_events (built : d.Built uri) {pick : Event → Option Site}
    {own : Site → Option Site} (picks : ∀ s, (Walk.ownEvents s).filterMap pick = (own s).toList)
    (walked : ∀ s t, own s = some t → Walk.isWalked s) :
    ((Walk.events .keysFirst d.site).filterMap pick).Perm (d.sites.filterMap own) := by
  refine (built.events_perm.filterMap pick).trans (.of_eq ?_)
  simp only [List.filterMap_flatMap, picks]
  rw [← List.filterMap_eq_flatMap_toList, List.filterMap_filter]
  refine List.filterMap_congr fun s _ => ?_
  cases picked : own s with
  | none => simp
  | some t => simp [walked s t picked]

theorem Built.leave_before (built : d.Built uri) {s t : Site} {e : Expr} (member : s ∈ d.sites)
    (expr : s.node = .expr e) (inside : t ∈ s.preorder) (walked : Walk.isWalked t)
    (other : t ≠ s) : [Event.leave t, Event.leave s].Sublist (Walk.events .keysFirst d.site) := by
  have enters := built.enter_iff.mpr ⟨member, by simp [Walk.isWalked, expr]⟩
  have whole : Walk.isClause s = false := by simp [Walk.isClause, expr]
  have part := Walk.infix_of_enter built.isClause_site whole enters
  exact (Walk.leave_before expr inside walked other).trans part.sublist

theorem nodup_paths_below {own : Site → Option Site} (step : Step)
    (below : ∀ s t, own s = some t → t.path = step :: s.path) :
    ((d.sites.filterMap own).map Site.path).Nodup := by
  have outer (sites : List Site) : ((sites.filterMap own).map Site.path).map List.tail =
      (sites.filter fun s => (own s).isSome).map Site.path := by
    induction sites with
    | nil => rfl
    | cons s sites ih => cases picked : own s <;> simp [picked, ih, below s]
  apply List.Nodup.of_map List.tail
  rw [outer]
  exact d.nodup_paths.sublist (List.filter_sublist.map Site.path)

theorem visited_eq (d : Document) :
    d.visited = (Walk.entered d.site).filter (·.kind.isExpr) := by
  rw [visited, Walk.entered, List.filter_filterMap]
  refine List.filterMap_congr fun event _ => ?_
  cases event <;> simp [Walk.entered?, Option.filter]

/-- A walk visits every expression of the document exactly once, but for the names that bind
    variables and the paths of imports. -/
theorem visited_perm_sites {tree : ParseTree} (done : ofParseTree uri tree = .ok d) :
    d.visited.head? = some d.site ∧
    d.visited.Perm
      (d.sites.filter fun s => s.kind.isExpr && s.kind ≠ .var && s.kind ≠ .importee) ∧
    (d.visited.map Site.path).Nodup := by
  have built := built done
  have walked (s : Site) : (s.kind.isExpr && Walk.isWalked s) =
      (s.kind.isExpr && s.kind ≠ .var && s.kind ≠ .importee) := by
    obtain ⟨uri, node, above⟩ := s
    cases node with
    | expr e => cases e <;> rfl
    | key k => cases k <;> rfl
    | _ => rfl
  have perm : d.visited.Perm
      (d.sites.filter fun s => s.kind.isExpr && s.kind ≠ .var && s.kind ≠ .importee) := by
    rw [visited_eq]
    refine (built.entered_perm.filter _).trans (.of_eq ?_)
    rw [List.filter_filter]
    exact List.filter_congr fun s _ => walked s
  refine ⟨?_, perm, ?_⟩
  · obtain ⟨range, body, root⟩ := built.root
    rw [visited_eq, Walk.entered_eq, List.filter_cons_of_pos]
    · rfl
    · simp [Site.kind, site, root, Node.kind, Expr.kind, Kind.isExpr]
  · rw [(perm.map Site.path).nodup_iff]
    exact d.nodup_paths.sublist (List.filter_sublist.map Site.path)

/-- The tree of `local f = function(p) p.a.b; { local y = f, k: [x for x in y(f(import 'm'))] }`. -/
def mixedTree : ParseTree :=
  let node (type : String) (start stop : Nat) (children : List ParseTree) : ParseTree :=
    { type := type, range := Range.ofNats 0 start 0 stop, children := children }
  let leaf (type : String) (start : Nat) (text : String) : ParseTree :=
    { type := type, range := Range.ofNats 0 start 0 (start + text.length), text := some text }
  let fn := node "anonymous_function" 10 27
    [node "params" 19 20 [node "param" 19 20 [leaf "id" 19 "p"]],
      node "fieldaccess" 22 27
        [node "fieldaccess" 22 25 [leaf "id" 22 "p", leaf "id" 24 "a"], leaf "id" 26 "b"]]
  let path := node "string" 70 73
    [leaf "string_start" 70 "'", leaf "string_content" 71 "m", leaf "string_end" 72 "'"]
  let call := node "functioncall" 59 75
    [leaf "id" 59 "y", node "args" 61 74
      [node "functioncall" 61 74
        [leaf "id" 61 "f", node "args" 63 73 [node "import" 63 73 [path]]]]]
  let loop := node "forloop" 47 76 [leaf "id" 48 "x", node "forspec" 50 75 [leaf "id" 54 "x", call]]
  let field := node "field" 44 76
    [node "fieldname" 44 45 [leaf "id" 44 "k"], { leaf ":" 45 ":" with named := false }, loop]
  let objectLocal := node "objlocal" 31 42
    [leaf "local" 31 "local", node "bind" 37 42 [leaf "id" 37 "y", leaf "id" 41 "f"]]
  node "document" 0 78
    [node "local_bind" 0 78
      [leaf "local" 0 "local", node "bind" 6 27 [leaf "id" 6 "f", fn],
        node "object" 29 78 [node "member" 31 42 [objectLocal], node "member" 44 76 [field]]]]

def mixedIdent (start : Nat) (name : String) : Ident :=
  ⟨Range.ofNats 0 start 0 (start + 1), .ofString name⟩

def mixedInnerRead : Expr :=
  .fieldAccess (Range.ofNats 0 22 0 25) (.ref (mixedIdent 22 "p")) (mixedIdent 24 "a")

def mixedRead : Expr :=
  .fieldAccess (Range.ofNats 0 22 0 27) mixedInnerRead (mixedIdent 26 "b")

def mixedFn : Expr :=
  .fn (Range.ofNats 0 10 0 27) [⟨Range.ofNats 0 19 0 20, mixedIdent 19 "p", none⟩] mixedRead

def mixedBind : LocalBind :=
  ⟨Range.ofNats 0 6 0 27, mixedIdent 6 "f", mixedFn⟩

def mixedArg : Arg :=
  let path : Importee := ⟨Range.ofNats 0 70 0 73, .ofString "m"⟩
  let inner : Arg :=
    ⟨Range.ofNats 0 63 0 73, .importFile (Range.ofNats 0 63 0 73) .value path, none⟩
  ⟨Range.ofNats 0 61 0 74, .call (Range.ofNats 0 61 0 74) (.ref (mixedIdent 61 "f")) [inner], none⟩

def mixedCall : Expr :=
  .call (Range.ofNats 0 59 0 75) (.ref (mixedIdent 59 "y")) [mixedArg]

def mixedSpec : ForSpec :=
  ⟨Range.ofNats 0 50 0 75, mixedIdent 54 "x", mixedCall⟩

def mixedLoop : Expr :=
  .listComp (Range.ofNats 0 47 0 76) (.ref (mixedIdent 48 "x")) mixedSpec []

def mixedField : Field :=
  ⟨Range.ofNats 0 44 0 76, .fixed (Range.ofNats 0 44 0 45) (mixedIdent 44 "k"), mixedLoop,
    .default, false⟩

def mixedObject : Expr :=
  .object (Range.ofNats 0 29 0 78)
    [⟨Range.ofNats 0 37 0 42, mixedIdent 37 "y", .ref (mixedIdent 41 "f")⟩] [] [mixedField]

def mixedLocal : Expr :=
  .localIn (Range.ofNats 0 0 0 78) [mixedBind] mixedObject

def mixedDocument : Document :=
  { uri := "file:///x", root := .expr (.document (Range.ofNats 0 0 0 78) mixedLocal) }

theorem mixed_built : ofParseTree "file:///x" mixedTree = .ok mixedDocument := by
  cbv

def mixedSite : Site :=
  mixedDocument.site.part .body (.expr mixedLocal)

/-- The walk through a document with binds, a function, an object and a comprehension. -/
theorem mixed_visited :
    ofParseTree "file:///x" mixedTree = .ok mixedDocument ∧
    mixedDocument.visited.Perm (mixedDocument.sites.filter fun s =>
      s.kind.isExpr && s.kind ≠ .var && s.kind ≠ .importee) ∧
    (mixedDocument.visited.map Site.path).Nodup :=
  ⟨mixed_built, (visited_perm_sites mixed_built).2⟩

theorem Built.calls_perm (built : d.Built uri) :
    d.resolve.calls.Perm (d.sites.filter (·.kind = .call)) := by
  have picked : (Option.guard fun s : Site => s.kind = .call) = Site.call? := by
    funext s
    rw [Site.call_eq_guard]
  rw [(Prod.mk.inj built.listed).1, ← List.filterMap_eq_filter, picked]
  apply built.filterMap_events
  · intro s
    rw [Walk.filterMap_ownEvents rfl rfl]
    rfl
  · intro s t isCall
    unfold Site.call? at isCall
    split at isCall
    · rename_i node
      simp [Walk.isWalked, node]
    · cases isCall

theorem Built.fieldRefs_perm (built : d.Built uri) :
    d.resolve.fieldRefs.Perm (d.sites.filterMap Site.accessed?) := by
  rw [(Prod.mk.inj built.listed).2]
  apply built.filterMap_events
  · intro s
    rw [Walk.filterMap_ownEvents rfl rfl]
    rfl
  · intro s t accessed
    obtain ⟨range, obj, field, node, -⟩ := Site.accessed_eq_some.mp accessed
    simp [Walk.isWalked, node]

theorem Built.importees_eq (built : d.Built uri) :
    d.resolve.importees = (Walk.events .keysFirst d.site).filterMap Event.importee? := by
  simp only [importees, resolve, built.unresolved]
  exact Resolution.State.importees_foldl _ _

theorem Built.importees_perm (built : d.Built uri) :
    d.resolve.importees.Perm (d.sites.filterMap Site.importee?) := by
  rw [built.importees_eq]
  apply built.filterMap_events
  · intro s
    rw [Walk.filterMap_ownEvents rfl rfl]
    exact List.append_nil _
  · intro s t imported
    obtain ⟨range, kind, importee, node, -⟩ := Site.importee_eq_some.mp imported
    simp [Walk.isWalked, node]

/-- The index of a document lists every call, every name of a field that is read and every path
    of an import exactly once and nothing else, calls and field names after those inside of
    them. -/
theorem index_complete {tree : ParseTree} (done : ofParseTree uri tree = .ok d) :
    (d.resolve.calls.Perm (d.sites.filter (·.kind = .call)) ∧
      (d.resolve.calls.map Site.path).Nodup ∧
      ∀ outer ∈ d.resolve.calls, ∀ inner ∈ d.resolve.calls,
        inner ∈ outer.preorder → inner ≠ outer → [inner, outer].Sublist d.resolve.calls) ∧
    (d.resolve.fieldRefs.Perm (d.sites.filterMap Site.accessed?) ∧
      (d.resolve.fieldRefs.map Site.path).Nodup ∧
      ∀ s ∈ d.sites, ∀ range obj field, s.node = .expr (.fieldAccess range obj field) →
        ∀ t ∈ (s.part .obj (.expr obj)).preorder, ∀ inner, t.accessed? = some inner →
          [inner, s.part .field (.fieldRef field)].Sublist d.resolve.fieldRefs) ∧
    d.resolve.importees.Perm (d.sites.filterMap Site.importee?) ∧
      (d.resolve.importees.map Site.path).Nodup := by
  have built := built done
  have inner {s t : Site} {e : Expr} (member : s ∈ d.sites) (expr : s.node = .expr e)
      (inside : t ∈ s.preorder) (walked : Walk.isWalked t) (other : t ≠ s)
      (pick : Event → Option Site) :
      ([Event.leave t, Event.leave s].filterMap pick).Sublist
        ((Walk.events .keysFirst d.site).filterMap pick) :=
    (built.leave_before member expr inside walked other).filterMap pick
  refine ⟨⟨built.calls_perm, ?_, ?_⟩, ⟨built.fieldRefs_perm, ?_, ?_⟩, built.importees_perm, ?_⟩
  · rw [(built.calls_perm.map Site.path).nodup_iff]
    exact d.nodup_paths.sublist (List.filter_sublist.map Site.path)
  · intro outer listed nested listed' inside other
    obtain ⟨member, isCall⟩ := List.mem_filter.mp (built.calls_perm.mem_iff.mp listed)
    obtain ⟨-, isCall'⟩ := List.mem_filter.mp (built.calls_perm.mem_iff.mp listed')
    obtain ⟨range, callee, args, node⟩ := Site.kind_eq_call.mp (of_decide_eq_true isCall)
    obtain ⟨range', callee', args', node'⟩ := Site.kind_eq_call.mp (of_decide_eq_true isCall')
    have order := inner member node inside (by simp [Walk.isWalked, node']) other Event.call?
    rw [(Prod.mk.inj built.listed).1]
    simpa [Event.call?, node, node'] using order
  · rw [(built.fieldRefs_perm.map Site.path).nodup_iff]
    refine nodup_paths_below ⟨.field, 0⟩ fun s t accessed => ?_
    obtain ⟨range, obj, field, -, rfl⟩ := Site.accessed_eq_some.mp accessed
    rfl
  · intro s member range obj field node t inside ref accessed
    obtain ⟨range', obj', field', node', rfl⟩ := Site.accessed_eq_some.mp accessed
    have child : s.part .obj (.expr obj) ∈ s.children :=
      Site.mem_children_of_part (p := .child .obj (.expr obj))
        (by simp [node, Node.parts, Expr.parts]) (.head _)
    have below : t ∈ s.preorder := Site.mem_preorder.mpr (.inr ⟨_, child, inside⟩)
    have other : t ≠ s := fun same => Site.path_ne_of_below child inside (congrArg Site.path same)
    have order := inner member node below (by simp [Walk.isWalked, node']) other Event.fieldRef?
    rw [(Prod.mk.inj built.listed).2]
    simpa [Event.fieldRef?, node, node'] using order
  · rw [(built.importees_perm.map Site.path).nodup_iff]
    refine nodup_paths_below ⟨.importee, 0⟩ fun s t imported => ?_
    obtain ⟨range, kind, importee, -, rfl⟩ := Site.importee_eq_some.mp imported
    rfl

/-- The site of `p.a.b`. -/
def mixedReadSite : Site :=
  let value := (mixedSite.down ⟨.binds, 0⟩ (.bind mixedBind)).part .value (.expr mixedFn)
  value.part .body (.expr mixedRead)

/-- The site of `y(f(import 'm'))`. -/
def mixedCallSite : Site :=
  let field := (mixedSite.part .body (.expr mixedObject)).down ⟨.fields, 0⟩ (.field mixedField)
  let loop := field.part .value (.expr mixedLoop)
  (loop.part .forSpec (.forSpec mixedSpec)).part .source (.expr mixedCall)

/-- A call that is an argument is listed before the call around it, and of two field names the
    one that is read first. -/
theorem mixed_listed_in_order :
    ofParseTree "file:///x" mixedTree = .ok mixedDocument ∧
    [(mixedCallSite.down ⟨.args, 0⟩ (.arg mixedArg)).part .value (.expr mixedArg.value),
      mixedCallSite].Sublist mixedDocument.resolve.calls ∧
    [(mixedReadSite.part .obj (.expr mixedInnerRead)).part .field (.fieldRef (mixedIdent 24 "a")),
      mixedReadSite.part .field (.fieldRef (mixedIdent 26 "b"))].Sublist
        mixedDocument.resolve.fieldRefs := by
  obtain ⟨⟨calls, -, callsInOrder⟩, ⟨-, -, refsInOrder⟩, -, -⟩ := index_complete mixed_built
  have outer : mixedCallSite ∈ mixedDocument.sites := List.mem_of_getElem? (i := 23) (by cbv)
  have read : mixedReadSite ∈ mixedDocument.sites := List.mem_of_getElem? (i := 7) (by cbv)
  have arg : mixedCallSite.down ⟨.args, 0⟩ (.arg mixedArg) ∈ mixedCallSite.preorder :=
    Site.mem_preorder_of_part (.tail _ (.head _)) (.head _)
  have inner := Site.mem_preorder_trans arg
    (Site.mem_preorder_of_part (c := (mixedCallSite.down ⟨.args, 0⟩ (.arg mixedArg)).part .value
      (.expr mixedArg.value)) (.head _) (.head _))
  have listed {s : Site} (member : s ∈ mixedDocument.sites) (isCall : s.kind = .call) :
      s ∈ mixedDocument.resolve.calls :=
    calls.mem_iff.mpr (List.mem_filter.mpr ⟨member, decide_eq_true isCall⟩)
  refine ⟨mixed_built, ?_, ?_⟩
  · refine callsInOrder _ (listed outer rfl) _ (listed (Site.mem_preorder_trans outer inner) rfl)
      inner fun same => ?_
    exact absurd (congrArg Site.path same) (by decide)
  · exact refsInOrder _ read _ _ _ rfl _ (Site.mem_preorder_self _) _ rfl

end Document

end JsonnetNav
