import JsonnetNav.Proofs.Documents
import JsonnetNav.Proofs.ScopeViews
import JsonnetNav.Proofs.Walks
import Mathlib

/-! # Resolution follows visibility

On the walk through a document the open scope shows at every site exactly the variables that
are visible there. A part that is walked may open scopes of its own, but closes them again,
and only a bind leaves something behind: its variable. So every reference is looked up among
the variables that are visible at it.
-/

namespace JsonnetNav

/-- What the step of a walk should find: a reference and the newest visible variable of its
    name. -/
def Event.finds : Event → List (Site × Site)
  | .enter s =>
    match s.node with
    | .expr (.ref id) => ((s.visible.lookup id.name).map fun var => (s, var)).toList
    | _ => []
  | _ => []

namespace Site

/-- The variables in sight when the walk comes to a site. It comes to a field for its
    value. -/
def context (s : Site) : Env :=
  match s.node with
  | .field f => (s.part .value (.expr f.value)).visible
  | _ => s.visible

theorem context_expr (s : Site) (role : Role) (e : Expr) :
    (s.part role (.expr e)).context = s.shows ⟨role, 0⟩ ++ s.visible :=
  rfl

theorem context_key (s : Site) (step : Step) (f : Field) :
    ((s.down step (.field f)).part .key (.key f.key)).context = s.shows step ++ s.visible :=
  rfl

theorem context_field (s : Site) (step : Step) (f : Field) :
    (s.down step (.field f)).context = s.locals ++ (s.shows step ++ s.visible) :=
  rfl

/-- The variable that is left in the open scope when the walk is over. -/
def leaves (s : Site) : Env :=
  match s.node with
  | .bind _ => introduced [s]
  | _ => []

end Site

namespace Resolution

/-- Wherever the open scope shows the first variables, the events of a walk lead to a state
    where it shows the second, and find what they should. -/
def Walks (env : Env) (events : List Event) (env' : Env) : Prop :=
  ∀ st : State, st.Shows env →
    st.Reaches (events.flatMap Event.finds) env' (events.foldl State.step st)

namespace Walks

variable {env env' env'' : Env} {events later : List Event}

theorem nil (env : Env) : Walks env [] env :=
  fun _ shows => shows.reaches

theorem append (first : Walks env events env') (second : Walks env' later env'') :
    Walks env (events ++ later) env'' := by
  intro st shows
  have one := first st shows
  have two := one.trans (second _ one.shows)
  simpa using two

theorem inScope (s : Site) (inside : Walks (starting s ++ env) events env') :
    Walks env (.opened s :: events ++ [.closed s]) env := by
  intro st shows
  have opened := shows.opened s
  have walked := opened.trans (inside _ opened.shows)
  have closed := walked.close shows
  simpa [State.step, Event.finds] using closed

theorem leave (s : Site) (env : Env) : Walks env [.leave s] env := by
  intro st shows
  have kept : st.Reaches [] env (st.leave s) := by
    unfold State.leave
    split
    · exact shows.same rfl rfl rfl
    · exact shows.same rfl rfl rfl
    · exact shows.reaches
  simpa [State.step, Event.finds] using kept

theorem enter (s : Site) : Walks s.context [.enter s] (s.leaves ++ s.context) := by
  intro st shows
  obtain ⟨uri, node, above⟩ := s
  simp only [List.foldl_cons, List.foldl_nil, List.flatMap_singleton, State.step]
  cases node with
  | expr e =>
      cases e with
      | ref id => exact shows.lookUp _ id.name
      | importFile range kind importee => exact shows.same rfl rfl rfl
      | _ => exact shows.reaches
  | bind b => exact shows.bind _ b.id _
  | _ => exact shows.reaches

end Walks

/-- As `Walks`, for the steps of a plan. -/
def Follows (env : Env) (actions : List Walk.Action) (env' : Env) : Prop :=
  Walks env (actions.flatMap Walk.Action.events) env'

/-- The walk from a site is as it should be. -/
def Right (s : Site) : Prop :=
  Walks s.context (Walk.events .keysFirst s) (s.leaves ++ s.context)

namespace Follows

variable {env env' env'' : Env} {actions later : List Walk.Action}

theorem nil (env : Env) : Follows env [] env :=
  Walks.nil env

theorem append (first : Follows env actions env') (second : Follows env' later env'') :
    Follows env (actions ++ later) env'' := by
  unfold Follows
  rw [List.flatMap_append]
  exact Walks.append first second

theorem emit {event : Event} (walks : Walks env [event] env') :
    Follows env [.emit event] env' := by
  simpa [Follows, Walk.Action.events] using walks

theorem inScope {s : Site} {added : Env} (starts : starting s = added)
    (inside : Follows (added ++ env) actions env') :
    Follows env ([.emit (.opened s)] ++ actions ++ [.emit (.closed s)]) env := by
  subst starts
  have closed := Walks.inScope s inside
  simpa [Follows, Walk.Action.events] using closed

theorem visit {t : Site} (right : Right t) (sees : t.context = env) :
    Follows env [.visit t] (t.leaves ++ env) := by
  have walked := right
  rw [Right, sees] at walked
  simpa [Follows, Walk.Action.events] using walked

theorem expr {s : Site} {role : Role} {e : Expr} {added : Env}
    (right : Right (s.part role (.expr e))) (shows : s.shows ⟨role, 0⟩ = added) :
    Follows (added ++ s.visible) [.visit (s.part role (.expr e))] (added ++ s.visible) := by
  subst shows
  exact visit right rfl

/-- A part that sees these variables and leaves none is walked. -/
def Plain (env : Env) (action : Walk.Action) : Prop :=
  ∃ t : Site, action = .visit t ∧ t.context = env ∧ t.leaves = []

theorem plain_part {s : Site} {role : Role} {n : Node}
    (sees : (s.part role n).context = env) (leaves : (s.part role n).leaves = []) :
    Plain env (.visit (s.part role n)) :=
  ⟨_, rfl, sees, leaves⟩

theorem plain_row {α : Type} {s : Site} {role : Role} {f : α → Node} {xs : List α}
    (sees : ∀ i x, (s.down ⟨role, i⟩ (f x)).context = env)
    (leaves : ∀ i x, (s.down ⟨role, i⟩ (f x)).leaves = []) :
    ∀ action ∈ Walk.visitAll (s.row role (xs.map f)), Plain env action := by
  intro action member
  simp only [Walk.visitAll, Site.row, List.mem_map, List.mem_mapIdx, List.getElem_map] at member
  obtain ⟨t, ⟨i, bound, rfl⟩, rfl⟩ := member
  exact ⟨_, rfl, sees i _, leaves i _⟩

theorem plain_option {α : Type} {s : Site} {role : Role} {f : α → Node} {o : Option α}
    (sees : ∀ x, (s.part role (f x)).context = env) (leaves : ∀ x, (s.part role (f x)).leaves = []) :
    ∀ action ∈ Walk.visitOption s role (o.map f), Plain env action := by
  intro action member
  cases o with
  | none => simp [Walk.visitOption] at member
  | some x =>
      simp only [Option.map_some, Walk.visitOption, List.mem_singleton] at member
      exact ⟨_, member, sees x, leaves x⟩

theorem plain (right : ∀ t, .visit t ∈ actions → Right t)
    (each : ∀ action ∈ actions, Plain env action) : Follows env actions env := by
  induction actions with
  | nil => exact .nil env
  | cons action actions ih =>
      obtain ⟨t, rfl, sees, leaves⟩ := each action (.head _)
      have first := visit (right t (.head _)) sees
      rw [leaves] at first
      exact first.append (ih (fun u member => right u (.tail _ member))
        (fun other member => each other (.tail _ member)))

/-- Binds are walked one after the other, and each sees the ones before it. -/
theorem binds {row : List Site} {base : Env} (right : ∀ t ∈ row, Right t)
    (bind : ∀ t ∈ row, t.context = t.visible ∧ t.leaves = Site.introduced [t])
    (sees : ∀ i (bound : i < row.length),
      row[i].visible = Site.introduced (row.take i) ++ base) :
    Follows base (Walk.visitAll row) (Site.introduced row ++ base) := by
  induction row generalizing base with
  | nil => exact .nil base
  | cons t row ih =>
      have context : t.context = base := (bind t (.head _)).1.trans (sees 0 (by simp))
      have first := visit (right t (.head _)) context
      rw [(bind t (.head _)).2] at first
      rw [Site.introduced_cons, List.append_assoc]
      refine first.append (ih (fun u member => right u (.tail _ member))
        (fun u member => bind u (.tail _ member)) (fun i bound => ?_))
      have later := sees (i + 1) (by simpa using bound)
      rw [List.take_succ_cons, Site.introduced_cons, List.append_assoc] at later
      exact later

/-- The clauses of a comprehension: each sees the ones before it, and what they range over
    sees them all. -/
theorem clauses {sites : List Site} {base : Env}
    (inside : Follows (Site.introduced sites ++ base) actions (Site.introduced sites ++ base))
    (right : ∀ t, .visit t ∈ Walk.clauses actions sites → Right t)
    (sees : ∀ i (bound : i < sites.length),
      sites[i].visible = Site.introduced (sites.take i) ++ base)
    (spec : ∀ c ∈ sites, ∃ spec : CompSpec, c.node = spec.node) :
    Follows base (Walk.clauses actions sites) base := by
  induction sites generalizing base with
  | nil => exact inside
  | cons c sites ih =>
      have here : c.visible = base := sees 0 (by simp)
      have there : ∀ i (bound : i < sites.length), sites[i].visible =
          Site.introduced (sites.take i) ++ (Site.introduced [c] ++ base) := by
        intro i bound
        have later := sees (i + 1) (by simpa using bound)
        rw [List.take_succ_cons, Site.introduced_cons, List.append_assoc] at later
        exact later
      rw [Site.introduced_cons, List.append_assoc] at inside
      have left : Follows base [.emit (.leave c)] base := emit (Walks.leave c base)
      obtain ⟨kind, node⟩ := spec c (.head _)
      have entered : Follows base [.emit (.enter c)] base := by
        have entering := emit (Walks.enter c)
        cases kind <;> simpa [Site.context, Site.leaves, node, CompSpec.node, here] using entering
      cases kind with
      | forSpec f =>
          rw [Walk.clauses_forSpec node] at right ⊢
          have source : Follows base [.visit (c.part .source (.expr f.source))] base := by
            refine visit (right _ (by simp)) ?_
            simp [Site.context_expr, Site.shows, node, CompSpec.node, here]
          have rest := ih inside (fun t member => right t (by simp [member])) there
            (fun d member => spec d (.tail _ member))
          have ranged := inScope (s := c) (by simp [starting, node, CompSpec.node]) rest
          exact entered.append (source.append (ranged.append left))
      | ifSpec f =>
          rw [Walk.clauses_ifSpec node] at right ⊢
          have condition : Follows base [.visit (c.part .condition (.expr f.condition))] base := by
            refine visit (right _ (by simp)) ?_
            simp [Site.context_expr, Site.shows, node, CompSpec.node, here]
          have nothing : Site.introduced [c] = [] := by
            simp [Site.introduced, Site.introduces?, node, CompSpec.node]
          rw [nothing] at inside there
          have rest := ih inside (fun t member => right t (by simp [member])) there
            (fun d member => spec d (.tail _ member))
          exact entered.append (condition.append (left.append rest))

theorem bindRow (s : Site) (binds : List LocalBind) {base : Env}
    (right : ∀ t ∈ s.bindRow binds, Right t)
    (sees : ∀ i, s.shows ⟨.binds, i⟩ ++ s.visible =
      Site.introduced ((s.bindRow binds).take i) ++ base) :
    Follows base (Walk.visitAll (s.bindRow binds)) (Site.introduced (s.bindRow binds) ++ base) := by
  refine Follows.binds right ?_ ?_
  · intro t member
    simp only [Site.bindRow, Site.row, List.mem_mapIdx, List.getElem_map] at member
    obtain ⟨i, bound, rfl⟩ := member
    exact ⟨rfl, rfl⟩
  · intro i bound
    rw [← sees i]
    simp only [Site.bindRow, Site.row, List.getElem_mapIdx]
    rfl

theorem clauseRow {s : Site} {clause : ForSpec} {rest : List CompSpec}
    (right : ∀ t, .visit t ∈ Walk.clauses actions (Walk.clauseSites s clause rest) → Right t)
    (first : s.shows ⟨.forSpec, 0⟩ = [])
    (later : ∀ i, s.shows ⟨.compSpec, i⟩ =
      Site.introduced ((Walk.clauseSites s clause rest).take (i + 1)))
    (inside : Follows (Site.introduced (Walk.clauseSites s clause rest) ++ s.visible) actions
      (Site.introduced (Walk.clauseSites s clause rest) ++ s.visible)) :
    Follows s.visible (Walk.clauses actions (Walk.clauseSites s clause rest)) s.visible := by
  refine Follows.clauses inside right ?_ ?_
  · intro i bound
    cases i with
    | zero => simp [Walk.clauseSites, Site.visible_part, first, Site.introduced]
    | succ i =>
        rw [← later i]
        simp only [Walk.clauseSites, Site.row, List.getElem_cons_succ, List.getElem_mapIdx]
        rfl
  · intro c member
    simp only [Walk.clauseSites, List.mem_cons, Site.row, List.mem_mapIdx, List.getElem_map] at member
    rcases member with rfl | ⟨i, bound, rfl⟩
    · exact ⟨.forSpec clause, rfl⟩
    · exact ⟨_, rfl⟩

theorem localIn {s : Site} {range : Range} {binds : List LocalBind} {body : Expr}
    (node : s.node = .expr (.localIn range binds body))
    (right : ∀ t, .visit t ∈ Walk.inner .keysFirst s → Right t) :
    Follows s.visible (Walk.inner .keysFirst s) s.visible := by
  have plan : Walk.inner .keysFirst s = [.emit (.opened s)] ++
      (Walk.visitAll (s.bindRow binds) ++ [.visit (s.part .body (.expr body))]) ++
      [.emit (.closed s)] := by
    simp [Walk.inner, node, Site.bindRow]
  have starts : starting s = [] := by simp only [starting, node]
  have toBind (i : Nat) : s.shows ⟨.binds, i⟩ ++ s.visible =
      Site.introduced ((s.bindRow binds).take i) ++ s.visible := by
    simp only [Site.shows, node]
  have toBody : s.shows ⟨.body, 0⟩ = Site.introduced (s.bindRow binds) := by
    simp only [Site.shows, node]
  rw [plan] at right ⊢
  have bound := bindRow s binds (fun t member => right t (by simp [Walk.visitAll, member])) toBind
  have inBody := expr (right (s.part .body (.expr body)) (by simp)) toBody
  exact inScope starts (bound.append inBody)

theorem fn {s : Site} {range : Range} {params : List Param} {body : Expr}
    (node : s.node = .expr (.fn range params body))
    (right : ∀ t, .visit t ∈ Walk.inner .keysFirst s → Right t) :
    Follows s.visible (Walk.inner .keysFirst s) s.visible := by
  have plan : Walk.inner .keysFirst s = [.emit (.opened s)] ++
      (Walk.visitAll (s.paramRow params) ++ [.visit (s.part .body (.expr body))]) ++
      [.emit (.closed s)] := by
    simp [Walk.inner, node, Site.paramRow]
  have starts : starting s = Site.introduced (s.paramRow params) := by simp only [starting, node]
  have toPart (step : Step) : s.shows step = Site.introduced (s.paramRow params) := by
    simp only [Site.shows, node]
  rw [plan] at right ⊢
  have defaults : Follows (Site.introduced (s.paramRow params) ++ s.visible)
      (Walk.visitAll (s.paramRow params)) (Site.introduced (s.paramRow params) ++ s.visible) := by
    refine plain (fun t member => right t (by simp [member])) (plain_row (fun i p => ?_) ?_)
    · rw [← toPart ⟨.params, i⟩]
      rfl
    · exact fun i p => rfl
  have inBody := expr (right (s.part .body (.expr body)) (by simp)) (toPart ⟨.body, 0⟩)
  exact inScope starts (defaults.append inBody)

theorem listComp {s : Site} {range : Range} {element : Expr} {clause : ForSpec}
    {rest : List CompSpec} (node : s.node = .expr (.listComp range element clause rest))
    (right : ∀ t, .visit t ∈ Walk.inner .keysFirst s → Right t) :
    Follows s.visible (Walk.inner .keysFirst s) s.visible := by
  have toFirst : s.shows ⟨.forSpec, 0⟩ = [] := by simp only [Site.shows, node]
  have toClause (i : Nat) : s.shows ⟨.compSpec, i⟩ =
      Site.introduced ((Walk.clauseSites s clause rest).take (i + 1)) := by
    simp only [Site.shows, node]
  have toElement : s.shows ⟨.expr, 0⟩ = Site.introduced (Walk.clauseSites s clause rest) := by
    simp only [Site.shows, node]
  simp only [Walk.inner, node] at right ⊢
  refine clauseRow right toFirst toClause ?_
  exact expr (right _ (Walk.mem_clauses _ (by simp))) toElement

theorem object {s : Site} {range : Range} {binds : List LocalBind} {assertions : List Assertion}
    {fields : List Field} (node : s.node = .expr (.object range binds assertions fields))
    (right : ∀ t, .visit t ∈ Walk.inner .keysFirst s → Right t) :
    Follows s.visible (Walk.inner .keysFirst s) s.visible := by
  let sites := Walk.fieldSites s fields
  let keys : List Walk.Action := sites.map fun x => .visit (x.1.part .key (.key x.2.key))
  let asserts := Walk.visitAll (s.row .assertions (assertions.map .assertion))
  let values : List Walk.Action := sites.map fun x => .visit x.1
  have plan : Walk.inner .keysFirst s = [.emit (.opened s)] ++
      (keys ++ (Walk.visitAll (s.bindRow binds) ++ (asserts ++ values))) ++
      [.emit (.closed s)] := by
    simp [Walk.inner, node, Site.bindRow, Walk.fields, keys, asserts, values, sites]
  have starts : starting s = [] := by simp only [starting, node]
  have toField (i : Nat) : s.shows ⟨.fields, i⟩ = [] := by simp only [Site.shows, node]
  have toBind (i : Nat) : s.shows ⟨.binds, i⟩ ++ s.visible =
      Site.introduced ((s.bindRow binds).take i) ++ s.visible := by
    simp only [Site.shows, node]
  have locals : s.locals = Site.introduced (s.bindRow binds) := by simp only [Site.locals, node]
  have toAssertion (i : Nat) : s.shows ⟨.assertions, i⟩ = s.locals := by
    simp only [Site.shows, node]
  rw [plan] at right ⊢
  have keysWalked : Follows s.visible keys s.visible := by
    refine plain (fun t member => right t (by simp [member])) (fun action member => ?_)
    simp only [keys, sites, Walk.fieldSites, List.mem_map, List.mem_mapIdx] at member
    obtain ⟨x, ⟨i, bound, rfl⟩, rfl⟩ := member
    exact ⟨_, rfl, by rw [Site.context_key, toField, List.nil_append], rfl⟩
  have bound := bindRow s binds (fun t member => right t (by simp [Walk.visitAll, member])) toBind
  rw [← locals] at bound
  have asserted : Follows (s.locals ++ s.visible) asserts (s.locals ++ s.visible) := by
    refine plain (fun t member => right t (by simp [member])) (plain_row (fun i a => ?_) ?_)
    · rw [← toAssertion i]
      rfl
    · exact fun i a => rfl
  have valuesWalked : Follows (s.locals ++ s.visible) values (s.locals ++ s.visible) := by
    refine plain (fun t member => right t (by simp [member])) (fun action member => ?_)
    simp only [values, sites, Walk.fieldSites, List.mem_map, List.mem_mapIdx] at member
    obtain ⟨x, ⟨i, bound, rfl⟩, rfl⟩ := member
    exact ⟨_, rfl, by rw [Site.context_field, toField, List.nil_append], rfl⟩
  exact inScope starts (keysWalked.append (bound.append (asserted.append valuesWalked)))

theorem objComp {s : Site} {range : Range} {field : Field} {binds : List LocalBind}
    {assertions : List Assertion} {clause : ForSpec} {rest : List CompSpec}
    (node : s.node = .expr (.objComp range field binds assertions clause rest))
    (right : ∀ t, .visit t ∈ Walk.inner .keysFirst s → Right t) :
    Follows s.visible (Walk.inner .keysFirst s) s.visible := by
  let clauses := Walk.clauseSites s clause rest
  let key : Walk.Action := .visit ((s.part .field (.field field)).part .key (.key field.key))
  let asserts := Walk.visitAll (s.row .asserts (assertions.map .assertion))
  have plan : Walk.inner .keysFirst s = Walk.clauses ([key] ++ ([.emit (.opened s)] ++
      (Walk.visitAll (s.bindRow binds) ++ (asserts ++ [.visit (s.part .field (.field field))])) ++
      [.emit (.closed s)])) clauses := by
    simp [Walk.inner, node, Site.bindRow, key, asserts, clauses]
  have starts : starting s = [] := by simp only [starting, node]
  have toFirst : s.shows ⟨.forSpec, 0⟩ = [] := by simp only [Site.shows, node]
  have toClause (i : Nat) : s.shows ⟨.compSpec, i⟩ = Site.introduced (clauses.take (i + 1)) := by
    simp only [Site.shows, node, clauses]
  have toField : s.shows ⟨.field, 0⟩ = Site.introduced clauses := by
    simp only [Site.shows, node, clauses]
  have toBind (i : Nat) : s.shows ⟨.binds, i⟩ ++ s.visible =
      Site.introduced ((s.bindRow binds).take i) ++ (Site.introduced clauses ++ s.visible) := by
    simp only [Site.shows, node, clauses, List.append_assoc]
  have locals : s.locals = Site.introduced (s.bindRow binds) := by simp only [Site.locals, node]
  have toAssertion (i : Nat) : s.shows ⟨.asserts, i⟩ = s.locals ++ Site.introduced clauses := by
    simp only [Site.shows, node, clauses]
  rw [plan] at right ⊢
  have listed (t : Site) (member : Walk.Action.visit t ∈ _) : Right t :=
    right t (Walk.mem_clauses clauses member)
  refine clauseRow right toFirst toClause ?_
  have keyWalked : Follows (Site.introduced clauses ++ s.visible) [key]
      (Site.introduced clauses ++ s.visible) := by
    refine visit (listed _ (by simp [key])) ?_
    rw [← toField]
    exact Site.context_key s ⟨.field, 0⟩ field
  have bound := bindRow s binds (fun t member => listed t (by simp [Walk.visitAll, member])) toBind
  rw [← locals] at bound
  have asserted : Follows (s.locals ++ (Site.introduced clauses ++ s.visible)) asserts
      (s.locals ++ (Site.introduced clauses ++ s.visible)) := by
    refine plain (fun t member => listed t (by simp [member])) (plain_row (fun i a => ?_) ?_)
    · rw [← List.append_assoc, ← toAssertion i]
      rfl
    · exact fun i a => rfl
  have valueWalked : Follows (s.locals ++ (Site.introduced clauses ++ s.visible))
      [.visit (s.part .field (.field field))]
      (s.locals ++ (Site.introduced clauses ++ s.visible)) := by
    refine visit (listed _ (by simp)) ?_
    rw [← toField]
    exact Site.context_field s ⟨.field, 0⟩ field
  exact keyWalked.append (inScope starts (bound.append (asserted.append valueWalked)))

/-- What is walked inside of a site leaves the open scope as it was. -/
theorem inner {s : Site} (right : ∀ t, .visit t ∈ Walk.inner .keysFirst s → Right t) :
    Follows (s.leaves ++ s.context) (Walk.inner .keysFirst s) (s.leaves ++ s.context) := by
  obtain ⟨uri, node, above⟩ := s
  cases node with
  | expr e =>
      cases e with
      | localIn range binds body => exact localIn rfl right
      | fn range params body => exact fn rfl right
      | listComp range element clause rest => exact listComp rfl right
      | object range binds assertions fields => exact object rfl right
      | objComp range field binds assertions clause rest => exact objComp rfl right
      | document range body =>
          exact plain right (List.forall_mem_singleton.mpr (plain_part rfl rfl))
      | array range values => exact plain right (plain_row (fun _ _ => rfl) (fun _ _ => rfl))
      | unary range op operand =>
          exact plain right (List.forall_mem_singleton.mpr (plain_part rfl rfl))
      | binary range op lhs rhs =>
          exact plain right (Walk.forall_mem_pair.mpr ⟨plain_part rfl rfl, plain_part rfl rfl⟩)
      | call range callee args =>
          exact plain right (List.forall_mem_cons.mpr
            ⟨plain_part rfl rfl, plain_row (fun _ _ => rfl) (fun _ _ => rfl)⟩)
      | assertIn range assertion body =>
          exact plain right (Walk.forall_mem_pair.mpr ⟨plain_part rfl rfl, plain_part rfl rfl⟩)
      | fieldAccess range obj field =>
          exact plain right (Walk.forall_mem_pair.mpr ⟨plain_part rfl rfl, plain_part rfl rfl⟩)
      | slice range array start stop step =>
          refine plain right (List.forall_mem_append.mpr ⟨List.forall_mem_append.mpr ⟨?_, ?_⟩, ?_⟩)
          · exact Walk.forall_mem_pair.mpr ⟨plain_part rfl rfl, plain_part rfl rfl⟩
          · exact plain_option (fun _ => rfl) (fun _ => rfl)
          · exact plain_option (fun _ => rfl) (fun _ => rfl)
      | cond range condition consequence alternative =>
          refine plain right (List.forall_mem_append.mpr ⟨?_, ?_⟩)
          · exact Walk.forall_mem_pair.mpr ⟨plain_part rfl rfl, plain_part rfl rfl⟩
          · exact plain_option (fun _ => rfl) (fun _ => rfl)
      | _ => exact nil _
  | bind b =>
      let s : Site := ⟨uri, .bind b, above⟩
      have starts : starting s = [] := rfl
      have toValue : s.shows ⟨.value, 0⟩ = s.leaves := rfl
      have value := expr (right (s.part .value (.expr b.value)) (by simp [Walk.inner, s])) toValue
      exact inScope starts value
  | param p => exact plain right (plain_option (fun _ => rfl) (fun _ => rfl))
  | arg a =>
      refine plain right (List.forall_mem_append.mpr ⟨?_, ?_⟩)
      · exact plain_option (fun _ => rfl) (fun _ => rfl)
      · exact List.forall_mem_singleton.mpr (plain_part rfl rfl)
  | assertion a =>
      exact plain right (List.forall_mem_cons.mpr
        ⟨plain_part rfl rfl, plain_option (fun _ => rfl) (fun _ => rfl)⟩)
  | key k =>
      cases k with
      | fixed range id =>
          exact plain right (List.forall_mem_singleton.mpr (plain_part rfl rfl))
      | computed range e =>
          exact plain right (List.forall_mem_singleton.mpr (plain_part rfl rfl))
  | field f => exact plain right (List.forall_mem_singleton.mpr (plain_part rfl rfl))
  | _ => exact nil _

end Follows

/-- The walk through every site goes as it should. -/
theorem right (s : Site) : Right s := by
  have parts : ∀ t, .visit t ∈ Walk.inner .keysFirst s → Right t := by
    intro t member
    have smaller := Walk.visitsBelow_inner .keysFirst s t member
    exact right t
  have entered := Follows.emit (Walks.enter s)
  have left := Follows.emit (Walks.leave s (s.leaves ++ s.context))
  have walked := entered.append ((Follows.inner parts).append left)
  rw [Right, Walk.events_eq]
  exact walked
termination_by sizeOf s.node

/-- In a new document nothing can be seen. -/
theorem shows_start (root : Site) :
    State.Shows ⟨{ scopes := (ScopeTable.empty {} root).1 }, (ScopeTable.empty {} root).2⟩ [] := by
  have only {i : Nat} {s : Scope}
      (found : (#[⟨root, 0, none, 0⟩] : Array Scope)[i]? = some s) :
      i = 0 ∧ s = ⟨root, 0, none, 0⟩ := by
    cases i with
    | zero => simpa using found.symm
    | succ i => simp at found
  have stacked : (ScopeTable.empty {} root).1.Stacked := by
    refine ⟨rfl, ?_, ?_⟩
    · intro i s found
      obtain ⟨rfl, rfl⟩ := only found
      rfl
    · intro i p s found parent
      obtain ⟨rfl, rfl⟩ := only found
      cases parent
  refine ⟨stacked, Nat.one_pos, ?_⟩
  rw [stacked.view_eq (s := ⟨root, 0, none, 0⟩) rfl]
  rfl

/-- The references that are found are those that can be, in the order of the walk. -/
theorem found_run {root : Site} (top : root.context = []) :
    (run root none).uses.toList.map (fun use => (use.ref, use.binding.id)) =
      (Walk.events .keysFirst root).flatMap Event.finds := by
  have shows := shows_start root
  have walks := right root
  rw [Right, top] at walks
  exact (walks _ shows).found

end Resolution

theorem mem_finds {events : List Event} {ref var : Site} :
    (ref, var) ∈ events.flatMap Event.finds ↔
      ∃ id, .enter ref ∈ events ∧ ref.node = .expr (.ref id) ∧
        ref.visible.lookup id.name = some var := by
  constructor
  · intro found
    obtain ⟨event, member, finds⟩ := List.mem_flatMap.mp found
    unfold Event.finds at finds
    split at finds
    · rename_i s
      split at finds
      · rename_i id node
        obtain ⟨v, visible, same⟩ := Option.map_eq_some_iff.mp (Option.mem_toList.mp finds)
        cases same
        exact ⟨id, member, node, visible⟩
      · simp at finds
    · simp at finds
  · intro ⟨id, entered, node, visible⟩
    refine List.mem_flatMap.mpr ⟨.enter ref, entered, ?_⟩
    simp [Event.finds, node, visible]

namespace Document

/-- After one resolution a reference stands for the newest variable of its name that is visible
    at it, and for nothing if there is none. -/
theorem bindingOfRef_eq_visible {uri : Uri} {tree : ParseTree} {d : Document}
    (done : ofParseTree uri tree = .ok d) {ref : Site} (member : ref ∈ d.sites) {id : Ident}
    (node : ref.node = .expr (.ref id)) :
    (d.resolve.bindingOfRef? ref).map Binding.id = ref.visible.lookup id.name := by
  obtain ⟨range, body, root⟩ := (built done).root
  have top : d.site.context = [] := by
    simp [Site.context, site, root, Site.visible, Site.visibleBehind]
  have found := Resolution.found_run top
  have resolved : d.resolve.bindingOfRef? ref = (Resolution.run d.site none).bindingOfRef? ref := by
    simp [resolve, Document.bindingOfRef?, (built done).unresolved]
  rw [resolved, Resolution.bindingOfRef?, Option.map_map]
  cases answer : (Resolution.run d.site none).uses.find? (·.ref.isAt ref) with
  | some use =>
      have listed :
          (use.ref, use.binding.id) ∈ (Walk.events .keysFirst d.site).flatMap Event.finds := by
        rw [← found]
        exact List.mem_map_of_mem (Array.mem_toList_iff.mpr (Array.mem_of_find?_eq_some answer))
      obtain ⟨id', entered, node', visible⟩ := mem_finds.mp listed
      -- references are compared by place, and no two nodes of the walk share one
      have isAt : use.ref.isAt ref = true := by simpa using Array.find?_some answer
      have same := (Site.isAt_iff (Walk.mem_preorder_of_enter entered) member).mp isAt
      rw [same, node] at node'
      cases node'
      rw [← same, visible]
      rfl
  | none =>
      cases visible : ref.visible.lookup id.name with
      | none => rfl
      | some var =>
          obtain ⟨t, start, entered⟩ := Walk.enter_of_mem_preorder member node
          have fromRoot : t = d.site := by simpa [Walk.starts, site, root] using start
          rw [fromRoot] at entered
          have listed := mem_finds.mpr ⟨id, entered, node, visible⟩
          rw [← found] at listed
          obtain ⟨use, inUses, same⟩ := List.mem_map.mp listed
          have missed := Array.find?_eq_none.mp answer use (Array.mem_toList_iff.mp inUses)
          simp [(Prod.mk.inj same).1, Site.isAt] at missed

/-- The parse tree of `local x = null, x = x; x`. -/
def shadowTree : ParseTree :=
  let range := Range.ofNats 0 0 0 24
  let x : ParseTree := { type := "id", range := range, text := some "x" }
  let bind := fun value => { type := "bind", range := range, children := [x, value] }
  { type := "document", range := range, children :=
    [{ type := "local_bind", range := range, children :=
      [{ type := "local", range := range }, bind { type := "null", range := range }, bind x, x] }] }

def shadowX : Ident :=
  ⟨Range.ofNats 0 0 0 24, .ofString "x"⟩

def shadowSecond : LocalBind :=
  ⟨Range.ofNats 0 0 0 24, shadowX, .ref shadowX⟩

def shadowLocal : Expr :=
  let range := Range.ofNats 0 0 0 24
  .localIn range [⟨range, shadowX, .null range⟩, shadowSecond] (.ref shadowX)

def shadowDocument : Document :=
  { uri := "file:///x", root := .expr (.document (Range.ofNats 0 0 0 24) shadowLocal) }

def shadowSite : Site :=
  shadowDocument.site.part .body (.expr shadowLocal)

/-- Of two locals of one name the body sees the second. -/
theorem shadow_body_sees_second :
    ofParseTree "file:///x" shadowTree = .ok shadowDocument ∧
    shadowSite.part .body (.expr (.ref shadowX)) ∈ shadowDocument.sites ∧
    (shadowDocument.resolve.bindingOfRef? (shadowSite.part .body (.expr (.ref shadowX)))).map
        Binding.id =
      some ((shadowSite.down ⟨.binds, 1⟩ (.bind shadowSecond)).part .id (.var shadowX)) := by
  have done : ofParseTree "file:///x" shadowTree = .ok shadowDocument := by cbv
  have member : shadowSite.part .body (.expr (.ref shadowX)) ∈ shadowDocument.sites := by
    refine Site.mem_preorder_trans (t := shadowSite) ?_ ?_
    · exact Site.mem_preorder_of_part (.head _) (.head _)
    · exact Site.mem_preorder_of_part (.tail _ (.head _)) (.head _)
  refine ⟨done, member, ?_⟩
  rw [bindingOfRef_eq_visible done member rfl]
  rfl

end Document

end JsonnetNav
