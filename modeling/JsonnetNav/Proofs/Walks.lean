import JsonnetNav.Proofs.Sites
import JsonnetNav.Walk
import Mathlib.Data.List.Perm.Basic

/-! # What a walk comes to

A walk enters every node of the tree it starts from exactly once, but for the names that
bind variables and the paths of imports, which it never comes to. Most parts of a node are
walked from the node itself. The exceptions are the keys of fields, which are walked apart
from their fields, and clauses, of which only the sources and conditions are walked.
-/

namespace JsonnetNav

namespace Walk

/-- What happens in one step of a plan. -/
def Action.events : Action → List Event
  | .emit event => [event]
  | .visit t => Walk.events .keysFirst t

theorem events_eq (s : Site) :
    events .keysFirst s = (plan .keysFirst s).flatMap Action.events := by
  rw [events]
  conv => rhs; rw [← List.attach_map_subtype_val (plan .keysFirst s), List.flatMap_map]
  congr 1
  funext ⟨action, member⟩
  cases action <;> rfl

theorem clauses_forSpec {c : Site} {f : ForSpec} (node : c.node = .forSpec f)
    (inside : List Action) (rest : List Site) :
    clauses inside (c :: rest) =
      [.emit (.enter c)] ++ ([.visit (c.part .source (.expr f.source))] ++
        (([.emit (.opened c)] ++ clauses inside rest ++ [.emit (.closed c)]) ++
          [.emit (.leave c)])) := by
  simp [clauses, node]

theorem clauses_ifSpec {c : Site} {f : IfSpec} (node : c.node = .ifSpec f)
    (inside : List Action) (rest : List Site) :
    clauses inside (c :: rest) =
      [.emit (.enter c)] ++ ([.visit (c.part .condition (.expr f.condition))] ++
        ([.emit (.leave c)] ++ clauses inside rest)) := by
  simp [clauses, node]

theorem mem_clauses {inside : List Action} {action : Action} (sites : List Site)
    (member : action ∈ inside) : action ∈ clauses inside sites := by
  induction sites with
  | nil => exact member
  | cons c sites ih =>
      rw [clauses]
      split <;> simp [ih]

theorem forall_mem_pair {α : Type} {P : α → Prop} {x y : α} :
    (∀ a ∈ [x, y], P a) ↔ P x ∧ P y := by
  rw [List.forall_mem_cons, List.forall_mem_singleton]

theorem mem_clauseSites {s c : Site} {clause : ForSpec} {rest : List CompSpec}
    (member : c ∈ clauseSites s clause rest) : ∃ spec : CompSpec, c.node = spec.node := by
  rcases List.mem_cons.mp member with rfl | later
  · exact ⟨.forSpec clause, rfl⟩
  · obtain ⟨i, spec, -, rfl⟩ := Site.mem_row.mp later
    exact ⟨spec, rfl⟩

/-! ## The nodes that are entered -/

def entered? : Event → Option Site
  | .enter s => some s
  | _ => none

/-- The sites that a walk enters, in the order of the walk. -/
def entered (s : Site) : List Site :=
  (events .keysFirst s).filterMap entered?

theorem mem_entered {s t : Site} : t ∈ entered s ↔ .enter t ∈ events .keysFirst s := by
  unfold entered
  rw [List.mem_filterMap]
  constructor
  · rintro ⟨event, member, same⟩
    cases event with
    | enter u =>
        cases same
        exact member
    | leave u => cases same
    | opened u => cases same
    | closed u => cases same
  · intro member
    exact ⟨.enter t, member, rfl⟩

/-- The sites that are entered in one step of a plan. -/
def Action.entered : Action → List Site
  | .emit event => (entered? event).toList
  | .visit t => Walk.entered t

theorem entered_eq (s : Site) :
    entered s = s :: (inner .keysFirst s).flatMap Action.entered := by
  have step (action : Action) : action.events.filterMap entered? = action.entered := by
    cases action with
    | emit event => cases event <;> rfl
    | visit t => rfl
  rw [entered, events_eq, List.filterMap_flatMap]
  simp only [step, plan, List.cons_append, List.flatMap_cons, List.flatMap_append,
    List.flatMap_nil, List.append_nil]
  exact congrArg (s :: ·) (List.append_nil _)

/-- The sites from which all of a site is walked. -/
def starts (s : Site) : List Site :=
  match s.node with
  | .field f => [s, s.part .key (.key f.key)]
  | .forSpec f => [s.part .source (.expr f.source)]
  | .ifSpec f => [s.part .condition (.expr f.condition)]
  | .var _ | .importee _ => []
  | _ => [s]

/-- The sites that are entered when all of a site is walked. A clause is entered on the way
    to its source or condition. -/
def covered (s : Site) : List Site :=
  match s.node with
  | .forSpec _ | .ifSpec _ => s :: (starts s).flatMap entered
  | _ => (starts s).flatMap entered

theorem entered_visitAll {sites : List Site} (own : ∀ c ∈ sites, covered c = entered c) :
    (visitAll sites).flatMap Action.entered = sites.flatMap covered := by
  rw [visitAll, List.flatMap_map]
  exact List.flatMap_congr fun c member => (own c member).symm

theorem entered_row {α : Type} (s : Site) (role : Role) {f : α → Node} (xs : List α)
    (own : ∀ step x, covered (s.down step (f x)) = entered (s.down step (f x))) :
    (visitAll (s.row role (xs.map f))).flatMap Action.entered =
      (s.inPart (.children role (xs.map f))).flatMap covered := by
  apply entered_visitAll
  intro c member
  obtain ⟨i, x, -, rfl⟩ := Site.mem_row.mp member
  exact own _ x

theorem entered_option {α : Type} (s : Site) (role : Role) {f : α → Node} (o : Option α)
    (own : ∀ step x, covered (s.down step (f x)) = entered (s.down step (f x))) :
    (visitOption s role (o.map f)).flatMap Action.entered =
      ((Part.ofOption role (o.map f)).flatMap s.inPart).flatMap covered := by
  cases o with
  | none => rfl
  | some x =>
      simp only [Option.map_some, visitOption, Part.ofOption, List.flatMap_singleton, Site.inPart]
      exact (own _ x).symm

theorem entered_clauses (inside : List Action) {sites : List Site}
    (spec : ∀ c ∈ sites, ∃ spec : CompSpec, c.node = spec.node) :
    ((clauses inside sites).flatMap Action.entered).Perm
      (inside.flatMap Action.entered ++ sites.flatMap covered) := by
  induction sites with
  | nil => simp [clauses]
  | cons c sites ih =>
      have rest := ih fun d member => spec d (.tail _ member)
      -- the clause and its source come first on the walk
      have move : (covered c ++ (clauses inside sites).flatMap Action.entered).Perm
          (inside.flatMap Action.entered ++ (c :: sites).flatMap covered) := by
        rw [List.flatMap_cons]
        refine (rest.append_left (covered c)).trans ?_
        rw [← List.append_assoc, ← List.append_assoc]
        exact List.perm_append_comm.append_right _
      obtain ⟨kind, node⟩ := spec c (.head _)
      cases kind with
      | forSpec f =>
          rw [clauses_forSpec node]
          simpa [covered, starts, node, CompSpec.node, Action.entered, entered?] using move
      | ifSpec f =>
          rw [clauses_ifSpec node]
          simpa [covered, starts, node, CompSpec.node, Action.entered, entered?] using move

theorem entered_fields (s : Site) (fs : List Field) (rest : List Action) :
    ((fields .keysFirst (fieldSites s fs) rest).flatMap Action.entered).Perm
      (rest.flatMap Action.entered ++
        (s.inPart (.children .fields (fs.map .field))).flatMap covered) := by
  have row : s.inPart (.children .fields (fs.map .field)) = (fieldSites s fs).map Prod.fst := by
    apply List.ext_getElem <;> simp [Site.inPart, Site.row, fieldSites]
  have each : ∀ x ∈ fieldSites s fs,
      covered x.1 = entered x.1 ++ entered (x.1.part .key (.key x.2.key)) := by
    intro x member
    obtain ⟨i, bound, rfl⟩ := List.mem_mapIdx.mp member
    simp [covered, starts, Site.down]
  rw [row, List.flatMap_map, List.flatMap_congr each]
  simp only [fields, List.flatMap_append, List.flatMap_map, Action.entered]
  refine ((List.perm_append_comm).append_right _).trans ?_
  rw [List.append_assoc]
  refine List.Perm.append_left _ (List.perm_append_comm.trans ?_)
  exact List.flatMap_append_perm (fieldSites s fs) (fun x => entered x.1) _

theorem covered_expr (s : Site) (role : Role) (e : Expr) :
    covered (s.part role (.expr e)) = entered (s.part role (.expr e)) :=
  List.append_nil _

theorem covered_var (s : Site) (role : Role) (id : Ident) : covered (s.part role (.var id)) = [] :=
  rfl

/-- What is entered inside of an expression is what its children cover. -/
theorem entered_inner_expr (uri : Uri) (e : Expr) (above : List (Step × Node)) :
    ((inner .keysFirst ⟨uri, .expr e, above⟩).flatMap Action.entered).Perm
      ((Site.children ⟨uri, .expr e, above⟩).flatMap covered) := by
  let s : Site := ⟨uri, .expr e, above⟩
  have binds (xs : List LocalBind) := entered_row s .binds (f := .bind) xs
    fun _ _ => List.append_nil _
  have asserts (role : Role) (xs : List Assertion) := entered_row s role (f := .assertion) xs
    fun _ _ => List.append_nil _
  have option (role : Role) (o : Option Expr) := entered_option s role (f := .expr) o
    fun _ _ => List.append_nil _
  rw [Site.children_eq]
  simp only [s] at binds asserts option
  cases e with
  | array range values =>
      have row := entered_row s .values (f := .expr) values
        fun _ _ => List.append_nil _
      simp only [inner, Node.parts, Expr.parts, List.flatMap_singleton]
      exact .of_eq row
  | localIn range bs body =>
      simp only [inner, Node.parts, Expr.parts, List.flatMap_append, List.flatMap_cons,
        List.flatMap_nil, binds]
      simp [Action.entered, entered?, Site.inPart, covered_expr]
  | fn range params body =>
      have row := entered_row s .params (f := .param) params
        fun _ _ => List.append_nil _
      simp only [inner, Node.parts, Expr.parts, List.flatMap_append, List.flatMap_cons,
        List.flatMap_nil, row, s]
      simp [Action.entered, entered?, Site.inPart, covered_expr]
  | call range callee args =>
      have row := entered_row s .args (f := .arg) args
        fun _ _ => List.append_nil _
      simp only [inner, Node.parts, Expr.parts, List.flatMap_append, List.flatMap_cons,
        List.flatMap_nil, row, s]
      simp [Action.entered, Site.inPart, covered_expr]
  | listComp range element clause rest =>
      refine (entered_clauses _ fun c => mem_clauseSites).trans (.of_eq ?_)
      simp [Node.parts, Expr.parts, Site.inPart, Action.entered, covered_expr, clauseSites]
  | importFile range kind importee =>
      simp [inner, Node.parts, Expr.parts, Part.ofString, Site.inPart, covered, starts, Site.part,
        Site.down]
  | assertIn range assertion body =>
      have assertion : covered (s.part .assertion (.assertion assertion)) =
          entered (s.part .assertion (.assertion assertion)) := List.append_nil _
      simp only [s] at assertion
      simp [inner, Node.parts, Expr.parts, Site.inPart, Action.entered, covered_expr, assertion]
  | object range bs assertions fs =>
      simp only [inner, Node.parts, Expr.parts, List.flatMap_append, List.flatMap_cons,
        List.flatMap_nil, List.append_nil]
      simp only [Action.entered, entered?, Option.toList_none, List.nil_append, List.append_nil]
      refine (entered_fields _ fs _).trans (.of_eq ?_)
      rw [List.flatMap_append, binds, asserts, List.append_assoc]
  | objComp range field bs assertions clause rest =>
      refine (entered_clauses _ fun c => mem_clauseSites).trans ?_
      simp only [Node.parts, Expr.parts, List.flatMap_append, List.flatMap_cons,
        List.flatMap_nil, List.append_nil, binds, asserts]
      have whole : covered (s.part .field (.field field)) =
          entered (s.part .field (.field field)) ++
            entered ((s.part .field (.field field)).part .key (.key field.key)) := by
        simp [covered, starts, Site.part, Site.down]
      simp only [s] at whole
      simp only [Action.entered, entered?, Option.toList_none, Site.inPart, List.flatMap_cons,
        List.flatMap_nil, List.append_nil, whole, clauseSites, List.append_assoc]
      -- the field is walked after the locals and assertions
      refine .trans ?_ (List.perm_append_comm_assoc _ _ _)
      refine List.Perm.append_left _ ?_
      rw [← List.append_assoc, ← List.append_assoc (List.flatMap _ _) (List.flatMap _ _)]
      exact (List.perm_append_comm_assoc _ _ _)
  | fieldAccess range obj field =>
      have name : covered (s.part .field (.fieldRef field)) =
          entered (s.part .field (.fieldRef field)) := List.append_nil _
      simp only [s] at name
      simp [inner, Node.parts, Expr.parts, Site.inPart, Action.entered, covered_expr, name]
  | slice range xs start stop step =>
      simp only [inner, Node.parts, Expr.parts, List.flatMap_append, option]
      simp [Action.entered, Site.inPart, covered_expr]
  | cond range condition consequence alternative =>
      simp only [inner, Node.parts, Expr.parts, List.flatMap_append, option]
      simp [Action.entered, Site.inPart, covered_expr]
  | _ =>
      simp [inner, Node.parts, Expr.parts, Part.ofString, Site.inPart, Action.entered, covered_expr]

/-- The nodes that a walk comes to. -/
def isWalked (s : Site) : Bool :=
  match s.node with
  | .var _ | .importee _ => false
  | _ => true

/-- All of a node is walked by coming to it and walking all of its children. -/
theorem covered_step {s : Site} (walked : isWalked s) :
    (covered s).Perm (s :: s.children.flatMap covered) := by
  obtain ⟨uri, node, above⟩ := s
  let s : Site := ⟨uri, node, above⟩
  have own (is : covered s = entered s) : (covered s).Perm
      (s :: (inner .keysFirst s).flatMap Action.entered) := .of_eq (is.trans (entered_eq s))
  cases node with
  | expr e => exact (own (List.append_nil _)).trans ((entered_inner_expr uri e above).cons s)
  | bind b =>
      refine (own (List.append_nil _)).trans (.of_eq ?_)
      simp [Site.children_eq, inner, Node.parts, Site.inPart, Action.entered, entered?,
        covered_expr, covered_var, s]
  | param p =>
      refine (own (List.append_nil _)).trans (.of_eq ?_)
      rw [Site.children_eq]
      simp only [inner, Node.parts, s]
      rw [entered_option _ _ _ fun _ _ => List.append_nil _]
      simp [Site.inPart, covered_var]
  | arg a =>
      refine (own (List.append_nil _)).trans (.cons s ?_)
      rw [Site.children_eq]
      simp only [inner, Node.parts, s, List.flatMap_append]
      rw [entered_option _ _ _ fun _ _ => List.append_nil _]
      refine List.perm_append_comm.trans (.of_eq ?_)
      simp [Site.inPart, Action.entered, covered_expr]
  | forSpec f =>
      have source : covered s = s :: entered (s.part .source (.expr f.source)) :=
        congrArg (s :: ·) (List.append_nil _)
      refine .of_eq (source.trans ?_)
      simp [Site.children_eq, Node.parts, Site.inPart, covered_expr, covered_var, s]
  | ifSpec f =>
      have condition : covered s = s :: entered (s.part .condition (.expr f.condition)) :=
        congrArg (s :: ·) (List.append_nil _)
      refine .of_eq (condition.trans ?_)
      simp [Site.children_eq, Node.parts, Site.inPart, covered_expr, s]
  | assertion a =>
      refine (own (List.append_nil _)).trans (.of_eq ?_)
      rw [Site.children_eq]
      simp only [inner, Node.parts, s, List.flatMap_cons]
      rw [entered_option _ _ _ fun _ _ => List.append_nil _]
      simp [Site.inPart, Action.entered, covered_expr]
  | key k =>
      refine (own (List.append_nil _)).trans (.of_eq ?_)
      cases k with
      | fixed range id =>
          have name : covered (s.part .id (.fieldName id)) = entered (s.part .id (.fieldName id)) :=
            List.append_nil _
          simp only [s] at name
          simp [Site.children_eq, inner, Node.parts, Site.inPart, Action.entered, name, s]
      | computed range e =>
          simp [Site.children_eq, inner, Node.parts, Site.inPart, Action.entered, covered_expr, s]
  | field f =>
      have key : covered (s.part .key (.key f.key)) = entered (s.part .key (.key f.key)) :=
        List.append_nil _
      have whole : covered s = s :: (entered (s.part .value (.expr f.value)) ++
          entered (s.part .key (.key f.key))) := by
        simp [covered, starts, entered_eq s, inner, Action.entered, s]
      refine (List.Perm.of_eq whole).trans (.cons s (List.perm_append_comm.trans (.of_eq ?_)))
      simp only [s] at key
      simp [Site.children_eq, Node.parts, Site.inPart, key, covered_expr, s]
  | importee i => cases walked
  | var id => cases walked
  | fieldName id => exact own (List.append_nil _)
  | fieldRef id => exact own (List.append_nil _)
  | paramRef id => exact own (List.append_nil _)

/-- A walk of all of a site comes to every walked node below it exactly once. -/
theorem covered_perm (s : Site) : (covered s).Perm (s.preorder.filter isWalked) := by
  cases walked : isWalked s with
  | true =>
      have below : ∀ c ∈ s.children, (covered c).Perm (c.preorder.filter isWalked) := by
        intro c child
        have smaller := Site.sizeOf_child child
        exact covered_perm c
      rw [Site.preorder_eq, List.filter_cons_of_pos walked, List.filter_flatMap]
      exact (covered_step walked).trans ((List.Perm.flatMap_left _ below).cons s)
  | false =>
      obtain ⟨uri, node, above⟩ := s
      cases node with
      | importee i =>
          simp [Site.preorder_eq, Site.children_eq, Node.parts, Site.inPart, walked, covered,
            starts]
      | var id =>
          simp [Site.preorder_eq, Site.children_eq, Node.parts, Site.inPart, walked, covered,
            starts]
      | _ => cases walked
termination_by sizeOf s.node

theorem mem_covered {s t : Site} : t ∈ covered s ↔ t ∈ s.preorder ∧ isWalked t := by
  rw [(covered_perm s).mem_iff, List.mem_filter]

/-- Every reference is entered on the way. -/
theorem enter_of_mem_preorder {s r : Site} {id : Ident} (inside : r ∈ s.preorder)
    (ref : r.node = .expr (.ref id)) : ∃ t ∈ starts s, .enter r ∈ events .keysFirst t := by
  have walked : isWalked r := by simp [isWalked, ref]
  have covers := mem_covered.mpr ⟨inside, walked⟩
  have started : r ∈ (starts s).flatMap entered := by
    unfold covered at covers
    split at covers
    · rename_i f node
      refine List.mem_of_ne_of_mem ?_ covers
      rintro rfl
      rw [node] at ref
      cases ref
    · rename_i f node
      refine List.mem_of_ne_of_mem ?_ covers
      rintro rfl
      rw [node] at ref
      cases ref
    · exact covers
  obtain ⟨t, start, enters⟩ := List.mem_flatMap.mp started
  exact ⟨t, start, mem_entered.mp enters⟩

theorem mem_preorder_of_enter {s r : Site} (enters : .enter r ∈ events .keysFirst s) :
    r ∈ s.preorder := by
  have member := mem_entered.mpr enters
  have alone (nothing : inner .keysFirst s = []) : r ∈ s.preorder := by
    rw [entered_eq, nothing] at member
    rw [List.mem_singleton.mp member]
    exact Site.mem_preorder_self s
  obtain ⟨uri, node, above⟩ := s
  cases node with
  | forSpec f => exact alone rfl
  | ifSpec f => exact alone rfl
  | importee i => exact alone rfl
  | var id => exact alone rfl
  | _ => exact (mem_covered.mp (List.mem_append_left _ member)).1

end Walk

end JsonnetNav
