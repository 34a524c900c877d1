import JsonnetNav.Ast.Site

/-! # Walks

A walk through a document is the list of what happens on the way: nodes are entered
and left, and the scopes they own are opened and closed. Every answer that needs to
see the whole document reads this one list.

The order of a walk is the order in which names become visible. The source of a
comprehension clause comes before its variable, the keys of an object come before its
locals, and the scope of a clause stays open up to the end of its comprehension.
-/

namespace JsonnetNav

/-- What happens on a walk. -/
inductive Event where
  | enter (site : Site)
  | leave (site : Site)
  /-- The scope owned by the node begins. -/
  | opened (site : Site)
  /-- The scope owned by the node ends. -/
  | closed (site : Site)

/-- The order in which the parts of an object are walked. -/
inductive ObjectOrder where
  /-- All keys, then locals and assertions, then all values. -/
  | keysFirst
  /-- Each key with its value, then locals and assertions. -/
  | fieldByField
  deriving Repr, DecidableEq

namespace Walk

/-- One step of a walk: something happens, or a part is walked. -/
inductive Action where
  | emit (event : Event)
  | visit (site : Site)

/-- Walks the sites one after another. -/
def visitAll (sites : List Site) : List Action :=
  sites.map .visit

/-- Walks a part that may be missing. -/
def visitOption (s : Site) (role : Role) : Option Node → List Action
  | some node => [.visit (s.part role node)]
  | none => []

/-- The clauses of a comprehension around what they range over. -/
def clauses (inner : List Action) : List Site → List Action
  | [] => inner
  | c :: rest =>
    match c.node with
    | .forSpec f =>
      [.emit (.enter c), .visit (c.part .source (.expr f.source)), .emit (.opened c)]
        ++ clauses inner rest ++ [.emit (.closed c), .emit (.leave c)]
    | .ifSpec i =>
      [.emit (.enter c), .visit (c.part .condition (.expr i.condition)), .emit (.leave c)]
        ++ clauses inner rest
    | _ => clauses inner rest

/-- The sites of the clauses of a comprehension. -/
def clauseSites (s : Site) (clause : ForSpec) (rest : List CompSpec) : List Site :=
  s.part .forSpec (.forSpec clause) :: s.row .compSpec (rest.map CompSpec.node)

/-- The sites of the fields of an object. -/
def fieldSites (s : Site) (fields : List Field) : List (Site × Field) :=
  fields.mapIdx fun i f => (s.down ⟨.fields, i⟩ (.field f), f)

/-- The keys and values of an object around the rest of it, in the given order. -/
def fields (order : ObjectOrder) (sites : List (Site × Field)) (rest : List Action) :
    List Action :=
  let key := fun ((s, f) : Site × Field) => Action.visit (s.part .key (.key f.key))
  match order with
  | .keysFirst => sites.map key ++ rest ++ sites.map fun (s, _) => .visit s
  | .fieldByField => (sites.flatMap fun x => [key x, .visit x.1]) ++ rest

/-- What happens between entering and leaving a site. Walking a field means walking
    its value; its key is walked on its own. -/
def inner (order : ObjectOrder) (s : Site) : List Action :=
  match s.node with
  | .expr (.document _ body) => [.visit (s.part .body (.expr body))]
  | .expr (.array _ values) => visitAll (s.row .values (values.map .expr))
  | .expr (.unary _ _ operand) => [.visit (s.part .operand (.expr operand))]
  | .expr (.binary _ _ lhs rhs) =>
    [.visit (s.part .lhs (.expr lhs)), .visit (s.part .rhs (.expr rhs))]
  | .expr (.localIn _ binds body) =>
    [.emit (.opened s)] ++ visitAll (s.row .binds (binds.map .bind))
      ++ [.visit (s.part .body (.expr body)), .emit (.closed s)]
  | .expr (.fn _ params body) =>
    [.emit (.opened s)] ++ visitAll (s.row .params (params.map .param))
      ++ [.visit (s.part .body (.expr body)), .emit (.closed s)]
  | .expr (.call _ callee args) =>
    .visit (s.part .callee (.expr callee)) :: visitAll (s.row .args (args.map .arg))
  | .expr (.listComp _ element clause rest) =>
    clauses [.visit (s.part .expr (.expr element))] (clauseSites s clause rest)
  | .expr (.assertIn _ assertion body) =>
    [.visit (s.part .assertion (.assertion assertion)), .visit (s.part .body (.expr body))]
  | .expr (.object _ binds assertions fs) =>
    [.emit (.opened s)]
      ++ fields order (fieldSites s fs)
        (visitAll (s.row .binds (binds.map .bind))
          ++ visitAll (s.row .assertions (assertions.map .assertion)))
      ++ [.emit (.closed s)]
  | .expr (.objComp _ field binds assertions clause rest) =>
    let fieldSite := s.part .field (.field field)
    clauses
      ([.visit (fieldSite.part .key (.key field.key)), .emit (.opened s)]
        ++ visitAll (s.row .binds (binds.map .bind))
        ++ visitAll (s.row .asserts (assertions.map .assertion))
        ++ [.visit fieldSite, .emit (.closed s)])
      (clauseSites s clause rest)
  | .expr (.fieldAccess _ obj field) =>
    [.visit (s.part .obj (.expr obj)), .visit (s.part .field (.fieldRef field))]
  | .expr (.slice _ array start stop step) =>
    [.visit (s.part .array (.expr array)), .visit (s.part .start (.expr start))]
      ++ visitOption s .stop (stop.map .expr) ++ visitOption s .step (step.map .expr)
  | .expr (.cond _ condition consequence alternative) =>
    [.visit (s.part .condition (.expr condition)), .visit (s.part .consequence (.expr consequence))]
      ++ visitOption s .alternative (alternative.map .expr)
  | .bind b => [.emit (.opened s), .visit (s.part .value (.expr b.value)), .emit (.closed s)]
  | .param p => visitOption s .default (p.default.map .expr)
  | .arg a => visitOption s .id (a.name.map .paramRef) ++ [.visit (s.part .value (.expr a.value))]
  | .assertion a =>
    .visit (s.part .condition (.expr a.condition)) :: visitOption s .message (a.message.map .expr)
  | .key (.fixed _ id) => [.visit (s.part .id (.fieldName id))]
  | .key (.computed _ e) => [.visit (s.part .expr (.expr e))]
  | .field f => [.visit (s.part .value (.expr f.value))]
  | _ => []

/-- The steps of the walk at a site. -/
def plan (order : ObjectOrder) (s : Site) : List Action :=
  .emit (.enter s) :: inner order s ++ [.emit (.leave s)]

/-! ## Every part that is walked is smaller -/

/-- The steps walk nodes below the bound only. -/
def VisitsBelow (bound : Nat) (actions : List Action) : Prop :=
  ∀ t, .visit t ∈ actions → sizeOf t.node < bound

section VisitsBelow

variable {bound : Nat} {s : Site}

theorem visitsBelow_nil : VisitsBelow bound [] := by
  simp [VisitsBelow]

theorem visitsBelow_append {as bs : List Action} :
    VisitsBelow bound (as ++ bs) ↔ VisitsBelow bound as ∧ VisitsBelow bound bs := by
  simp only [VisitsBelow, List.mem_append]
  exact ⟨fun h => ⟨fun t ht => h t (.inl ht), fun t ht => h t (.inr ht)⟩,
    fun h t ht => ht.elim (h.1 t) (h.2 t)⟩

theorem visitsBelow_emit {e : Event} {as : List Action} :
    VisitsBelow bound (.emit e :: as) ↔ VisitsBelow bound as := by
  simp [VisitsBelow]

theorem visitsBelow_visit {t : Site} {as : List Action} :
    VisitsBelow bound (.visit t :: as) ↔ sizeOf t.node < bound ∧ VisitsBelow bound as := by
  simp only [VisitsBelow, List.mem_cons, Action.visit.injEq]
  exact ⟨fun h => ⟨h t (.inl rfl), fun u hu => h u (.inr hu)⟩,
    fun h u hu => hu.elim (fun e => e ▸ h.1) (h.2 u)⟩

theorem visitsBelow_row {α : Type} [SizeOf α] {role : Role} {f : α → Node} {xs : List α}
    (hf : ∀ x, sizeOf (f x) ≤ 1 + sizeOf x) (hxs : sizeOf xs < bound) :
    VisitsBelow bound (visitAll (s.row role (xs.map f))) := by
  intro t ht
  simp only [visitAll, List.mem_map, Action.visit.injEq, exists_eq_right, Site.row,
    List.mem_mapIdx, List.getElem_map, List.length_map] at ht
  obtain ⟨i, hi, rfl⟩ := ht
  have := List.sizeOf_lt_of_mem (List.getElem_mem hi)
  have := hf xs[i]
  simp only [Site.down]; omega

theorem visitsBelow_option {α : Type} [SizeOf α] {role : Role} {f : α → Node} {o : Option α}
    (hf : ∀ x, sizeOf (f x) ≤ 1 + sizeOf x) (ho : sizeOf o < bound) :
    VisitsBelow bound (visitOption s role (o.map f)) := by
  cases o with
  | none => exact visitsBelow_nil
  | some x =>
    have := hf x
    simp only [Option.some.sizeOf_spec] at ho
    simp only [Option.map_some, visitOption, visitsBelow_visit, visitsBelow_nil, and_true,
      Site.part, Site.down]
    omega

theorem visitsBelow_clauses {inside : List Action} {sites : List Site}
    (hi : VisitsBelow bound inside) (hs : ∀ c ∈ sites, sizeOf c.node ≤ bound) :
    VisitsBelow bound (clauses inside sites) := by
  induction sites with
  | nil => exact hi
  | cons c rest ih =>
    have hr := ih fun d hd => hs d (.tail _ hd)
    have hc := hs c (.head _)
    rw [clauses]
    split
    · rename_i f hf
      cases f
      simp [hf] at hc
      simp [visitsBelow_append, visitsBelow_emit, visitsBelow_visit, visitsBelow_nil, hr,
        Site.part, Site.down]
      omega
    · rename_i f hf
      cases f
      simp [hf] at hc
      simp [visitsBelow_emit, visitsBelow_visit, hr, Site.part, Site.down]
      omega
    · exact hr

theorem sizeOf_clauseSites {clause : ForSpec} {rest : List CompSpec}
    (h : sizeOf clause + sizeOf rest < bound) :
    ∀ c ∈ clauseSites s clause rest, sizeOf c.node ≤ bound := by
  intro c hc
  simp only [clauseSites, List.mem_cons, Site.row, List.mem_mapIdx, List.getElem_map,
    List.length_map] at hc
  rcases hc with rfl | ⟨i, hi, rfl⟩
  · simp [Site.part, Site.down]; omega
  · have := List.sizeOf_lt_of_mem (List.getElem_mem hi)
    have := Node.sizeOf_compSpec_node rest[i]
    simp only [Site.down]; omega

theorem visitsBelow_fields {order : ObjectOrder} {fs : List Field} {rest : List Action}
    (hr : VisitsBelow bound rest) (hf : sizeOf fs < bound) :
    VisitsBelow bound (fields order (fieldSites s fs) rest) := by
  have hmem : ∀ x ∈ fieldSites s fs, sizeOf x.1.node < bound ∧
      sizeOf (x.1.part .key (.key x.2.key)).node < bound := by
    intro x hx
    simp only [fieldSites, List.mem_mapIdx] at hx
    obtain ⟨i, hi, rfl⟩ := hx
    have := List.sizeOf_lt_of_mem (List.getElem_mem hi)
    generalize fs[i] = f at this
    cases f
    simp [Site.part, Site.down] at *
    omega
  intro t ht
  cases order with
  | keysFirst =>
    simp only [fields, List.mem_append, List.mem_map] at ht
    rcases ht with (⟨x, hx, h⟩ | h) | ⟨x, hx, h⟩
    · cases h; exact (hmem x hx).2
    · exact hr t h
    · cases h; exact (hmem x hx).1
  | fieldByField =>
    simp only [fields, List.mem_append, List.mem_flatMap, List.mem_cons, List.not_mem_nil,
      or_false] at ht
    rcases ht with ⟨x, hx, h | h⟩ | h
    · cases h; exact (hmem x hx).2
    · cases h; exact (hmem x hx).1
    · exact hr t h

theorem visitsBelow_inner_expr (order : ObjectOrder) (uri : Uri) (e : Expr)
    (above : List (Step × Node)) :
    VisitsBelow (1 + sizeOf e) (inner order ⟨uri, .expr e, above⟩) := by
  cases e
  all_goals simp only [inner, visitsBelow_append, visitsBelow_emit, visitsBelow_visit,
    visitsBelow_nil, and_true, List.cons_append, List.nil_append, Site.part, Site.down]
  all_goals repeat' apply And.intro
  all_goals try (simp; done)
  all_goals try (simp; omega)
  all_goals try (refine visitsBelow_row (fun x => ?_) ?_ <;> simp +arith)
  all_goals try (refine visitsBelow_option (fun x => ?_) ?_ <;> simp +arith)
  case listComp =>
    refine visitsBelow_clauses ?_ (sizeOf_clauseSites ?_)
    · simp only [visitsBelow_visit, visitsBelow_nil, and_true]; simp; omega
    · simp; omega
  case object =>
    refine visitsBelow_fields (visitsBelow_append.2 ⟨?_, ?_⟩) ?_
    · refine visitsBelow_row (fun x => ?_) ?_ <;> simp +arith
    · refine visitsBelow_row (fun x => ?_) ?_ <;> simp +arith
    · simp; omega
  case objComp range field binds assertions clause rest =>
    refine visitsBelow_clauses ?_ (sizeOf_clauseSites ?_)
    · simp only [visitsBelow_append, visitsBelow_emit, visitsBelow_visit, visitsBelow_nil, and_true]
      refine ⟨?_, ⟨?_, ?_⟩, ?_⟩
      · cases field; simp; omega
      · refine visitsBelow_row (fun x => ?_) ?_ <;> simp +arith
      · refine visitsBelow_row (fun x => ?_) ?_ <;> simp +arith
      · simp; omega
    · simp; omega

/-- What is walked inside of a node is smaller than the node. -/
theorem visitsBelow_inner (order : ObjectOrder) (s : Site) :
    VisitsBelow (sizeOf s.node) (inner order s) := by
  obtain ⟨uri, node, above⟩ := s
  cases node
  case expr e => simpa using visitsBelow_inner_expr order uri e above
  case key k =>
    cases k <;> simp +arith [inner, visitsBelow_visit, visitsBelow_nil, Site.part, Site.down]
  case bind b =>
    cases b
    simp +arith [inner, visitsBelow_emit, visitsBelow_visit, visitsBelow_nil, Site.part,
      Site.down]
  case param p =>
    cases p
    refine visitsBelow_option (fun x => ?_) ?_ <;> simp +arith
  case arg a =>
    cases a
    refine visitsBelow_append.2 ⟨visitsBelow_option (fun x => ?_) ?_, ?_⟩
    · simp
    · simp; omega
    · simp [visitsBelow_visit, visitsBelow_nil, Site.part, Site.down]; omega
  case assertion a =>
    cases a
    refine visitsBelow_visit.2 ⟨?_, visitsBelow_option (fun x => ?_) ?_⟩
    · simp [Site.part, Site.down]; omega
    · simp
    · simp; omega
  case field f =>
    cases f
    simp [inner, visitsBelow_visit, visitsBelow_nil, Site.part, Site.down]
    omega
  all_goals exact visitsBelow_nil

end VisitsBelow

/-- What happens on a walk that starts at a site. -/
def events (order : ObjectOrder) (s : Site) : List Event :=
  (plan order s).attach.flatMap fun
    | ⟨.emit event, _⟩ => [event]
    | ⟨.visit t, _h⟩ => events order t
termination_by sizeOf s.node
decreasing_by
  simp only [plan, List.cons_append, List.mem_cons, List.mem_append, List.not_mem_nil, or_false,
    reduceCtorEq, false_or] at _h
  exact visitsBelow_inner order s t _h

end Walk

end JsonnetNav
