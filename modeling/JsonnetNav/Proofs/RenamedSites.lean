import JsonnetNav.Ast.Arguments
import JsonnetNav.Definition.Finder
import JsonnetNav.Proofs.RenamedTrees
import JsonnetNav.Proofs.TailPositions
import JsonnetNav.Proofs.Walks
import Mathlib

/-! # Sites of trees with other names

A tree with other names has the same sites, and whatever is found from a site by going up, down
or along a walk is found at the same place as before. Only what is found by the name of a
variable may differ.
-/

namespace JsonnetNav

/-- A row of things with other names, by the index of each. -/
theorem renameRow_eq_mapIdx {α : Type} {one : Path → α → α} {row : (Nat → Path) → List α → List α}
    (nil : ∀ p, row p [] = [])
    (cons : ∀ p x xs, row p (x :: xs) = one (p 0) x :: row (fun i => p (i + 1)) xs)
    (p : Nat → Path) (xs : List α) : row p xs = xs.mapIdx fun i x => one (p i) x := by
  induction xs generalizing p with
  | nil => rw [nil, List.mapIdx_nil]
  | cons x xs ih => rw [cons, ih, List.mapIdx_cons]

section Rows

variable {f : Renaming} (p : Nat → Path)

theorem Param.renameRow_eq (xs : List Param) :
    Param.renameRow f p xs = xs.mapIdx fun i x => x.rename f (p i) :=
  renameRow_eq_mapIdx (fun _ => rfl) (fun _ _ _ => rfl) p xs

theorem Arg.renameRow_eq (xs : List Arg) :
    Arg.renameRow f p xs = xs.mapIdx fun i x => x.rename f (p i) :=
  renameRow_eq_mapIdx (fun _ => rfl) (fun _ _ _ => rfl) p xs

theorem Field.renameRow_eq (xs : List Field) :
    Field.renameRow f p xs = xs.mapIdx fun i x => x.rename f (p i) :=
  renameRow_eq_mapIdx (fun _ => rfl) (fun _ _ _ => rfl) p xs

end Rows

section Fields

variable (f : Renaming) (p : Path)

@[simp]
theorem Param.id_rename (x : Param) : (x.rename f p).id = x.id.rename f (⟨.id, 0⟩ :: p) := by
  cases x
  rfl

@[simp]
theorem Param.default_rename (x : Param) :
    (x.rename f p).default = x.default.map (·.rename f (⟨.default, 0⟩ :: p)) := by
  obtain ⟨range, id, default⟩ := x
  cases default <;> rfl

@[simp]
theorem Arg.name_rename (a : Arg) : (a.rename f p).name = a.name := by
  cases a
  rfl

@[simp]
theorem Arg.value_rename (a : Arg) :
    (a.rename f p).value = a.value.rename f (⟨.value, 0⟩ :: p) := by
  cases a
  rfl

@[simp]
theorem Field.key_rename (x : Field) : (x.rename f p).key = x.key.rename f (⟨.key, 0⟩ :: p) := by
  cases x
  rfl

end Fields

namespace Node

variable (f : Renaming) (p : Path)

theorem kind_rename (n : Node) : (n.rename f p).kind = n.kind := by
  cases n with
  | expr e => cases e <;> rfl
  | key k => cases k <;> rfl
  | _ => rfl

theorem range_rename (n : Node) : (n.rename f p).range = n.range := by
  cases n with
  | expr e => cases e <;> rfl
  | key k => cases k <;> rfl
  | bind x | param x | arg x | forSpec x | ifSpec x | assertion x | field x =>
      cases x
      rfl
  | _ => rfl

theorem hasTailPosition_rename (n : Node) :
    Site.hasTailPosition (n.rename f p) = Site.hasTailPosition n := by
  cases n with
  | expr e => cases e <;> rfl
  | _ => rfl

theorem isTailEdge_rename (n : Node) (step : Step) :
    Site.isTailEdge (n.rename f p) step = Site.isTailEdge n step := by
  cases n with
  | expr e => cases e <;> rfl
  | _ => rfl

end Node

namespace Site

variable (f : Renaming)

theorem kind_rename (s : Site) : (s.rename f).kind = s.kind :=
  Node.kind_rename f s.path s.node

theorem range_rename (s : Site) : (s.rename f).range = s.range :=
  Node.range_rename f s.path s.node

theorem location_rename (s : Site) : (s.rename f).location = s.location := by
  rw [location, range_rename]
  rfl

theorem isA_rename (s : Site) (cls : NodeClass) : (s.rename f).node.isA cls = s.node.isA cls :=
  congrArg cls.has (kind_rename f s)

theorem parent_rename (s : Site) : (s.rename f).parent? = s.parent?.map (rename f) := by
  obtain ⟨uri, node, above⟩ := s
  cases above <;> rfl

theorem outward_rename (s : Site) : (s.rename f).outward = s.outward.map (rename f) := by
  have further (uri : Uri) (above : List (Step × Node)) :
      around uri (renameAbove f above) = (around uri above).map (rename f) := by
    induction above with
    | nil => rfl
    | cons edge above ih => exact congrArg (_ :: ·) ih
  exact congrArg (s.rename f :: ·) (further s.uri s.above)

theorem enclosing_rename (s : Site) (cls : NodeClass) (level : Option Int) :
    (s.rename f).enclosing? cls level = (s.enclosing? cls level).map (rename f) := by
  have within (sites : List Site) (level : Option Int) :
      enclosingIn cls level (sites.map (rename f)) =
        (enclosingIn cls level sites).map (rename f) := by
    induction sites generalizing level with
    | nil => rfl
    | cons t sites ih =>
        simp only [List.map_cons, enclosingIn, isA_rename, ih]
        split
        · rfl
        · split <;> rfl
  rw [enclosing?, outward_rename, within]
  rfl

theorem outermostObject_rename (s : Site) :
    (s.rename f).outermostObject? = s.outermostObject?.map (rename f) := by
  have isObject : (fun t : Site => decide (t.kind = .object)) ∘ rename f =
      fun t => decide (t.kind = .object) := by
    funext t
    simp [kind_rename]
  rw [outermostObject?, outward_rename, List.filter_map, isObject, List.getLast?_map]
  rfl

theorem inTail_rename (s : Site) : (s.rename f).inTail = s.inTail := by
  obtain ⟨uri, node, above⟩ := s
  cases above with
  | nil => rfl
  | cons edge above => exact Node.isTailEdge_rename f _ edge.2 edge.1

theorem tails_rename (s : Site) : (s.rename f).tails = s.tails.map (rename f) := by
  have below : ∀ c ∈ s.children.filter inTail, (c.rename f).tails = c.tails.map (rename f) := by
    intro c member
    have smaller := sizeOf_child (List.mem_filter.mp member).1
    exact tails_rename c
  have inTails : inTail ∘ rename f = inTail := funext (inTail_rename f)
  have keeps : hasTailPosition (s.rename f).node = hasTailPosition s.node :=
    Node.hasTailPosition_rename f s.path s.node
  rw [tails_eq, tails_eq, keeps]
  split
  · rw [children_rename, List.filter_map, inTails, List.flatMap_map, List.map_flatMap]
    exact List.flatMap_congr below
  · rfl
termination_by sizeOf s.node

theorem bodyTails_rename (fn : Site) : (fn.rename f).bodyTails = fn.bodyTails.map (rename f) := by
  obtain ⟨uri, node, above⟩ := fn
  cases node with
  | expr e =>
      cases e with
      | fn range params body =>
          exact tails_rename f (part ⟨uri, .expr (.fn range params body), above⟩ .body (.expr body))
      | _ => rfl
  | _ => rfl

theorem nodeAt_rename (s : Site) (target : Range) :
    (s.rename f).nodeAt? target = (s.nodeAt? target).map (rename f) := by
  have contains : (fun t : Site => t.range.contains target) ∘ rename f =
      fun t => t.range.contains target := by
    funext t
    simp [range_rename]
  have inChildren : (s.rename f).children.find? (·.range.contains target) =
      (s.children.find? (·.range.contains target)).map (rename f) := by
    rw [children_rename, List.find?_map, contains]
  rw [nodeAt?, nodeAt?, inChildren, range_rename]
  cases here : s.children.find? (·.range.contains target) with
  | none =>
      dsimp only [Option.map_none]
      split <;> rfl
  | some c =>
      have smaller := sizeOf_child (List.mem_of_find?_eq_some here)
      exact nodeAt_rename c target
termination_by sizeOf s.node

variable {f} in
/-- The sites of a row of things together with the things. -/
theorem entries_rename {α : Type} {node : α → Node} {one : Path → α → α}
    (each : ∀ p x, (node x).rename f p = node (one p x)) (s : Site) (role : Role) (xs : List α) :
    (xs.mapIdx fun i x => one (⟨role, i⟩ :: s.path) x).mapIdx
        (fun i x => ((s.rename f).down ⟨role, i⟩ (node x), x)) =
      (xs.mapIdx fun i x => (s.down ⟨role, i⟩ (node x), x)).map
        fun entry => (entry.1.rename f, one entry.1.path entry.2) := by
  apply List.ext_getElem
  · simp
  · intro i _ _
    simp only [List.getElem_mapIdx, List.getElem_map, rename_down, each]
    rfl

theorem parameters_rename (fn : Site) : (fn.rename f).parameters =
    fn.parameters.map fun entry => (entry.1.rename f, entry.2.rename f entry.1.path) := by
  obtain ⟨uri, node, above⟩ := fn
  cases node with
  | expr e =>
      cases e with
      | fn range params body =>
          refine Eq.trans ?_ (entries_rename (fun _ _ => rfl) _ .params params)
          rw [← Param.renameRow_eq]
          rfl
      | _ => rfl
  | _ => rfl

theorem arguments_rename (call : Site) : (call.rename f).arguments =
    call.arguments.map fun entry => (entry.1.rename f, entry.2.rename f entry.1.path.tail) := by
  obtain ⟨uri, node, above⟩ := call
  cases node with
  | expr e =>
      cases e with
      | call range callee args =>
          simp only [arguments, rename, Node.rename, Expr.rename, Arg.renameRow_eq]
          apply List.ext_getElem <;> simp [part, down, renameAbove, Node.rename, Expr.rename,
            Arg.renameRow_eq, path]
      | _ => rfl
  | _ => rfl

theorem argByPosition_rename (call : Site) (index : Int) :
    (call.rename f).argByPosition? index = (call.argByPosition? index).map (rename f) := by
  rw [argByPosition?, argByPosition?, arguments_rename, List.getElem?_map]
  split
  · rfl
  · simp [Function.comp_def]

end Site

namespace FieldBinding

/-- The field at the same place of the tree with other names. Fields keep their names. -/
def rename (f : Renaming) (b : FieldBinding) : FieldBinding :=
  ⟨b.name, b.id.rename f, b.target.rename f, b.owner.rename f⟩

variable (f : Renaming)

theorem ofField_rename (object : Site) (i : Nat) (field : Field) :
    ofField? (object.rename f) i (field.rename f (⟨.fields, i⟩ :: object.path)) =
      (ofField? object i field).map (rename f) := by
  obtain ⟨range, key, value, visibility, inherited⟩ := field
  cases key <;> rfl

end FieldBinding

namespace FieldScope

def renameLayer (f : Renaming) (layer : Layer) : Layer :=
  ⟨layer.owner.rename f, layer.bindings.map (FieldBinding.rename f), layer.children⟩

def rename (f : Renaming) (scope : FieldScope) : FieldScope :=
  ⟨renameLayer f scope.layer, scope.outer.map (renameLayer f)⟩

variable (f : Renaming)

theorem ofObject_rename (s : Site) : ofObject? (s.rename f) = (ofObject? s).map (rename f) := by
  obtain ⟨uri, node, above⟩ := s
  cases node with
  | expr e =>
      cases e with
      | object range binds assertions fields =>
          let s : Site := ⟨uri, .expr (.object range binds assertions fields), above⟩
          have bindings : (Field.renameRow f (⟨.fields, ·⟩ :: s.path) fields).mapIdx
              (FieldBinding.ofField? (s.rename f)) =
                (fields.mapIdx (FieldBinding.ofField? s)).map (Option.map (.rename f)) := by
            rw [Field.renameRow_eq, List.mapIdx_mapIdx]
            apply List.ext_getElem
            · simp
            · intro i _ _
              simp [FieldBinding.ofField_rename]
          have inOrder : ((fields.mapIdx (FieldBinding.ofField? s)).map
              (Option.map (FieldBinding.rename f))).filterMap id =
                ((fields.mapIdx (FieldBinding.ofField? s)).filterMap id).map (.rename f) := by
            rw [List.filterMap_map, List.map_filterMap]
            rfl
          refine congrArg (fun bs : List FieldBinding =>
            some (⟨⟨s.rename f, bs, 0⟩, []⟩ : FieldScope)) ?_
          rw [List.map_reverse, ← inOrder, ← bindings]
      | _ => rfl
  | _ => rfl

theorem get_rename (scope : FieldScope) (name : Text) :
    (scope.rename f).get? name = (scope.get? name).map (.rename f) := by
  have inLayer (layer : Layer) : (renameLayer f layer).bindings.find? (·.name = name) =
      (layer.bindings.find? (·.name = name)).map (.rename f) := by
    rw [renameLayer, List.find?_map]
    rfl
  have layers : (scope.rename f).layers = scope.layers.map (renameLayer f) := rfl
  rw [get?, layers, get?]
  induction scope.layers with
  | nil => rfl
  | cons layer rest ih =>
      rw [List.map_cons, List.findSome?_cons, inLayer, List.findSome?_cons]
      cases layer.bindings.find? (·.name = name) with
      | none => exact ih
      | some b => rfl

theorem extended_rename (parents children : List FieldScope) :
    Workspace.extended (parents.map (rename f)) (children.map (rename f)) =
      (Workspace.extended parents children).map (rename f) := by
  have extend (parent child : FieldScope) :
      (parent.rename f).extend (child.rename f) = (parent.extend child).rename f := rfl
  simp only [Workspace.extended, List.isEmpty_map]
  split
  · rfl
  · split
    · rfl
    · simp only [List.flatMap_map, List.map_flatMap, List.map_map, Function.comp_def, extend]

end FieldScope

namespace Event

/-- What happens at the same place of the tree with other names. -/
def rename (f : Renaming) : Event → Event
  | enter s => enter (s.rename f)
  | leave s => leave (s.rename f)
  | opened s => opened (s.rename f)
  | closed s => closed (s.rename f)

end Event

namespace Walk

def Action.rename (f : Renaming) : Action → Action
  | emit event => emit (event.rename f)
  | visit s => visit (s.rename f)

variable (f : Renaming)

theorem visitRow_rename (s : Site) (role : Role) (nodes : List Node) :
    visitAll ((s.rename f).row role (nodes.mapIdx fun i n => n.rename f (⟨role, i⟩ :: s.path))) =
      (visitAll (s.row role nodes)).map (Action.rename f) := by
  rw [Site.row_rename]
  simp [visitAll, Action.rename]

theorem clauses_rename (inside : List Action) (sites : List Site) :
    clauses (inside.map (Action.rename f)) (sites.map (Site.rename f)) =
      (clauses inside sites).map (Action.rename f) := by
  induction sites with
  | nil => rfl
  | cons c rest ih =>
      obtain ⟨uri, node, above⟩ := c
      cases node with
      | forSpec clause =>
          cases clause
          rw [List.map_cons, clauses_forSpec rfl, clauses_forSpec rfl, ih]
          simp only [List.map_append]
          rfl
      | ifSpec clause =>
          cases clause
          rw [List.map_cons, clauses_ifSpec rfl, clauses_ifSpec rfl, ih]
          rfl
      | _ => exact ih

theorem fieldSites_rename (s : Site) (fs : List Field) :
    fieldSites (s.rename f) (Field.renameRow f (⟨.fields, ·⟩ :: s.path) fs) =
      (fieldSites s fs).map fun entry => (entry.1.rename f, entry.2.rename f entry.1.path) := by
  rw [fieldSites, Field.renameRow_eq]
  exact Site.entries_rename (fun _ _ => rfl) s .fields fs

theorem fields_rename (sites : List (Site × Field)) (rest : List Action) :
    fields .keysFirst (sites.map fun entry => (entry.1.rename f, entry.2.rename f entry.1.path))
        (rest.map (Action.rename f)) =
      (fields .keysFirst sites rest).map (Action.rename f) := by
  have key (entry : Site × Field) :
      (entry.1.rename f).part .key (.key (entry.2.rename f entry.1.path).key) =
        (entry.1.part .key (.key entry.2.key)).rename f := by
    rw [Field.key_rename]
    rfl
  simp only [fields, List.map_append, List.map_map, Function.comp_def, Action.rename, key]

theorem inner_rename (s : Site) :
    inner .keysFirst (s.rename f) = (inner .keysFirst s).map (Action.rename f) := by
  obtain ⟨uri, node, above⟩ := s
  cases node with
  | expr e =>
      let s : Site := ⟨uri, .expr e, above⟩
      cases e with
      | array range values =>
          simp only [inner, ← visitRow_rename, ← Node.map_expr_renameRow]
          rfl
      | localIn range binds body =>
          simp only [inner, List.map_append, ← visitRow_rename, ← Node.map_bind_renameRow]
          rfl
      | fn range params body =>
          simp only [inner, List.map_append, ← visitRow_rename, ← Node.map_param_renameRow]
          rfl
      | call range callee args =>
          simp only [inner, List.map_cons, ← visitRow_rename, ← Node.map_arg_renameRow]
          rfl
      | listComp range element clause rest =>
          simp only [inner, ← clauses_rename, ← Site.clauseSites_rename]
          rfl
      | object range binds assertions fields =>
          simp only [inner, List.map_append, ← fields_rename, ← fieldSites_rename,
            ← visitRow_rename, ← Node.map_bind_renameRow, ← Node.map_assertion_renameRow]
          rfl
      | objComp range field binds assertions clause rest =>
          cases field
          simp only [inner, ← clauses_rename, ← Site.clauseSites_rename, List.map_append,
            ← visitRow_rename, ← Node.map_bind_renameRow, ← Node.map_assertion_renameRow]
          rfl
      | slice range array start stop step => cases stop <;> cases step <;> rfl
      | cond range condition consequence alternative => cases alternative <;> rfl
      | _ => rfl
  | key k => cases k <;> rfl
  | bind x | ifSpec x | field x =>
      cases x
      rfl
  | param x =>
      obtain ⟨range, id, default⟩ := x
      cases default <;> rfl
  | arg a =>
      obtain ⟨range, value, name⟩ := a
      cases name <;> rfl
  | assertion a =>
      obtain ⟨range, condition, message⟩ := a
      cases message <;> rfl
  | _ => rfl

theorem events_rename (s : Site) :
    events .keysFirst (s.rename f) = (events .keysFirst s).map (Event.rename f) := by
  have below : ∀ action ∈ plan .keysFirst s,
      (action.rename f).events = action.events.map (Event.rename f) := by
    intro action member
    cases action with
    | emit event => rfl
    | visit t =>
        have inside : .visit t ∈ inner .keysFirst s := by simpa [plan] using member
        have smaller := visitsBelow_inner .keysFirst s t inside
        exact events_rename t
  have plans : plan .keysFirst (s.rename f) = (plan .keysFirst s).map (Action.rename f) := by
    simp only [plan, inner_rename, List.map_append, List.map_cons]
    rfl
  rw [events_eq, plans, events_eq, List.flatMap_map, List.map_flatMap]
  exact List.flatMap_congr below
termination_by sizeOf s.node

end Walk

end JsonnetNav
