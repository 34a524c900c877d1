import JsonnetNav.Proofs.Sites
import JsonnetNav.Proofs.Visibility
import Mathlib.Data.List.Basic

/-! # Trees with other names

The names of variables and of references to them can be changed place by place. The tree
keeps its shape, and at every site the same variables can be seen, under their new names.
-/

namespace JsonnetNav

/-- The new name for a variable, or a reference to one, at each place. -/
abbrev Renaming := Path → Text → Text

def Ident.rename (f : Renaming) (p : Path) (id : Ident) : Ident :=
  { id with name := f p id.name }

mutual

def Expr.rename (f : Renaming) (p : Path) : Expr → Expr
  | .null r => .null r
  | .dollar r => .dollar r
  | .self r => .self r
  | .super r => .super r
  | .document r body => .document r (body.rename f (⟨.body, 0⟩ :: p))
  | .ref id => .ref (id.rename f p)
  | .num r value => .num r value
  | .str r value => .str r value
  | .bool r value => .bool r value
  | .array r values => .array r (Expr.renameRow f (⟨.values, ·⟩ :: p) values)
  | .unary r op operand => .unary r op (operand.rename f (⟨.operand, 0⟩ :: p))
  | .binary r op lhs rhs =>
    .binary r op (lhs.rename f (⟨.lhs, 0⟩ :: p)) (rhs.rename f (⟨.rhs, 0⟩ :: p))
  | .localIn r binds body =>
    .localIn r (LocalBind.renameRow f (⟨.binds, ·⟩ :: p) binds) (body.rename f (⟨.body, 0⟩ :: p))
  | .fn r params body =>
    .fn r (Param.renameRow f (⟨.params, ·⟩ :: p) params) (body.rename f (⟨.body, 0⟩ :: p))
  | .call r callee args =>
    .call r (callee.rename f (⟨.callee, 0⟩ :: p)) (Arg.renameRow f (⟨.args, ·⟩ :: p) args)
  | .listComp r element clause clauses =>
    .listComp r (element.rename f (⟨.expr, 0⟩ :: p)) (clause.rename f (⟨.forSpec, 0⟩ :: p))
      (CompSpec.renameRow f (⟨.compSpec, ·⟩ :: p) clauses)
  | .importFile r kind importee => .importFile r kind importee
  | .assertIn r assertion body =>
    .assertIn r (assertion.rename f (⟨.assertion, 0⟩ :: p)) (body.rename f (⟨.body, 0⟩ :: p))
  | .object r binds assertions fields =>
    .object r (LocalBind.renameRow f (⟨.binds, ·⟩ :: p) binds)
      (Assertion.renameRow f (⟨.assertions, ·⟩ :: p) assertions)
      (Field.renameRow f (⟨.fields, ·⟩ :: p) fields)
  | .objComp r field binds assertions clause clauses =>
    .objComp r (field.rename f (⟨.field, 0⟩ :: p)) (LocalBind.renameRow f (⟨.binds, ·⟩ :: p) binds)
      (Assertion.renameRow f (⟨.asserts, ·⟩ :: p) assertions)
      (clause.rename f (⟨.forSpec, 0⟩ :: p)) (CompSpec.renameRow f (⟨.compSpec, ·⟩ :: p) clauses)
  | .fieldAccess r obj field => .fieldAccess r (obj.rename f (⟨.obj, 0⟩ :: p)) field
  | .slice r array start stop step =>
    .slice r (array.rename f (⟨.array, 0⟩ :: p)) (start.rename f (⟨.start, 0⟩ :: p))
      (Expr.renameOption f (⟨.stop, 0⟩ :: p) stop) (Expr.renameOption f (⟨.step, 0⟩ :: p) step)
  | .cond r condition consequence alternative =>
    .cond r (condition.rename f (⟨.condition, 0⟩ :: p))
      (consequence.rename f (⟨.consequence, 0⟩ :: p))
      (Expr.renameOption f (⟨.alternative, 0⟩ :: p) alternative)
  | .unknown r => .unknown r
  | .malformed r type => .malformed r type
  | .misplaced r type => .misplaced r type

def Expr.renameOption (f : Renaming) (p : Path) : Option Expr → Option Expr
  | none => none
  | some e => some (e.rename f p)

def Expr.renameRow (f : Renaming) (p : Nat → Path) : List Expr → List Expr
  | [] => []
  | e :: es => e.rename f (p 0) :: Expr.renameRow f (fun i => p (i + 1)) es

def LocalBind.rename (f : Renaming) (p : Path) : LocalBind → LocalBind
  | ⟨r, id, value⟩ => ⟨r, id.rename f (⟨.id, 0⟩ :: p), value.rename f (⟨.value, 0⟩ :: p)⟩

def LocalBind.renameRow (f : Renaming) (p : Nat → Path) : List LocalBind → List LocalBind
  | [] => []
  | b :: bs => b.rename f (p 0) :: LocalBind.renameRow f (fun i => p (i + 1)) bs

def Param.rename (f : Renaming) (p : Path) : Param → Param
  | ⟨r, id, default⟩ =>
    ⟨r, id.rename f (⟨.id, 0⟩ :: p), Expr.renameOption f (⟨.default, 0⟩ :: p) default⟩

def Param.renameRow (f : Renaming) (p : Nat → Path) : List Param → List Param
  | [] => []
  | x :: xs => x.rename f (p 0) :: Param.renameRow f (fun i => p (i + 1)) xs

def Arg.rename (f : Renaming) (p : Path) : Arg → Arg
  | ⟨r, value, name⟩ => ⟨r, value.rename f (⟨.value, 0⟩ :: p), name⟩

def Arg.renameRow (f : Renaming) (p : Nat → Path) : List Arg → List Arg
  | [] => []
  | x :: xs => x.rename f (p 0) :: Arg.renameRow f (fun i => p (i + 1)) xs

def ForSpec.rename (f : Renaming) (p : Path) : ForSpec → ForSpec
  | ⟨r, id, source⟩ => ⟨r, id.rename f (⟨.id, 0⟩ :: p), source.rename f (⟨.source, 0⟩ :: p)⟩

def IfSpec.rename (f : Renaming) (p : Path) : IfSpec → IfSpec
  | ⟨r, condition⟩ => ⟨r, condition.rename f (⟨.condition, 0⟩ :: p)⟩

def CompSpec.rename (f : Renaming) (p : Path) : CompSpec → CompSpec
  | .forSpec clause => .forSpec (clause.rename f p)
  | .ifSpec clause => .ifSpec (clause.rename f p)

def CompSpec.renameRow (f : Renaming) (p : Nat → Path) : List CompSpec → List CompSpec
  | [] => []
  | x :: xs => x.rename f (p 0) :: CompSpec.renameRow f (fun i => p (i + 1)) xs

def Assertion.rename (f : Renaming) (p : Path) : Assertion → Assertion
  | ⟨r, condition, message⟩ =>
    ⟨r, condition.rename f (⟨.condition, 0⟩ :: p), Expr.renameOption f (⟨.message, 0⟩ :: p) message⟩

def Assertion.renameRow (f : Renaming) (p : Nat → Path) : List Assertion → List Assertion
  | [] => []
  | x :: xs => x.rename f (p 0) :: Assertion.renameRow f (fun i => p (i + 1)) xs

def FieldKey.rename (f : Renaming) (p : Path) : FieldKey → FieldKey
  | .fixed r id => .fixed r id
  | .computed r e => .computed r (e.rename f (⟨.expr, 0⟩ :: p))

def Field.rename (f : Renaming) (p : Path) : Field → Field
  | ⟨r, key, value, visibility, inherited⟩ =>
    ⟨r, key.rename f (⟨.key, 0⟩ :: p), value.rename f (⟨.value, 0⟩ :: p), visibility, inherited⟩

def Field.renameRow (f : Renaming) (p : Nat → Path) : List Field → List Field
  | [] => []
  | x :: xs => x.rename f (p 0) :: Field.renameRow f (fun i => p (i + 1)) xs

end

namespace Node

/-- The node that stands at a place, with other names. -/
def rename (f : Renaming) (p : Path) : Node → Node
  | expr e => expr (e.rename f p)
  | bind b => bind (b.rename f p)
  | param x => param (x.rename f p)
  | arg a => arg (a.rename f p)
  | forSpec clause => forSpec (clause.rename f p)
  | ifSpec clause => ifSpec (clause.rename f p)
  | assertion a => assertion (a.rename f p)
  | key k => key (k.rename f p)
  | field x => field (x.rename f p)
  | importee i => importee i
  | var id => var (id.rename f p)
  | fieldName id => fieldName id
  | fieldRef id => fieldRef id
  | paramRef id => paramRef id

variable {f : Renaming}

theorem rename_row {α : Type} {node : α → Node} {one : Path → α → α}
    {row : (Nat → Path) → List α → List α} (each : ∀ p x, (node x).rename f p = node (one p x))
    (nil : ∀ p, row p [] = [])
    (cons : ∀ p x xs, row p (x :: xs) = one (p 0) x :: row (fun i => p (i + 1)) xs)
    (p : Nat → Path) (xs : List α) :
    (row p xs).map node = (xs.map node).mapIdx fun i n => n.rename f (p i) := by
  induction xs generalizing p with
  | nil => simp [nil]
  | cons x xs ih => simp [cons, ih, each, List.mapIdx_cons]

variable (p : Nat → Path)

theorem map_expr_renameRow (xs : List Expr) :
    (Expr.renameRow f p xs).map expr = (xs.map expr).mapIdx fun i n => n.rename f (p i) :=
  rename_row (fun _ _ => rfl) (fun _ => rfl) (fun _ _ _ => rfl) p xs

theorem map_bind_renameRow (xs : List LocalBind) :
    (LocalBind.renameRow f p xs).map bind = (xs.map bind).mapIdx fun i n => n.rename f (p i) :=
  rename_row (fun _ _ => rfl) (fun _ => rfl) (fun _ _ _ => rfl) p xs

theorem map_param_renameRow (xs : List Param) :
    (Param.renameRow f p xs).map param = (xs.map param).mapIdx fun i n => n.rename f (p i) :=
  rename_row (fun _ _ => rfl) (fun _ => rfl) (fun _ _ _ => rfl) p xs

theorem map_arg_renameRow (xs : List Arg) :
    (Arg.renameRow f p xs).map arg = (xs.map arg).mapIdx fun i n => n.rename f (p i) :=
  rename_row (fun _ _ => rfl) (fun _ => rfl) (fun _ _ _ => rfl) p xs

theorem map_compSpec_renameRow (xs : List CompSpec) :
    (CompSpec.renameRow f p xs).map CompSpec.node =
      (xs.map CompSpec.node).mapIdx fun i n => n.rename f (p i) := by
  refine rename_row (fun _ spec => ?_) (fun _ => rfl) (fun _ _ _ => rfl) p xs
  cases spec <;> rfl

theorem map_assertion_renameRow (xs : List Assertion) :
    (Assertion.renameRow f p xs).map assertion =
      (xs.map assertion).mapIdx fun i n => n.rename f (p i) :=
  rename_row (fun _ _ => rfl) (fun _ => rfl) (fun _ _ _ => rfl) p xs

theorem map_field_renameRow (xs : List Field) :
    (Field.renameRow f p xs).map field = (xs.map field).mapIdx fun i n => n.rename f (p i) :=
  rename_row (fun _ _ => rfl) (fun _ => rfl) (fun _ _ _ => rfl) p xs

end Node

/-- A part of the node at a place, with other names in its children. -/
def Part.rename (f : Renaming) (p : Path) : Part → Part
  | leaf label value => leaf label value
  | child role n => child role (n.rename f (⟨role, 0⟩ :: p))
  | children role nodes => children role (nodes.mapIdx fun i n => n.rename f (⟨role, i⟩ :: p))

namespace Node

variable {f : Renaming} {p : Path}

theorem parts_rename_expr {e : Expr} (other : ∀ id, e ≠ .ref id) :
    (expr (e.rename f p)).parts = (expr e).parts.map (Part.rename f p) := by
  cases e with
  | ref id => exact absurd rfl (other id)
  | slice range xs start stop step => cases stop <;> cases step <;> rfl
  | cond range condition consequence alternative => cases alternative <;> rfl
  | array range values =>
      simp only [parts, Expr.parts, Expr.rename, map_expr_renameRow]
      rfl
  | localIn range binds body =>
      simp only [parts, Expr.parts, Expr.rename, map_bind_renameRow]
      rfl
  | fn range params body =>
      simp only [parts, Expr.parts, Expr.rename, map_param_renameRow]
      rfl
  | call range callee args =>
      simp only [parts, Expr.parts, Expr.rename, map_arg_renameRow]
      rfl
  | listComp range element clause rest =>
      simp only [parts, Expr.parts, Expr.rename, map_compSpec_renameRow]
      rfl
  | object range binds assertions fields =>
      simp only [parts, Expr.parts, Expr.rename, map_bind_renameRow, map_assertion_renameRow,
        map_field_renameRow]
      rfl
  | objComp range field binds assertions clause rest =>
      simp only [parts, Expr.parts, Expr.rename, map_bind_renameRow, map_assertion_renameRow,
        map_compSpec_renameRow]
      rfl
  | _ => rfl

theorem children_rename (n : Node) : (n.rename f p).children =
    n.children.map fun edge => (edge.1, edge.2.rename f (edge.1 :: p)) := by
  have edges (part : Part) : (part.rename f p).edges =
      part.edges.map fun edge => (edge.1, edge.2.rename f (edge.1 :: p)) := by
    cases part with
    | leaf label value => rfl
    | child role n => rfl
    | children role nodes => apply List.ext_getElem <;> simp [Part.rename, Part.edges]
  cases n with
  | expr e =>
      by_cases other : ∀ id, e ≠ .ref id
      · rw [children, rename, parts_rename_expr other, List.flatMap_map, children, List.map_flatMap]
        exact List.flatMap_congr fun part _ => edges part
      · push Not at other
        obtain ⟨id, rfl⟩ := other
        rfl
  | bind b =>
      cases b
      rfl
  | param x =>
      obtain ⟨range, id, default⟩ := x
      cases default <;> rfl
  | arg a =>
      obtain ⟨range, value, name⟩ := a
      cases name <;> rfl
  | forSpec clause =>
      cases clause
      rfl
  | ifSpec clause =>
      cases clause
      rfl
  | assertion a =>
      obtain ⟨range, condition, message⟩ := a
      cases message <;> rfl
  | key k => cases k <;> rfl
  | field x =>
      cases x
      rfl
  | _ => rfl

end Node

namespace Site

/-- The nodes around a place, with other names. -/
def renameAbove (f : Renaming) : List (Step × Node) → List (Step × Node)
  | [] => []
  | (step, node) :: above => (step, node.rename f (above.map Prod.fst)) :: renameAbove f above

/-- The site at the same place of the tree with other names. -/
def rename (f : Renaming) (s : Site) : Site :=
  ⟨s.uri, s.node.rename f s.path, renameAbove f s.above⟩

variable (f : Renaming)

theorem rename_down (s : Site) (step : Step) (n : Node) :
    (s.down step n).rename f = (s.rename f).down step (n.rename f (step :: s.path)) :=
  rfl

theorem path_rename (s : Site) : (s.rename f).path = s.path := by
  have above (l : List (Step × Node)) : (renameAbove f l).map Prod.fst = l.map Prod.fst := by
    induction l with
    | nil => rfl
    | cons edge l ih => simp [renameAbove, ih]
  exact above s.above

theorem children_rename (s : Site) : (s.rename f).children = s.children.map (rename f) := by
  simp only [children, List.map_map, rename, Node.children_rename]
  rfl

theorem preorder_rename (s : Site) : (s.rename f).preorder = s.preorder.map (rename f) := by
  have below : ∀ c ∈ s.children, (c.rename f).preorder = c.preorder.map (rename f) := by
    intro c child
    have smaller := sizeOf_child child
    exact preorder_rename c
  rw [preorder_eq, children_rename, List.flatMap_map, preorder_eq, List.map_cons, List.map_flatMap]
  exact congrArg (rename f s :: ·) (List.flatMap_congr below)
termination_by sizeOf s.node

theorem row_rename (s : Site) (role : Role) (nodes : List Node) :
    (s.rename f).row role (nodes.mapIdx fun i n => n.rename f (⟨role, i⟩ :: s.path)) =
      (s.row role nodes).map (rename f) := by
  apply List.ext_getElem <;> simp [row, rename_down]

theorem bindRow_rename (s : Site) (binds : List LocalBind) :
    (s.rename f).bindRow (LocalBind.renameRow f (⟨.binds, ·⟩ :: s.path) binds) =
      (s.bindRow binds).map (rename f) := by
  rw [bindRow, Node.map_bind_renameRow]
  exact row_rename f s .binds _

theorem paramRow_rename (s : Site) (params : List Param) :
    (s.rename f).paramRow (Param.renameRow f (⟨.params, ·⟩ :: s.path) params) =
      (s.paramRow params).map (rename f) := by
  rw [paramRow, Node.map_param_renameRow]
  exact row_rename f s .params _

theorem clauseSites_rename (s : Site) (clause : ForSpec) (rest : List CompSpec) :
    Walk.clauseSites (s.rename f) (clause.rename f (⟨.forSpec, 0⟩ :: s.path))
        (CompSpec.renameRow f (⟨.compSpec, ·⟩ :: s.path) rest) =
      (Walk.clauseSites s clause rest).map (rename f) := by
  rw [Walk.clauseSites, Node.map_compSpec_renameRow, row_rename]
  rfl

/-- A variable that can be seen, under its new name. -/
def renameEntry (entry : Text × Site) : Text × Site :=
  (f entry.2.path entry.1, entry.2.rename f)

theorem introduces_rename (s : Site) :
    (s.rename f).introduces? = s.introduces?.map (renameEntry f) := by
  obtain ⟨uri, node, above⟩ := s
  cases node with
  | bind b =>
      cases b
      rfl
  | param x =>
      cases x
      rfl
  | forSpec clause =>
      cases clause
      rfl
  | _ => rfl

variable {f}

theorem introduced_rename {row sites : List Site} (same : row = sites.map (rename f)) :
    introduced row = (introduced sites).map (renameEntry f) := by
  simp only [same, introduced, List.filterMap_map, List.map_reverse, List.map_filterMap]
  congr 2
  funext s
  exact introduces_rename f s

theorem introduced_take_rename {row sites : List Site} (same : row = sites.map (rename f))
    (n : Nat) :
    introduced (row.take n) = (introduced (sites.take n)).map (renameEntry f) := by
  apply introduced_rename
  rw [same, List.map_take]

variable (f)

theorem locals_rename (s : Site) : (s.rename f).locals = s.locals.map (renameEntry f) := by
  obtain ⟨uri, node, above⟩ := s
  cases node with
  | expr e =>
      cases e with
      | object range binds assertions fields =>
          exact introduced_rename (bindRow_rename f ⟨uri, _, above⟩ binds)
      | objComp range field binds assertions clause rest =>
          exact introduced_rename (bindRow_rename f ⟨uri, _, above⟩ binds)
      | _ => rfl
  | _ => rfl

/-- A node shows the same variables to its parts, under their new names. -/
theorem shows_rename (s : Site) (step : Step) :
    (s.rename f).shows step = (s.shows step).map (renameEntry f) := by
  obtain ⟨uri, node, above⟩ := s
  obtain ⟨role, index⟩ := step
  cases node with
  | expr e =>
      let s : Site := ⟨uri, .expr e, above⟩
      cases e with
      | localIn range binds body =>
          have row := bindRow_rename f s binds
          cases role with
          | binds => exact introduced_take_rename row index
          | body => exact introduced_rename row
          | _ => rfl
      | fn range params body => exact introduced_rename (paramRow_rename f s params)
      | listComp range element clause rest =>
          have row := clauseSites_rename f s clause rest
          cases role with
          | compSpec => exact introduced_take_rename row (index + 1)
          | expr => exact introduced_rename row
          | _ => rfl
      | object range binds assertions fields =>
          cases role with
          | binds => exact introduced_take_rename (bindRow_rename f s binds) index
          | assertions => exact locals_rename f s
          | _ => rfl
      | objComp range field binds assertions clause rest =>
          have row := clauseSites_rename f s clause rest
          cases role with
          | compSpec => exact introduced_take_rename row (index + 1)
          | binds =>
              have before := introduced_take_rename (bindRow_rename f s binds) index
              exact (congrArg₂ (· ++ ·) before (introduced_rename row)).trans List.map_append.symm
          | asserts =>
              have outer := introduced_rename row
              exact (congrArg₂ (· ++ ·) (locals_rename f s) outer).trans List.map_append.symm
          | field => exact introduced_rename row
          | _ => rfl
      | _ => rfl
  | bind b =>
      cases b
      cases role <;> rfl
  | field x =>
      cases x
      cases role with
      | value =>
          cases above with
          | nil => rfl
          | cons edge above => exact locals_rename f ⟨uri, edge.2, above⟩
      | _ => rfl
  | _ => rfl

theorem visible_rename (s : Site) : (s.rename f).visible = s.visible.map (renameEntry f) := by
  have behind (above : List (Step × Node)) : visibleBehind s.uri (renameAbove f above) =
      (visibleBehind s.uri above).map (renameEntry f) := by
    induction above with
    | nil => rfl
    | cons edge above ih =>
        rw [visibleBehind, List.map_append, ← ih, ← shows_rename]
        rfl
  exact behind s.above

end Site

end JsonnetNav
