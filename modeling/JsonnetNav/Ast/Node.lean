import JsonnetNav.Ast.Basic

/-! # Nodes

Everything a tree is made of is a node: expressions, the other parts of
expressions, and names. `Node.parts` shows a node one level deep in a uniform way:
its values and its child nodes by the role they play. Children, printing and
equality are all read off this one view.
-/

namespace JsonnetNav

/-- A node of an abstract syntax tree. The names are kept apart by what they do. -/
inductive Node where
  | expr (e : Expr)
  | bind (b : LocalBind)
  | param (p : Param)
  | arg (a : Arg)
  | forSpec (s : ForSpec)
  | ifSpec (s : IfSpec)
  | assertion (a : Assertion)
  | key (k : FieldKey)
  | field (f : Field)
  | importee (i : Importee)
  /-- A name that binds a variable. -/
  | var (id : Ident)
  /-- The name of a field in an object. -/
  | fieldName (id : Ident)
  /-- The name of a field that is read. -/
  | fieldRef (id : Ident)
  /-- The name of a parameter in a call. -/
  | paramRef (id : Ident)

/-- What a node is. -/
inductive Kind where
  | null | dollar | self | super | document
  | var | varRef | fieldName | fieldRef | paramRef
  | num | str | bool | array | unary | binary
  | bind | localIn | param | fn | arg | call
  | forSpec | ifSpec | listComp
  | importee | importFile
  | assertion | assertIn
  | fixedKey | computedKey | field | object | objComp
  | fieldAccess | slice | cond
  | unknown | malformed | misplaced
  deriving Repr, DecidableEq

namespace Kind

/-- The name under which nodes of this kind are shown. -/
def name : Kind → String
  | null => "Null" | dollar => "Dollar" | self => "Self" | super => "Super"
  | document => "Document"
  | var => "Id.Var" | varRef => "Id.VarRef" | fieldName => "Id.Field"
  | fieldRef => "Id.FieldRef" | paramRef => "Id.ParamRef"
  | num => "Num" | str => "Str" | bool => "Bool" | array => "Array"
  | unary => "Unary" | binary => "Binary"
  | bind => "Bind" | localIn => "Local" | param => "Param" | fn => "Fn"
  | arg => "Arg" | call => "Call"
  | forSpec => "ForSpec" | ifSpec => "IfSpec" | listComp => "ListComp"
  | importee => "Importee" | importFile => "Import"
  | assertion => "Assert" | assertIn => "AssertExpr"
  | fixedKey => "FixedKey" | computedKey => "ComputedKey" | field => "Field"
  | object => "Object" | objComp => "ObjComp"
  | fieldAccess => "FieldAccess" | slice => "Slice" | cond => "If"
  | unknown => "Unknown" | malformed => "ErrorAST" | misplaced => "ErrorExpr"

def all : List Kind :=
  [null, dollar, self, super, document, var, varRef, fieldName, fieldRef, paramRef, num, str, bool,
    array, unary, binary, bind, localIn, param, fn, arg, call, forSpec, ifSpec, listComp, importee,
    importFile, assertion, assertIn, fixedKey, computedKey, field, object, objComp, fieldAccess,
    slice, cond, unknown, malformed, misplaced]

/-- Nodes of these kinds are no expressions. -/
def isExpr : Kind → Bool
  | bind | param | arg | forSpec | ifSpec | assertion | fixedKey | computedKey | field => false
  | _ => true

end Kind

/-- A class of nodes to ask for. -/
inductive NodeClass where
  | any
  | expr
  | fieldKey
  | only (kind : Kind)
  deriving Repr, DecidableEq

namespace NodeClass

def name : NodeClass → String
  | any => "AST"
  | expr => "Expr"
  | fieldKey => "FieldKey"
  | only kind => kind.name

def ofName? (name : String) : Option NodeClass :=
  ([any, expr, fieldKey] ++ Kind.all.map only).find? (·.name = name)

/-- The kinds of nodes in a class. The path of an import is a string, too. -/
def has : NodeClass → Kind → Bool
  | any, _ => true
  | expr, kind => kind.isExpr
  | fieldKey, kind => kind = .fixedKey || kind = .computedKey
  | only .str, kind => kind = .str || kind = .importee
  | only wanted, kind => kind = wanted

end NodeClass

/-- The role a child plays in its parent. -/
inductive Role where
  | body | values | operand | lhs | rhs
  | id | value | binds | params | default | callee | args
  | source | condition | expr | forSpec | compSpec
  | importee | message | assertion
  | key | assertions | fields | field | asserts
  | obj | array | start | stop | step
  | consequence | alternative
  deriving Repr, DecidableEq

namespace Role

/-- The label of a role in a printed tree. -/
def label : Role → String
  | body => "body" | values => "values" | operand => "operand" | lhs => "lhs" | rhs => "rhs"
  | id => "id" | value => "value" | binds => "binds" | params => "params"
  | default => "default" | callee => "callee" | args => "args"
  | source => "source" | condition => "condition" | expr => "expr"
  | forSpec => "for_spec" | compSpec => "comp_spec"
  | importee => "importee" | message => "message" | assertion => "assertion"
  | key => "key" | assertions => "assertions" | fields => "fields" | field => "field"
  | asserts => "asserts"
  | obj => "obj" | array => "array" | start => "begin" | stop => "end" | step => "step"
  | consequence => "consequence" | alternative => "alternative"

end Role

/-- A value in a node that is no node. -/
inductive Leaf where
  | text (t : Text)
  | number (n : Binary64)
  | flag (b : Bool)
  | visibility (v : Visibility)

namespace Leaf

/-- Equality of values; numbers are compared as numbers. -/
def same : Leaf → Leaf → Bool
  | text s, text t => s == t
  | number m, number n => m.sameValue n
  | flag a, flag b => a == b
  | visibility v, visibility w => v == w
  | _, _ => false

end Leaf

/-- One part of a node: a value, a child, or a row of children. -/
inductive Part where
  | leaf (label : String) (value : Leaf)
  | child (role : Role) (node : Node)
  | children (role : Role) (nodes : List Node)

/-- An edge from a node to one of its children. -/
structure Step where
  role : Role
  index : Nat := 0
  deriving Repr, DecidableEq

namespace Part

/-- A child that may be missing. -/
def ofOption (role : Role) : Option Node → List Part
  | some node => [.child role node]
  | none => []

/-- A value written as a string. -/
def ofString (label text : String) : Part :=
  .leaf label (.text (Text.ofString text))

/-- The child nodes of a part. -/
def nodes : Part → List Node
  | leaf _ _ => []
  | child _ node => [node]
  | children _ nodes => nodes

/-- The child nodes of a part with the edges that lead to them. -/
def edges : Part → List (Step × Node)
  | leaf _ _ => []
  | child role node => [(⟨role, 0⟩, node)]
  | children role nodes => nodes.mapIdx fun i node => (⟨role, i⟩, node)

end Part

/-- The node of a comprehension clause. -/
def CompSpec.node : CompSpec → Node
  | forSpec s => .forSpec s
  | ifSpec s => .ifSpec s

namespace Expr

/-- The kind of an expression. -/
def kind : Expr → Kind
  | null _ => .null
  | dollar _ => .dollar
  | self _ => .self
  | super _ => .super
  | document _ _ => .document
  | ref _ => .varRef
  | num _ _ => .num
  | str _ _ => .str
  | bool _ _ => .bool
  | array _ _ => .array
  | unary _ _ _ => .unary
  | binary _ _ _ _ => .binary
  | localIn _ _ _ => .localIn
  | fn _ _ _ => .fn
  | call _ _ _ => .call
  | listComp _ _ _ _ => .listComp
  | importFile _ _ _ => .importFile
  | assertIn _ _ _ => .assertIn
  | object _ _ _ _ => .object
  | objComp _ _ _ _ _ _ => .objComp
  | fieldAccess _ _ _ => .fieldAccess
  | slice _ _ _ _ _ => .slice
  | cond _ _ _ _ => .cond
  | unknown _ => .unknown
  | malformed _ _ => .malformed
  | misplaced _ _ => .misplaced

/-- The parts of an expression in the order in which they are shown. -/
def parts : Expr → List Part
  | null _ | dollar _ | self _ | super _ | unknown _ => []
  | document _ body => [.child .body (.expr body)]
  | ref id => [.leaf "name" (.text id.name)]
  | num _ value => [.leaf "value" (.number value)]
  | str _ value => [.leaf "value" (.text value)]
  | bool _ value => [.leaf "value" (.flag value)]
  | array _ values => [.children .values (values.map .expr)]
  | unary _ op operand => [.ofString "op" op.text, .child .operand (.expr operand)]
  | binary _ op lhs rhs =>
    [.ofString "op" op.text, .child .lhs (.expr lhs), .child .rhs (.expr rhs)]
  | localIn _ binds body => [.children .binds (binds.map .bind), .child .body (.expr body)]
  | fn _ params body => [.children .params (params.map .param), .child .body (.expr body)]
  | call _ callee args => [.child .callee (.expr callee), .children .args (args.map .arg)]
  | listComp _ element clause clauses =>
    [.child .expr (.expr element), .child .forSpec (.forSpec clause),
      .children .compSpec (clauses.map CompSpec.node)]
  | importFile _ kind importee =>
    [.ofString "type" kind.keyword, .child .importee (.importee importee)]
  | assertIn _ assertion body =>
    [.child .assertion (.assertion assertion), .child .body (.expr body)]
  | object _ binds assertions fields =>
    [.children .binds (binds.map .bind), .children .assertions (assertions.map .assertion),
      .children .fields (fields.map .field)]
  | objComp _ field binds assertions clause clauses =>
    [.child .field (.field field), .children .binds (binds.map .bind),
      .children .asserts (assertions.map .assertion), .child .forSpec (.forSpec clause),
      .children .compSpec (clauses.map CompSpec.node)]
  | fieldAccess _ obj field => [.child .obj (.expr obj), .child .field (.fieldRef field)]
  | slice _ xs start stop step =>
    [.child .array (.expr xs), .child .start (.expr start)]
      ++ Part.ofOption .stop (stop.map .expr) ++ Part.ofOption .step (step.map .expr)
  | cond _ condition consequence alternative =>
    [.child .condition (.expr condition), .child .consequence (.expr consequence)]
      ++ Part.ofOption .alternative (alternative.map .expr)
  | malformed _ type | misplaced _ type => [.ofString "node_type" type]

end Expr

namespace Node

/-- The kind of a node. -/
def kind : Node → Kind
  | expr e => e.kind
  | bind _ => .bind
  | param _ => .param
  | arg _ => .arg
  | forSpec _ => .forSpec
  | ifSpec _ => .ifSpec
  | assertion _ => .assertion
  | key (.fixed _ _) => .fixedKey
  | key (.computed _ _) => .computedKey
  | field _ => .field
  | importee _ => .importee
  | var _ => .var
  | fieldName _ => .fieldName
  | fieldRef _ => .fieldRef
  | paramRef _ => .paramRef

/-- The range of a node. -/
def range : Node → Range
  | expr e => e.range
  | bind b => b.range
  | param p => p.range
  | arg a => a.range
  | forSpec s => s.range
  | ifSpec s => s.range
  | assertion a => a.range
  | key k => k.range
  | field f => f.range
  | importee i => i.range
  | var id | fieldName id | fieldRef id | paramRef id => id.range

/-- The parts of a node in the order in which they are shown. -/
def parts : Node → List Part
  | expr e => e.parts
  | bind b => [.child .id (.var b.id), .child .value (.expr b.value)]
  | param p => .child .id (.var p.id) :: Part.ofOption .default (p.default.map .expr)
  | arg a => .child .value (.expr a.value) :: Part.ofOption .id (a.name.map .paramRef)
  | forSpec s => [.child .id (.var s.id), .child .source (.expr s.source)]
  | ifSpec s => [.child .condition (.expr s.condition)]
  | assertion a =>
    .child .condition (.expr a.condition) :: Part.ofOption .message (a.message.map .expr)
  | key (.fixed _ id) => [.child .id (.fieldName id)]
  | key (.computed _ e) => [.child .expr (.expr e)]
  | field f =>
    [.child .key (.key f.key), .child .value (.expr f.value),
      .leaf "visibility" (.visibility f.visibility), .leaf "inherited" (.flag f.inherited)]
  | importee i => [.leaf "value" (.text i.value)]
  | var id | fieldName id | fieldRef id | paramRef id => [.leaf "name" (.text id.name)]

/-- The node belongs to the class. -/
def isA (n : Node) (c : NodeClass) : Bool :=
  c.has n.kind

/-- The children of a node with the edges that lead to them. -/
def children (n : Node) : List (Step × Node) :=
  n.parts.flatMap Part.edges

theorem mem_nodes_of_mem_edges {p : Part} {step : Step} {m : Node} (h : (step, m) ∈ p.edges) :
    m ∈ p.nodes := by
  cases p with
  | leaf => simp [Part.edges] at h
  | child => simp_all [Part.edges, Part.nodes]
  | children role nodes =>
    simp only [Part.edges, List.mem_mapIdx, Prod.mk.injEq] at h
    obtain ⟨i, hi, _, rfl⟩ := h
    exact List.getElem_mem hi

/-- Every child in the part is smaller than the bound. -/
def ChildrenBelow (bound : Nat) (p : Part) : Prop :=
  ∀ m ∈ p.nodes, sizeOf m < bound

theorem childrenBelow_leaf {bound : Nat} {label : String} {value : Leaf} :
    ChildrenBelow bound (.leaf label value) := by
  simp [ChildrenBelow, Part.nodes]

theorem childrenBelow_child {bound : Nat} {role : Role} {m : Node} :
    ChildrenBelow bound (.child role m) ↔ sizeOf m < bound := by
  simp [ChildrenBelow, Part.nodes]

theorem childrenBelow_map {α : Type} [SizeOf α] {bound : Nat} {role : Role} {f : α → Node}
    {xs : List α} (hf : ∀ x, sizeOf (f x) ≤ 1 + sizeOf x) (hxs : sizeOf xs < bound) :
    ChildrenBelow bound (.children role (xs.map f)) := by
  intro m hm
  obtain ⟨x, hx, rfl⟩ := List.mem_map.1 hm
  have := List.sizeOf_lt_of_mem hx
  have := hf x
  omega

theorem childrenBelow_ofOption {α : Type} [SizeOf α] {bound : Nat} {role : Role} {f : α → Node}
    {o : Option α} (hf : ∀ x, sizeOf (f x) ≤ 1 + sizeOf x) (ho : sizeOf o < bound) :
    ∀ p ∈ Part.ofOption role (o.map f), ChildrenBelow bound p := by
  cases o with
  | none => simp [Part.ofOption]
  | some x =>
    have := hf x
    simp only [Option.some.sizeOf_spec] at ho
    simp only [Option.map_some, Part.ofOption, List.mem_singleton, forall_eq, childrenBelow_child]
    omega

theorem sizeOf_compSpec_node (s : CompSpec) : sizeOf s.node ≤ 1 + sizeOf s := by
  cases s <;> simp [CompSpec.node]

theorem childrenBelow_expr (e : Expr) : ∀ p ∈ e.parts, ChildrenBelow (1 + sizeOf e) p := by
  cases e
  all_goals simp only [Expr.parts, List.forall_mem_cons, List.forall_mem_append]
  all_goals repeat' apply And.intro
  all_goals try exact childrenBelow_leaf
  all_goals try exact fun _ h => absurd h List.not_mem_nil
  all_goals try (refine childrenBelow_child.2 ?_; simp +arith)
  all_goals try (refine childrenBelow_map sizeOf_compSpec_node ?_; simp +arith)
  all_goals try (refine childrenBelow_map (fun x => ?_) ?_ <;> simp +arith)
  all_goals (refine childrenBelow_ofOption (fun x => ?_) ?_ <;> simp +arith)

theorem childrenBelow_parts (n : Node) : ∀ p ∈ n.parts, ChildrenBelow (sizeOf n) p := by
  cases n
  case expr e => simpa [parts] using childrenBelow_expr e
  case key k => cases k <;> simp +arith [parts, childrenBelow_child]
  all_goals simp only [parts, List.forall_mem_cons]
  all_goals repeat' apply And.intro
  all_goals try exact childrenBelow_leaf
  all_goals try exact fun _ h => absurd h List.not_mem_nil
  all_goals try (refine childrenBelow_child.2 ?_; rename_i x; cases x; simp +arith)
  all_goals (rename_i x; cases x
             refine childrenBelow_ofOption (fun x => ?_) ?_ <;> simp +arith)

/-- A child is smaller than the node it belongs to. -/
theorem sizeOf_child {n m : Node} {step : Step} (h : (step, m) ∈ n.children) :
    sizeOf m < sizeOf n := by
  obtain ⟨p, hp, hm⟩ := List.mem_flatMap.1 h
  exact childrenBelow_parts n p hp m (mem_nodes_of_mem_edges hm)

end Node

end JsonnetNav
