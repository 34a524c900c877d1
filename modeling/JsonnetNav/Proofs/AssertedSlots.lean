import JsonnetNav.Proofs.ReadRanges
import Mathlib

/-! # Assertions in front of an expression

A parser writes `assert a; assert b; e` as three siblings, and where one expression is expected
these three make up its slot. Reading the first of them gives the whole expression. But arrays,
conditionals and calls take the nodes of their slots one by one, so that each assertion adds an
expression: the slot is read once more without it.
-/

namespace JsonnetNav

theorem infix_flatMap {α β : Type} {f : α → List β} {xs : List α} {x : α} (member : x ∈ xs) :
    f x <:+: xs.flatMap f := by
  obtain ⟨before, after, rfl⟩ := List.append_of_mem member
  refine ⟨before.flatMap f, after.flatMap f, ?_⟩
  simp

/-- One thing for each of them and one more leaves no room for others. -/
theorem eq_zero_of_sum_le {α : Type} {f : α → Nat} {xs : List α}
    (few : (xs.map fun x => f x + 1).sum ≤ xs.length) : ∀ x ∈ xs, f x = 0 := by
  induction xs with
  | nil => simp
  | cons x xs ih =>
      have many : xs.length ≤ (xs.map fun x => f x + 1).sum := by
        simp
      simp only [List.map_cons, List.sum_cons, List.length_cons] at few
      simp only [List.forall_mem_cons]
      exact ⟨by omega, ih (by omega)⟩

namespace Cursor

open ParseTree

/-- The node counts as a part of its parent. -/
def isMember (d : Cursor) : Bool :=
  d.tree.named && !d.isComment

/-- The members of a node are these, and its extra nodes are comments. -/
structure Holds (c : Cursor) (nodes : List Cursor) : Prop where
  members : c.members.unattach = nodes
  extras : ∀ t ∈ c.tree.children, t.named → (t.extra ↔ t.type = "comment")

/-- The second node is what an assertion at the first would be about. -/
structure Precedes (d e : Cursor) : Prop where
  next : d.next?.map Subtype.val = some e
  ordered : d.range.start ≤ e.range.start

theorem unattach_members (c : Cursor) :
    c.members.unattach = (row c.tree.children).filter isMember := by
  unfold members children
  rw [@List.unattach_filter _ _ _ _ isMember fun _ _ => rfl, List.unattach_attachWith]

theorem tree_mem_of_mem_row {trees : List ParseTree} {d : Cursor} (member : d ∈ row trees) :
    d.tree ∈ trees := by
  induction trees with
  | nil => cases member
  | cons t ts ih =>
      rcases List.mem_cons.mp member with rfl | later
      · exact .head _
      · exact .tail _ (ih later)

theorem find?_attachWith {α : Type} {P : α → Prop} {xs : List α} (all : ∀ x ∈ xs, P x)
    (p : α → Bool) : ((xs.attachWith P all).find? fun x => p x.1).map Subtype.val = xs.find? p := by
  conv_rhs => rw [← List.unattach_attachWith (l := xs) (H := all), List.unattach, List.find?_map]
  rfl

theorem map_next {d : Cursor} (extras : ∀ t ∈ d.after, t.named → (t.extra ↔ t.type = "comment")) :
    d.next?.map Subtype.val = ((row d.after).filter isMember).head? := by
  have same : ∀ e ∈ row d.after, (e.tree.named && !e.tree.extra) = isMember e := by
    intro e member
    have comments := extras e.tree (tree_mem_of_mem_row member)
    cases named : e.tree.named with
    | false => simp [isMember, named]
    | true => simp [isMember, isComment, Cursor.type, named, ← comments named]
  rw [List.head?_filter, ← List.find?_congr same]
  exact find?_attachWith _ fun e : Cursor => e.tree.named && !e.tree.extra

theorem isChain_row {start : Position} {trees : List ParseTree} (ordered : rowInOrder start trees)
    (extras : ∀ t ∈ trees, t.named → (t.extra ↔ t.type = "comment")) :
    ((row trees).filter isMember).IsChain Precedes := by
  induction trees generalizing start with
  | nil => exact .nil
  | cons t ts ih =>
      obtain ⟨-, here, rest⟩ := rowInOrder_cons.mp ordered
      have extras' : ∀ u ∈ ts, u.named → (u.extra ↔ u.type = "comment") :=
        fun u later => extras u (.tail _ later)
      rw [row, List.filter_cons]
      split
      · refine List.isChain_cons.mpr ⟨fun e follows => ?_, ih rest extras'⟩
        have later : e ∈ row ts := List.mem_of_mem_filter (List.mem_of_mem_head? follows)
        obtain ⟨after, -⟩ := inOrder_of_mem_row rest later
        exact ⟨(map_next extras').trans follows, Position.le_trans (inOrder_iff.mp here).1 after⟩
      · exact ih rest extras'

/-- Members of one node, one after the other, in a tree that follows the text. -/
structure Consecutive (nodes : List Cursor) : Prop where
  chain : nodes.IsChain Precedes
  inOrder : ∀ d ∈ nodes, d.tree.inOrder

theorem Holds.consecutive {c : Cursor} {nodes : List Cursor} (holds : c.Holds nodes)
    (ordered : c.tree.inOrder) : Consecutive nodes := by
  rw [← holds.members, unattach_members]
  have inside := (inOrder_iff.mp ordered).2
  refine ⟨isChain_row inside holds.extras, fun d member => ?_⟩
  exact (inOrder_of_mem_row inside (List.mem_of_mem_filter member)).2.1

theorem Consecutive.part {nodes part : List Cursor} (whole : Consecutive nodes)
    (inside : part <:+: nodes) : Consecutive part := by
  have chain := List.IsChain.infix whole.chain inside
  exact ⟨chain, fun d member => whole.inOrder d (inside.subset member)⟩

end Cursor

namespace Build

variable {c : Cursor}

theorem demandType_eq_ok {types : List String} (type : c.type ∈ types) :
    demandType c types = .ok () := by
  simp [demandType, type, pure, Except.pure]

theorem form_of_type {kind : Kind} (ofType : Kind.ofType? c.type = some kind) :
    form c = asKind kind c := by
  have bare : c.type ≠ "parenthesis" := by
    intro type
    rw [type] at ofType
    cases ofType
  rw [form, if_neg bare, ofType]

theorem expr_of_asKind {e : Expr} (kind : Kind) (ofType : Kind.ofType? c.type = some kind)
    (read : asKind kind c = .ok (.expr e)) : expr c = e := by
  rw [expr, node, form_of_type ofType, read]

theorem expr_of_error {error : BuildError} (kind : Kind) (ofType : Kind.ofType? c.type = some kind)
    (failed : asKind kind c = .error error) : expr c = .malformed c.range c.type := by
  rw [expr, node, form_of_type ofType, failed]

theorem read_assertion {condition : Cursor} {message : Option Cursor} (type : c.type = "assert")
    (parts : c.members.unattach = condition :: message.toList) :
    assertion c = .ok ⟨c.range, expr condition, message.map expr⟩ := by
  rw [assertion, demandType_eq_ok (by simp [type])]
  generalize c.members = members at parts ⊢
  cases message with
  | none =>
      rcases members with _ | ⟨first, _ | _⟩ <;> cases parts
      rfl
  | some text =>
      rcases members with _ | ⟨first, _ | ⟨second, _ | _⟩⟩ <;> cases parts
      rfl

theorem read_assertIn {a : Assertion} {e : Cursor} (type : c.type = "assert")
    (read : assertion c = .ok a) (precedes : c.Precedes e) (ordered : e.tree.inOrder) :
    expr c = .assertIn ⟨c.range.start, (expr e).range.stop⟩ a (expr e) := by
  have reaches : c.range.start ≤ (expr e).range.stop :=
    Position.le_trans precedes.ordered (start_le_stop_expr ordered)
  have merged : merge a.range (expr e).range = .ok ⟨c.range.start, (expr e).range.stop⟩ := by
    rw [assertion_range c a read]
    exact merge_eq_ok.mpr ⟨reaches, rfl⟩
  apply expr_of_asKind .assertIn (by rw [type]; rfl)
  obtain ⟨below, next, rfl⟩ := Option.map_eq_some_iff.mp precedes.next
  rw [asKind, read, next]
  change (merge a.range (expr below.1).range >>= fun range =>
    pure (Node.expr (.assertIn range a (expr below.1)))) = _
  rw [merged]
  rfl

end Build

open Cursor

/-- An assertion as it is written, with its condition and its message. -/
structure AssertNode where
  node : Cursor
  condition : Cursor
  message : Option Cursor
  isAssert : node.type = "assert"
  parts : node.members.unattach = condition :: message.toList

namespace AssertNode

def assertion (a : AssertNode) : Assertion :=
  ⟨a.node.range, Build.expr a.condition, a.message.map Build.expr⟩

/-- Assertions around an expression, the first one outermost. -/
def around : List AssertNode → Expr → Expr
  | [], e => e
  | a :: rest, e =>
    .assertIn ⟨a.node.range.start, (around rest e).range.stop⟩ a.assertion (around rest e)

theorem read_expr (a : AssertNode) {e : Cursor} (precedes : a.node.Precedes e)
    (ordered : e.tree.inOrder) :
    Build.expr a.node =
      .assertIn ⟨a.node.range.start, (Build.expr e).range.stop⟩ a.assertion (Build.expr e) :=
  Build.read_assertIn a.isAssert (Build.read_assertion a.isAssert a.parts) precedes ordered

end AssertNode

/-- The nodes that stand for one expression: assertions and the expression they are about. -/
structure Slot where
  asserts : List AssertNode
  body : Cursor
  plain : body.type ≠ "assert"

namespace Slot

def nodes (s : Slot) : List Cursor :=
  s.asserts.map AssertNode.node ++ [s.body]

/-- The expression that a slot stands for. -/
def expr (s : Slot) : Expr :=
  AssertNode.around s.asserts (Build.expr s.body)

/-- The slot, and the slot without its first assertion, and so on to its last node. -/
def suffixes (s : Slot) : List Slot :=
  s.asserts.tails.map fun rest => { s with asserts := rest }

/-- The node at which a slot begins. -/
def first (s : Slot) : Cursor :=
  match s.asserts with
  | [] => s.body
  | a :: _ => a.node

/-- The expressions that are read from the nodes of a slot. -/
def readings (s : Slot) : List Expr :=
  s.suffixes.map expr

theorem nodes_eq (s : Slot) : s.nodes = s.suffixes.map first := by
  obtain ⟨asserts, body, plain⟩ := s
  induction asserts with
  | nil => rfl
  | cons a rest ih => exact congrArg (a.node :: ·) ih

theorem nodes_of_suffix {s t : Slot} (member : t ∈ s.suffixes) : t.nodes <:+: s.nodes := by
  obtain ⟨rest, isTail, rfl⟩ := List.mem_map.mp member
  obtain ⟨before, same⟩ := (List.mem_tails _ _).mp isTail
  refine ⟨before.map AssertNode.node, [], ?_⟩
  simp [nodes, ← same]

/-- The whole expression is read where the slot begins. -/
theorem expr_first {s : Slot} (row : Consecutive s.nodes) : Build.expr s.first = s.expr := by
  obtain ⟨asserts, body, plain⟩ := s
  induction asserts with
  | nil => rfl
  | cons a rest ih =>
      let inner : Slot := ⟨rest, body, plain⟩
      have head : inner.first ∈ inner.nodes.head? := by
        cases rest <;> rfl
      obtain ⟨follows, chain⟩ := List.isChain_cons.mp row.chain
      have ordered := row.inOrder _ (.tail _ (List.mem_of_mem_head? head))
      have read := ih ⟨chain, fun d member => row.inOrder d (.tail _ member)⟩
      have whole := a.read_expr (follows _ head) ordered
      rw [read] at whole
      exact whole

theorem map_expr_nodes {s : Slot} (row : Consecutive s.nodes) :
    s.nodes.map Build.expr = s.readings := by
  rw [nodes_eq, readings, List.map_map]
  exact List.map_congr_left fun t member => expr_first (row.part (nodes_of_suffix member))

theorem map_expr_slots {slots : List Slot} (row : Consecutive (slots.flatMap nodes)) :
    (slots.flatMap nodes).map Build.expr = slots.flatMap readings := by
  rw [List.map_flatMap]
  exact List.flatMap_congr fun s member => map_expr_nodes (row.part (infix_flatMap member))

theorem length_suffixes (s : Slot) : s.suffixes.length = s.asserts.length + 1 := by
  simp [suffixes]

theorem suffixes_plain {s : Slot} (bare : s.asserts = []) : s.suffixes = [s] := by
  obtain ⟨asserts, body, plain⟩ := s
  cases bare
  rfl

theorem length_readings (s : Slot) : s.readings.length = s.asserts.length + 1 := by
  rw [readings, List.length_map, length_suffixes]

theorem readings_plain {s : Slot} (bare : s.asserts = []) : s.readings = [s.expr] := by
  rw [readings, suffixes_plain bare]
  rfl

theorem readings_cons (s : Slot) : ∃ more, s.readings = s.expr :: more := by
  obtain ⟨asserts, body, plain⟩ := s
  cases asserts with
  | nil => exact ⟨[], rfl⟩
  | cons a rest => exact ⟨readings ⟨rest, body, plain⟩, rfl⟩

theorem flatMap_readings_eq_iff {slots : List Slot} :
    slots.flatMap readings = slots.map expr ↔ ∀ s ∈ slots, s.asserts = [] := by
  constructor
  · intro same s member
    have count := congrArg List.length same
    simp only [List.length_flatMap, List.length_map, length_readings] at count
    exact List.length_eq_zero_iff.mp (eq_zero_of_sum_le count.le s member)
  · intro bare
    rw [List.map_eq_flatMap]
    exact List.flatMap_congr fun s member => readings_plain (bare s member)

theorem head_flatMap_readings (slots : List Slot) :
    (slots.flatMap readings).head? = slots.head?.map expr := by
  cases slots with
  | nil => rfl
  | cons s slots =>
      obtain ⟨more, same⟩ := s.readings_cons
      simp [same]

end Slot

/-- An argument with a name as it is written. -/
structure NamedNode where
  node : Cursor
  name : Cursor
  id : Ident
  value : Slot
  isNamed : node.type = "named_argument"
  reads : Build.ident name = .ok id
  parts : node.members.unattach = name :: value.nodes

/-- The nodes that stand for one argument. -/
inductive ArgSlot where
  | positional (value : Slot) (unnamed : value.body.type ≠ "named_argument")
  | named (arg : NamedNode)

namespace ArgSlot

def value : ArgSlot → Slot
  | positional value _ => value
  | named arg => arg.value

def nodes : ArgSlot → List Cursor
  | positional value _ => value.nodes
  | named arg => [arg.node]

/-- The arguments that are read from the nodes of a slot: a positional one for each of its
    nodes, or the one with a name, whose value must not be asserted. -/
def read : ArgSlot → Build.Result (List Arg)
  | positional value _ => .ok (value.suffixes.map fun s => ⟨s.first.range, s.expr, none⟩)
  | named arg =>
    if arg.value.asserts.isEmpty then .ok [⟨arg.node.range, arg.value.expr, some arg.id⟩]
    else .error .missingParts

/-- The argument that a slot stands for. -/
def arg : ArgSlot → Arg
  | positional value _ => ⟨value.first.range, value.expr, none⟩
  | named arg => ⟨arg.node.range, arg.value.expr, some arg.id⟩

theorem read_plain {s : ArgSlot} (bare : s.value.asserts = []) : s.read = .ok [s.arg] := by
  cases s with
  | positional value _ =>
      have only : value.suffixes = [value] := Slot.suffixes_plain bare
      rw [read, only]
      rfl
  | named arg => exact if_pos (List.isEmpty_iff.mpr bare)

theorem length_read (s : ArgSlot) :
    Build.Yields s.read fun args => args.length = s.value.asserts.length + 1 := by
  intro args done
  cases s with
  | positional value _ =>
      cases done
      simp [Slot.length_suffixes, ArgSlot.value]
  | named arg =>
      rw [read] at done
      split at done
      · rename_i bare
        cases done
        simp [ArgSlot.value, List.isEmpty_iff.mp bare]
      · cases done

end ArgSlot

/-- The arguments of a call as they are written. -/
structure ArgRow where
  node : Cursor
  slots : List ArgSlot
  isRow : node.type = "args"
  holds : node.Holds (slots.flatMap ArgSlot.nodes)

/-- What the nodes of a callee after its first one hold: its parts are taken for arguments. -/
def Slot.strays (callee : Slot) : List Cursor :=
  callee.nodes.tail.flatMap fun d => d.members.unattach

namespace Build

theorem mapM_flatMap {α β γ : Type} (f : β → Result γ) (g : α → List β) (xs : List α) :
    (xs.flatMap g).mapM f = List.flatten <$> xs.mapM fun x => (g x).mapM f := by
  induction xs with
  | nil => rfl
  | cons x xs ih =>
      rw [List.flatMap_cons, List.mapM_append, ih, List.mapM_cons]
      cases (g x).mapM f with
      | error _ => rfl
      | ok _ => cases xs.mapM fun x => (g x).mapM f <;> rfl

theorem mapM_eq_ok {α β : Type} {f : α → Result β} {g : α → β} {xs : List α}
    (each : ∀ x ∈ xs, f x = .ok (g x)) : xs.mapM f = .ok (xs.map g) := by
  induction xs with
  | nil => rfl
  | cons x xs ih =>
      rw [List.mapM_cons, each x (.head _), ih fun y later => each y (.tail _ later)]
      rfl

theorem arg_eq_ok {d : Cursor} (unnamed : d.type ≠ "named_argument") :
    arg d = .ok ⟨d.range, expr d, none⟩ := by
  rw [arg, if_neg unnamed]
  rfl

theorem namedArg_of_slot {c name : Cursor} {id : Ident} {value : Slot}
    (type : c.type = "named_argument") (reads : ident name = .ok id)
    (parts : c.members.unattach = name :: value.nodes) :
    namedArg c = if value.asserts.isEmpty then .ok ⟨c.range, value.expr, some id⟩
      else .error .missingParts := by
  obtain ⟨asserts, body, plain⟩ := value
  rw [namedArg, demandType_eq_ok (by simp [type])]
  generalize c.members = members at parts ⊢
  cases asserts with
  | nil =>
      rcases members with _ | ⟨first, _ | ⟨second, _ | _⟩⟩ <;> cases parts
      change (ident first.1 >>= fun id => pure _) = _
      rw [reads]
      rfl
  | cons a rest =>
      -- the name and at least two nodes of the slot
      have count : members.length = rest.length + 3 := by
        have same := congrArg List.length parts
        simpa [Slot.nodes] using same
      rcases members with _ | ⟨first, _ | ⟨second, _ | ⟨third, more⟩⟩⟩
      · cases count
      · cases count
      · cases count
      · rfl

theorem mapM_arg_nodes {s : ArgSlot} (row : Consecutive s.nodes) : s.nodes.mapM arg = s.read := by
  cases s with
  | positional value unnamed =>
      have types : ∀ t ∈ value.suffixes, t.first.type ≠ "named_argument" := by
        intro t member
        obtain ⟨rest, -, rfl⟩ := List.mem_map.mp member
        cases rest with
        | nil => exact unnamed
        | cons a rest => simp [Slot.first, a.isAssert]
      rw [ArgSlot.nodes, Slot.nodes_eq, List.mapM_map]
      refine mapM_eq_ok fun t member => ?_
      have inside := row.part (Slot.nodes_of_suffix member)
      rw [Function.comp_apply, arg_eq_ok (types t member), Slot.expr_first inside]
  | named n =>
      rw [ArgSlot.nodes, List.mapM_cons, arg, if_pos n.isNamed, ArgSlot.read,
        namedArg_of_slot n.isNamed n.reads n.parts]
      split <;> rfl

theorem expr_array {c : Cursor} (type : c.type = "array") :
    expr c = .array c.range (c.members.unattach.map expr) := by
  apply expr_of_asKind .array (by rw [type]; rfl)
  rw [asKind, demandType_eq_ok (by simp [type])]
  simp

theorem expr_cond {c : Cursor} {condition consequence : Expr} {rest : List Expr}
    (type : c.type = "conditional")
    (read : c.members.unattach.map expr = condition :: consequence :: rest) :
    expr c = .cond c.range condition consequence rest.head? := by
  apply expr_of_asKind .cond (by rw [type]; rfl)
  rw [asKind, demandType_eq_ok (by simp [type])]
  generalize c.members = parts at read ⊢
  rcases parts with _ | ⟨first, _ | ⟨second, _ | ⟨third, more⟩⟩⟩ <;> cases read
  · rfl
  · rfl

theorem asKind_call {c d : Cursor} {rest : List Cursor} (type : c.type = "functioncall")
    (members : c.members.unattach = d :: rest) :
    asKind .call c = (fun args => Node.expr (.call c.range (expr d) args)) <$>
      (rest.flatMap fun row => row.members.unattach).mapM arg := by
  rw [asKind, demandType_eq_ok (by simp [type]), mapM_flatMap]
  generalize c.members = parts at members ⊢
  rcases parts with _ | ⟨callee, more⟩ <;> cases members
  have rows : (more.mapM fun row => row.1.members.mapM fun part => arg part.1) =
      more.unattach.mapM fun row => row.members.unattach.mapM arg := by
    simp only [List.unattach, List.mapM_map]
    rfl
  change ((more.mapM fun row => row.1.members.mapM fun part => arg part.1) >>= fun args =>
    pure (Node.expr (.call c.range (expr callee.1) args.flatten))) = _
  rw [rows, bind_pure_comp, Functor.map_map]
  rfl

theorem length_of_mapM {α β : Type} (f : α → Result β) (xs : List α) :
    Yields (xs.mapM f) fun ys => ys.length = xs.length := by
  induction xs with
  | nil => simp
  | cons x xs ih =>
      simp only [List.mapM_cons, yields_bind, yields_pure]
      intro y _ ys rest
      simp [ih ys rest]

theorem length_readAll (slots : List ArgSlot) : Yields (slots.mapM ArgSlot.read) fun rows =>
    rows.flatten.length = (slots.map fun s => s.value.asserts.length + 1).sum := by
  induction slots with
  | nil => simp
  | cons s slots ih =>
      simp only [List.mapM_cons, yields_bind, yields_pure]
      intro args read rows rest
      simp [ih rows rest, s.length_read args read]

/-- The arguments that are read from a callee and the slots of a call. -/
def callArgs (callee : Slot) (slots : List ArgSlot) : Result (List Arg) := do
  let stray ← callee.strays.mapM arg
  let args ← slots.mapM ArgSlot.read
  return stray ++ args.flatten

theorem callArgs_of_plain {callee : Slot} {slots : List ArgSlot} (none : callee.strays = [])
    (bare : ∀ s ∈ slots, s.value.asserts = []) :
    callArgs callee slots = .ok (slots.map ArgSlot.arg) := by
  have read : slots.mapM ArgSlot.read = .ok (slots.map fun s => [s.arg]) :=
    mapM_eq_ok fun s member => ArgSlot.read_plain (bare s member)
  rw [callArgs, none, read]
  change Except.ok ([] ++ (slots.map fun s => [s.arg]).flatten) = _
  rw [List.nil_append, ← List.flatMap_def, ← List.map_eq_flatMap]

theorem plain_of_callArgs {callee : Slot} {slots : List ArgSlot} {args : List Arg}
    (read : callArgs callee slots = .ok args) (count : args.length = slots.length) :
    callee.strays = [] ∧ ∀ s ∈ slots, s.value.asserts = [] := by
  obtain ⟨stray, strays, read⟩ := Except.bind_eq_ok.mp read
  obtain ⟨rows, rest, read⟩ := Except.bind_eq_ok.mp read
  cases read
  have strayCount := length_of_mapM _ _ _ strays
  have slotCount := length_readAll _ _ rest
  rw [List.length_append, slotCount] at count
  have many : slots.length ≤ (slots.map fun s => s.value.asserts.length + 1).sum := by simp
  have few : (slots.map fun s => s.value.asserts.length + 1).sum ≤ slots.length := by omega
  have zero := eq_zero_of_sum_le few
  refine ⟨List.length_eq_zero_iff.mp (by omega), fun s member => ?_⟩
  exact List.length_eq_zero_iff.mp (zero s member)

theorem expr_call {c : Cursor} {callee : Slot} {rows : List ArgRow} (type : c.type = "functioncall")
    (ordered : c.tree.inOrder) (holds : c.Holds (callee.nodes ++ rows.map ArgRow.node)) :
    expr c = match callArgs callee (rows.flatMap ArgRow.slots) with
      | .ok args => .call c.range callee.expr args
      | .error _ => .malformed c.range c.type := by
  have row := holds.consecutive ordered
  have nodes : callee.nodes = callee.first :: callee.nodes.tail := by
    obtain ⟨_ | _, body, plain⟩ := callee <;> rfl
  have members : c.members.unattach =
      callee.first :: (callee.nodes.tail ++ rows.map ArgRow.node) := by
    rw [holds.members, ← List.cons_append, ← nodes]
  have slots : (rows.map ArgRow.node).flatMap (fun row => row.members.unattach) =
      (rows.flatMap ArgRow.slots).flatMap ArgSlot.nodes := by
    rw [List.flatMap_map, List.flatMap_assoc]
    exact List.flatMap_congr fun r _ => r.holds.members
  have read : ((rows.flatMap ArgRow.slots).flatMap ArgSlot.nodes).mapM arg =
      List.flatten <$> (rows.flatMap ArgRow.slots).mapM ArgSlot.read := by
    rw [mapM_flatMap]
    congr 1
    apply mapM_congr_mem
    intro s member
    obtain ⟨r, inRows, inRow⟩ := List.mem_flatMap.mp member
    have whole := row.inOrder r.node (List.mem_append_right _ (List.mem_map_of_mem inRows))
    exact mapM_arg_nodes ((r.holds.consecutive whole).part (infix_flatMap inRow))
  have args : (callee.nodes.tail ++ rows.map ArgRow.node).flatMap
      (fun row => row.members.unattach) =
        callee.strays ++ (rows.flatMap ArgRow.slots).flatMap ArgSlot.nodes := by
    rw [List.flatMap_append, slots, Slot.strays]
  have called : asKind .call c = (fun args => Node.expr (.call c.range callee.expr args)) <$>
      callArgs callee (rows.flatMap ArgRow.slots) := by
    rw [asKind_call type members, args, List.mapM_append, read, callArgs,
      Slot.expr_first (row.part (List.infix_append' [] _ _))]
    simp
  have ofType : Kind.ofType? c.type = some .call := by
    rw [type]
    rfl
  cases done : callArgs callee (rows.flatMap ArgRow.slots) with
  | ok args => exact expr_of_asKind .call ofType (by rw [called, done]; rfl)
  | error error => exact expr_of_error .call ofType (by rw [called, done]; rfl)

theorem cond_of_slots {c : Cursor} {first second : Slot} {more : List Slot}
    (ordered : c.tree.inOrder) (type : c.type = "conditional")
    (holds : c.Holds ((first :: second :: more).flatMap Slot.nodes)) :
    ∃ consequence rest,
      (first :: second :: more).flatMap Slot.readings = first.expr :: consequence :: rest ∧
      expr c = .cond c.range first.expr consequence rest.head? := by
  obtain ⟨extra, firstRead⟩ := first.readings_cons
  obtain ⟨extra', secondRead⟩ := second.readings_cons
  obtain ⟨consequence, rest, follows⟩ : ∃ consequence rest,
      (first :: second :: more).flatMap Slot.readings = first.expr :: consequence :: rest := by
    cases extra <;> simp [firstRead, secondRead]
  have read := Slot.map_expr_slots (holds.consecutive ordered)
  rw [← holds.members, follows] at read
  exact ⟨consequence, rest, follows, expr_cond type read⟩

/-- Where a tree follows the text, an array, a conditional and a call are read from the nodes of
    their slots one by one. They have one expression for each slot exactly if there are no
    assertions in the slots, those of the alternative excepted. -/
theorem expr_of_slots {c : Cursor} (ordered : c.tree.inOrder) :
    (∀ slots : List Slot, c.type = "array" → c.Holds (slots.flatMap Slot.nodes) →
      expr c = .array c.range (slots.flatMap Slot.readings) ∧
      (expr c = .array c.range (slots.map Slot.expr) ↔ ∀ s ∈ slots, s.asserts = [])) ∧
    (∀ (first second : Slot) (more : List Slot), c.type = "conditional" →
      c.Holds ((first :: second :: more).flatMap Slot.nodes) →
      (∃ consequence rest,
        (first :: second :: more).flatMap Slot.readings = first.expr :: consequence :: rest ∧
        expr c = .cond c.range first.expr consequence rest.head?) ∧
      (first.asserts = [] → second.asserts = [] →
        expr c = .cond c.range first.expr second.expr (more.head?.map Slot.expr)) ∧
      (more = [] → expr c = .cond c.range first.expr second.expr none →
        first.asserts = [] ∧ second.asserts = [])) ∧
    (∀ (callee : Slot) (rows : List ArgRow), c.type = "functioncall" →
      c.Holds (callee.nodes ++ rows.map ArgRow.node) →
      (expr c = match callArgs callee (rows.flatMap ArgRow.slots) with
        | .ok args => .call c.range callee.expr args
        | .error _ => .malformed c.range c.type) ∧
      (expr c = .call c.range callee.expr ((rows.flatMap ArgRow.slots).map ArgSlot.arg) ↔
        callee.strays = [] ∧ ∀ s ∈ rows.flatMap ArgRow.slots, s.value.asserts = [])) := by
  refine ⟨?_, ?_, ?_⟩
  · intro slots type holds
    have read : expr c = .array c.range (slots.flatMap Slot.readings) := by
      rw [expr_array type, holds.members, Slot.map_expr_slots (holds.consecutive ordered)]
    refine ⟨read, ?_⟩
    rw [read, Expr.array.injEq, Slot.flatMap_readings_eq_iff]
    exact and_iff_right rfl
  · intro first second more type holds
    obtain ⟨consequence, rest, follows, read⟩ := cond_of_slots ordered type holds
    refine ⟨⟨consequence, rest, follows, read⟩, ?_, ?_⟩
    · intro bare bare'
      rw [List.flatMap_cons, List.flatMap_cons, Slot.readings_plain bare,
        Slot.readings_plain bare', List.singleton_append, List.singleton_append] at follows
      cases follows
      rw [read, Slot.head_flatMap_readings]
    · rintro rfl right
      rw [read, Expr.cond.injEq] at right
      have none : rest = [] := List.head?_eq_none_iff.mp right.2.2.2
      have count := congrArg List.length follows
      simp only [List.flatMap_cons, List.flatMap_nil, List.length_append, List.length_cons,
        List.length_nil, Slot.length_readings, none] at count
      exact ⟨List.length_eq_zero_iff.mp (by omega), List.length_eq_zero_iff.mp (by omega)⟩
  · intro callee rows type holds
    have read := expr_call type ordered holds
    refine ⟨read, ?_⟩
    rw [read]
    constructor
    · intro right
      split at right
      · rename_i args done
        cases right
        exact plain_of_callArgs done (List.length_map _)
      · cases right
    · rintro ⟨noStrays, bare⟩
      rw [callArgs_of_plain noStrays bare]

/-- The tree of a name or of a word that stands for itself. -/
def wordTree (type : String) (start : Nat) (text : String) : ParseTree :=
  { type := type, range := Range.ofNats 0 start 0 (start + text.length), text := some text }

def nullTree (start : Nat) : ParseTree :=
  wordTree "null" start "null"

/-- The tree of `assert true`. -/
def assertTree (start : Nat) : ParseTree :=
  { type := "assert", range := Range.ofNats 0 start 0 (start + 11)
    children := [wordTree "true" (start + 7) "true"] }

/-- The slot of `assert true; null` in front of the given trees. -/
def assertedNull (start : Nat) (after : List ParseTree) : Slot :=
  { asserts :=
      [{ node := ⟨assertTree start, nullTree (start + 13) :: after⟩
         condition := ⟨wordTree "true" (start + 7) "true", []⟩
         message := none
         isAssert := rfl
         parts := by rfl }]
    body := ⟨nullTree (start + 13), after⟩
    plain := by simp [Cursor.type, nullTree, wordTree] }

/-- The tree of `[assert true; null]`. -/
def assertedArray : Cursor :=
  .ofRoot { type := "array", range := Range.ofNats 0 0 0 19
            children := [assertTree 1, nullTree 14] }

/-- The tree of `if assert true; null then null`. -/
def assertedCond : Cursor :=
  .ofRoot { type := "conditional", range := Range.ofNats 0 0 0 30
            children := [assertTree 3, nullTree 16, nullTree 26] }

def assertedArgs : ParseTree :=
  { type := "args", range := Range.ofNats 0 2 0 19, children := [assertTree 2, nullTree 15] }

/-- The tree of `f(assert true; null)`. -/
def assertedCall : Cursor :=
  .ofRoot { type := "functioncall", range := Range.ofNats 0 0 0 20
            children := [wordTree "id" 0 "f", assertedArgs] }

/-- The slot of `null` in front of the given trees. -/
def plainNull (start : Nat) (after : List ParseTree) : Slot :=
  { asserts := [], body := ⟨nullTree start, after⟩
    plain := by simp [Cursor.type, nullTree, wordTree] }

theorem assertedArray_holds : assertedArray.Holds ([assertedNull 1 []].flatMap Slot.nodes) :=
  ⟨rfl, by simp [assertedArray, Cursor.ofRoot, assertTree, nullTree, wordTree]⟩

theorem assertedCond_holds :
    assertedCond.Holds ([assertedNull 3 [nullTree 26], plainNull 26 []].flatMap Slot.nodes) :=
  ⟨rfl, by simp [assertedCond, Cursor.ofRoot, assertTree, nullTree, wordTree]⟩

def assertedCallee : Slot :=
  { asserts := [], body := ⟨wordTree "id" 0 "f", [assertedArgs]⟩
    plain := by simp [Cursor.type, wordTree] }

def assertedRow : ArgRow :=
  { node := ⟨assertedArgs, []⟩
    slots := [.positional (assertedNull 2 [])
      (by simp [assertedNull, Cursor.type, nullTree, wordTree])]
    isRow := rfl
    holds := ⟨rfl, by simp [assertedArgs, assertTree, nullTree, wordTree]⟩ }

theorem assertedCall_holds :
    assertedCall.Holds (assertedCallee.nodes ++ [assertedRow].map ArgRow.node) :=
  ⟨rfl, by simp [assertedCall, Cursor.ofRoot, assertedArgs, wordTree]⟩

/-- An asserted element gives two values, an asserted condition gives an alternative, and an
    asserted argument gives two arguments. -/
theorem asserted_slots_misread :
    (assertedArray.tree.inOrder ∧
      assertedArray.Holds ([assertedNull 1 []].flatMap Slot.nodes) ∧
      expr assertedArray =
        .array (Range.ofNats 0 0 0 19) [(assertedNull 1 []).expr, (plainNull 14 []).expr]) ∧
    (assertedCond.tree.inOrder ∧
      assertedCond.Holds ([assertedNull 3 [nullTree 26], plainNull 26 []].flatMap Slot.nodes) ∧
      expr assertedCond = .cond (Range.ofNats 0 0 0 30) (assertedNull 3 [nullTree 26]).expr
        (plainNull 16 [nullTree 26]).expr (some (plainNull 26 []).expr)) ∧
    assertedCall.tree.inOrder ∧
      assertedCall.Holds (assertedCallee.nodes ++ [assertedRow].map ArgRow.node) ∧
      expr assertedCall = .call (Range.ofNats 0 0 0 20) assertedCallee.expr
        [⟨Range.ofNats 0 2 0 13, (assertedNull 2 []).expr, none⟩,
          ⟨Range.ofNats 0 15 0 19, (plainNull 15 []).expr, none⟩] := by
  have arrayInOrder : assertedArray.tree.inOrder := by decide +kernel
  have condInOrder : assertedCond.tree.inOrder := by decide +kernel
  have callInOrder : assertedCall.tree.inOrder := by decide +kernel
  refine ⟨⟨arrayInOrder, assertedArray_holds, ?_⟩, ⟨condInOrder, assertedCond_holds, ?_⟩,
    callInOrder, assertedCall_holds, ?_⟩
  · exact ((expr_of_slots arrayInOrder).1 _ rfl assertedArray_holds).1
  · obtain ⟨consequence, rest, follows, read⟩ :=
      ((expr_of_slots condInOrder).2.1 _ _ _ rfl assertedCond_holds).1
    cases follows
    exact read
  · exact ((expr_of_slots callInOrder).2.2 _ _ rfl assertedCall_holds).1

/-- The one element of `[assert true; null]` is read twice. -/
theorem asserted_element_doubled :
    assertedArray.Holds ([assertedNull 1 []].flatMap Slot.nodes) ∧
    expr assertedArray = .array (Range.ofNats 0 0 0 19)
      [.assertIn (Range.ofNats 0 1 0 18)
        ⟨Range.ofNats 0 1 0 12, .bool (Range.ofNats 0 8 0 12) true, none⟩
        (.null (Range.ofNats 0 14 0 18)),
      .null (Range.ofNats 0 14 0 18)] := by
  refine ⟨assertedArray_holds, ?_⟩
  cbv

end Build

end JsonnetNav
