import JsonnetNav.Proofs.NestedTrees
import Mathlib

/-! # What fits in a range

A node fits in a range if it lies in it and its own ranges nest. Where the ranges of a parse tree
nest, each part of a node that can be read on its own fits in the range of that part: its binds
and fields, its clauses, its arguments. This holds as far as it holds of what is read at lighter
cursors, and no two ranges that have to be merged are out of order.
-/

namespace JsonnetNav

namespace Node

/-- The node does not stop before it starts, its children lie inside of it, and the same holds of
    each of them. -/
inductive Nests : Node → Prop where
  | intro {n : Node} (proper : n.range.start ≤ n.range.stop)
      (inside : ∀ p ∈ n.parts, ∀ m ∈ p.nodes, n.range.contains m.range = true)
      (below : ∀ p ∈ n.parts, ∀ m ∈ p.nodes, Nests m) : Nests n

/-- The node lies in this range, and its ranges nest. -/
structure FitsIn (outer : Range) (n : Node) : Prop where
  inside : outer.contains n.range = true
  nests : n.Nests

theorem FitsIn.mono {outer inner : Range} {n : Node} (fits : n.FitsIn inner)
    (within : outer.contains inner = true) : n.FitsIn outer :=
  ⟨Range.contains_trans within fits.inside, fits.nests⟩

theorem Nests.proper {n : Node} (nests : n.Nests) : n.range.start ≤ n.range.stop := by
  obtain ⟨proper, -, -⟩ := nests
  exact proper

/-- The children in the part lie in this range, and their ranges nest. -/
def PartFitsIn (outer : Range) (p : Part) : Prop :=
  ∀ m ∈ p.nodes, m.FitsIn outer

section

variable {outer : Range}

@[simp]
theorem partFitsIn_leaf {label : String} {value : Leaf} : PartFitsIn outer (.leaf label value) := by
  simp [PartFitsIn, Part.nodes]

@[simp]
theorem partFitsIn_ofString {label text : String} : PartFitsIn outer (.ofString label text) :=
  partFitsIn_leaf

@[simp]
theorem partFitsIn_child {role : Role} {m : Node} :
    PartFitsIn outer (.child role m) ↔ m.FitsIn outer := by
  simp [PartFitsIn, Part.nodes]

@[simp]
theorem partFitsIn_map {α : Type} {role : Role} {f : α → Node} {xs : List α} :
    PartFitsIn outer (.children role (xs.map f)) ↔ ∀ x ∈ xs, (f x).FitsIn outer := by
  simp [PartFitsIn, Part.nodes]

@[simp]
theorem partFitsIn_ofOption {role : Role} {o : Option Node} :
    (∀ p ∈ Part.ofOption role o, PartFitsIn outer p) ↔ ∀ m ∈ o, m.FitsIn outer := by
  cases o <;> simp [Part.ofOption]

end

theorem nests_iff {n : Node} :
    n.Nests ↔ n.range.start ≤ n.range.stop ∧ ∀ p ∈ n.parts, PartFitsIn n.range p := by
  constructor
  · rintro ⟨proper, inside, below⟩
    exact ⟨proper, fun p listed m member => ⟨inside p listed m member, below p listed m member⟩⟩
  · rintro ⟨proper, fits⟩
    exact ⟨proper, fun p listed m member => (fits p listed m member).inside,
      fun p listed m member => (fits p listed m member).nests⟩

/-- A node that is measured as its own range fits in it, if its children do. -/
theorem fitsIn_of {r : Range} {n : Node} (same : n.range = r) (proper : r.start ≤ r.stop)
    (fits : ∀ p ∈ n.parts, PartFitsIn r p) : n.FitsIn r := by
  subst same
  exact ⟨n.range.contains_self, nests_iff.mpr ⟨proper, fits⟩⟩

end Node

theorem Site.fitsIn_of_child {s c : Site} (nests : s.node.Nests) (child : c ∈ s.children) :
    c.node.FitsIn s.range := by
  obtain ⟨edge, listed, rfl⟩ := mem_children.mp child
  obtain ⟨p, part, inPart⟩ := List.mem_flatMap.mp listed
  exact (Node.nests_iff.mp nests).2 p part _ (Node.mem_nodes_of_mem_edges inPart)

/-- Below a site with nested ranges every node lies inside of the one around it. -/
theorem Site.nested_of_nests {s t : Site} (nests : s.node.Nests) (below : t ∈ s.preorder) :
    t.range.start ≤ t.range.stop ∧ ∀ c ∈ t.children, t.range.contains c.range = true := by
  have sound : t.node.Nests := by
    refine preorder_induction (motive := fun t => t.node.Nests) nests ?_ t below
    intro s _ outer c child
    exact (fitsIn_of_child outer child).nests
  exact ⟨sound.proper, fun c child => (fitsIn_of_child sound child).inside⟩

namespace Build

open Cursor

/-- Building does not stop because of two ranges out of order, and what is built meets the
    condition. -/
def Meets {α : Type} (built : Result α) (P : α → Prop) : Prop :=
  match built with
  | .ok a => P a
  | .error error => error ≠ .rangesOutOfOrder

section Meets

variable {α β : Type} {P Q : α → Prop} {c : Cursor}

theorem Meets.imp {built : Result α} (meets : Meets built P) (weaker : ∀ a, P a → Q a) :
    Meets built Q := by
  cases built with
  | ok a => exact weaker a meets
  | error error => exact meets

theorem Meets.yields {built : Result α} (meets : Meets built P) : Yields built P := by
  rintro a rfl
  exact meets

theorem Meets.ne {built : Result α} (meets : Meets built P) :
    built ≠ .error .rangesOutOfOrder := by
  rintro rfl
  exact meets rfl

@[simp]
theorem meets_pure {a : α} : Meets (pure a) P ↔ P a :=
  Iff.rfl

@[simp]
theorem meets_throw {error : BuildError} :
    Meets (throw error) P ↔ error ≠ .rangesOutOfOrder :=
  Iff.rfl

@[simp]
theorem meets_bind {x : Result β} {f : β → Result α} :
    Meets (x >>= f) P ↔ Meets x fun b => Meets (f b) P := by
  cases x <;> exact Iff.rfl

theorem meets_mapM {f : β → Result α} {xs : List β} (each : ∀ x ∈ xs, Meets (f x) P) :
    Meets (xs.mapM f) fun ys => ∀ y ∈ ys, P y := by
  induction xs with
  | nil => simp
  | cons x xs ih =>
      rw [List.mapM_cons]
      simp only [meets_bind, meets_pure]
      refine (each x (.head _)).imp fun y here => ?_
      refine (ih fun z later => each z (.tail _ later)).imp fun ys rest => ?_
      exact List.forall_mem_cons.mpr ⟨here, rest⟩

@[simp]
theorem meets_demandType {types : List String} {P : Unit → Prop} :
    Meets (demandType c types) P ↔ (c.type ∈ types → P ()) := by
  unfold demandType
  split <;> simp_all

theorem meets_demandText {P : String → Prop} (all : ∀ text, P text) : Meets (demandText c) P := by
  unfold demandText
  split
  · exact all _
  · simp

theorem meets_operator {text : String} {P : Operator → Prop} (all : ∀ op, P op) :
    Meets (operator text) P := by
  unfold operator
  split
  · exact all _
  · simp

theorem meets_visibility {text : String} {P : Visibility → Prop} (all : ∀ v, P v) :
    Meets (visibility text) P := by
  unfold visibility
  split
  · exact all _
  · simp

theorem meets_string {P : Text → Prop} (all : ∀ value, P value) : Meets (string c) P := by
  unfold string
  simp only [meets_bind, meets_demandType]
  intro _
  split
  · simp only [meets_bind]
    refine meets_demandText fun opening => meets_demandText fun content => ?_
    split
    · exact all _
    · simp
  · simp

theorem meets_ident : Meets (ident c) fun id => id.range = c.range := by
  unfold ident
  simp only [meets_bind, meets_demandType]
  exact fun _ => meets_demandText fun text => rfl

theorem meets_merge {first second : Range} {P : Range → Prop}
    (ordered : first.start ≤ second.stop) (merged : P ⟨first.start, second.stop⟩) :
    Meets (merge first second) P := by
  rw [merge_eq_ok.mpr ⟨ordered, rfl⟩]
  exact merged

end Meets

/-- A member of an object lies in this range, and its ranges nest. -/
def MemberFitsIn (outer : Range) : ObjectMember → Prop
  | .bind b => (Node.bind b).FitsIn outer
  | .assertion a => (Node.assertion a).FitsIn outer
  | .field f => (Node.field f).FitsIn outer
  | .other => True

theorem MemberFitsIn.mono {outer inner : Range} {m : ObjectMember} (fits : MemberFitsIn inner m)
    (within : outer.contains inner = true) : MemberFitsIn outer m := by
  cases m with
  | bind b => exact Node.FitsIn.mono fits within
  | assertion a => exact Node.FitsIn.mono fits within
  | field f => exact Node.FitsIn.mono fits within
  | other => trivial

/-- What is picked from the members of an object fits where they do. -/
theorem picked_fit {outer : Range} {members : List ObjectMember}
    (fit : ∀ m ∈ members, MemberFitsIn outer m) {α : Type} (pick : ObjectMember → Option α)
    (node : α → Node)
    (picks : ∀ m x, MemberFitsIn outer m → pick m = some x → (node x).FitsIn outer) :
    ∀ x ∈ members.filterMap pick, (node x).FitsIn outer := by
  intro x found
  obtain ⟨m, listed, picked⟩ := List.mem_filterMap.mp found
  exact picks m x (fit m listed) picked

/-- Whatever is read at the cursor lies in its node; an expression lies where it can reach. -/
structure Fits (c : Cursor) (outer : Range) : Prop where
  expr : (Node.expr (expr c)).FitsIn (c.reach outer)
  bind : Meets (bind c) fun b => (Node.bind b).FitsIn c.range
  param : Meets (param c) fun p => (Node.param p).FitsIn c.range
  arg : c.type ≠ "assert" → Meets (arg c) fun a => (Node.arg a).FitsIn c.range
  forSpec : Meets (forSpec c) fun s => (Node.forSpec s).FitsIn c.range
  compSpec : Meets (compSpec c) fun s => s.node.FitsIn c.range
  assertion : Meets (assertion c) fun a => (Node.assertion a).FitsIn c.range
  key : Meets (key c) fun k => (Node.key k).FitsIn c.range
  field : Meets (field c) fun f => (Node.field f).FitsIn c.range
  objectLocal : Meets (objectLocal c) fun b => (Node.bind b).FitsIn c.range
  objectMember : Meets (objectMember c) (MemberFitsIn c.range)

namespace Fits

variable {c : Cursor} {outer : Range} (fits : Fits c outer)

include fits

theorem starts : c.range.start ≤ (Build.expr c).range.start := by
  have lower := (Range.contains_iff.mp fits.expr.inside).1
  rw [reach] at lower
  split at lower <;> exact lower

theorem stops : c.range.start ≤ (Build.expr c).range.stop :=
  Position.le_trans fits.starts fits.expr.nests.proper

variable {start : Position}

/-- An expression fits in the range from an earlier position up to its stop. -/
theorem last (begins : start ≤ c.range.start) :
    (Node.expr (Build.expr c)).FitsIn ⟨start, (Build.expr c).range.stop⟩ :=
  ⟨Range.contains_iff.mpr ⟨Position.le_trans begins fits.starts, Position.le_refl _⟩,
    fits.expr.nests⟩

/-- So does a node in front of it. -/
theorem before {n : Node} (inFront : n.FitsIn ⟨start, c.range.start⟩) :
    n.FitsIn ⟨start, (Build.expr c).range.stop⟩ :=
  inFront.mono (Range.contains_iff.mpr ⟨Position.le_refl _, fits.stops⟩)

end Fits

/-- What is read at cursors lighter than this lies where it should. -/
def FitBelow (weight : Nat) : Prop :=
  ∀ d : Cursor, d.weight < weight → ∀ outer, d.Placed outer → Fits d outer

section Parts

variable {c : Cursor} {outer : Range}

theorem mem_children_of {p : c.Below → Bool} {chosen : List c.Below}
    (same : c.children.filter p = chosen) : ∀ d ∈ chosen, d ∈ c.children := by
  subst same
  exact fun d => List.mem_of_mem_filter

variable (placed : c.Placed outer)

include placed

theorem starts_inside {d : c.Below} (child : d ∈ c.children) : c.range.start ≤ d.1.range.start :=
  (Range.contains_iff.mp (placed.child child).within).1

theorem ordered_of {p : c.Below → Bool} {chosen : List c.Below}
    (same : c.children.filter p = chosen) :
    chosen.Pairwise fun d e => d.1.range.stop ≤ e.1.range.start := by
  subst same
  exact placed.pairwise_children.filter p

/-- A node without children fits in the node around the one that it is read from. -/
theorem leaf_fits {d : c.Below} (child : d ∈ c.children) {n : Node} (same : n.range = d.1.range)
    (leaf : ∀ p ∈ n.parts, p.nodes = []) : n.FitsIn c.range := by
  have here : n.FitsIn d.1.range := by
    refine Node.fitsIn_of same (placed.child child).proper fun p listed m member => ?_
    simp [leaf p listed] at member
  exact here.mono (placed.child child).within

variable (below : FitBelow c.weight)

include below

theorem part_fits {d : c.Below} (child : d ∈ c.children) : Fits d.1 c.range :=
  below d.1 d.2 _ (placed.child child)

theorem expr_fits {d : c.Below} (child : d ∈ c.children) :
    (Node.expr (expr d.1)).FitsIn c.range :=
  (part_fits placed below child).expr.mono (placed.child child).reach_within

theorem member_fits {ds : List c.Below} (members : c.members = ds) :
    ∀ d ∈ ds, (Node.expr (expr d.1)).FitsIn c.range :=
  fun d member => expr_fits placed below (mem_children_of members d member)

/-- What is read at the members of a part, each lying in its node, lies in the part. -/
theorem members_fit {d : c.Below} (child : d ∈ c.children) {α : Type} {read : Cursor → Result α}
    (node : α → Node)
    (each : ∀ e ∈ d.1.members, Fits e.1 d.1.range →
      Meets (read e.1) fun a => (node a).FitsIn e.1.range) :
    Meets (d.1.members.mapM fun e => read e.1) fun as => ∀ a ∈ as, (node a).FitsIn d.1.range := by
  refine meets_mapM fun e member => ?_
  have inner := (placed.child child).child (List.mem_of_mem_filter member)
  have fits := below e.1 (Nat.lt_trans e.2 d.2) _ inner
  exact (each e member fits).imp fun a here => here.mono inner.within

/-- The same for the members of a row of parts. -/
theorem rows_fit {rows : List c.Below} (children : ∀ d ∈ rows, d ∈ c.children) {α : Type}
    {read : Cursor → Result α} (node : α → Node)
    (each : ∀ d ∈ rows, ∀ e ∈ d.1.members, Fits e.1 d.1.range →
      Meets (read e.1) fun a => (node a).FitsIn e.1.range) :
    Meets (rows.mapM fun d => d.1.members.mapM fun e => read e.1)
      fun found => ∀ a ∈ found.flatten, (node a).FitsIn c.range := by
  have row (d : c.Below) (member : d ∈ rows) : Meets (d.1.members.mapM fun e => read e.1)
      fun as => ∀ a ∈ as, (node a).FitsIn c.range := by
    have child := children d member
    refine (members_fit placed below child node (each d member)).imp fun as fit a here => ?_
    exact (fit a here).mono (placed.child child).within
  refine (meets_mapM row).imp fun found all a member => ?_
  obtain ⟨as, listed, here⟩ := List.mem_flatten.mp member
  exact all as listed a here

theorem param_fits : Meets (param c) fun p => (Node.param p).FitsIn c.range := by
  rw [param]
  simp only [meets_bind, meets_demandType]
  intro _
  split
  · rename_i id members
    have child := mem_children_of members
    refine meets_bind.mpr (meets_ident.imp fun name same => ?_)
    have var : (Node.var name).FitsIn c.range :=
      leaf_fits placed (child id (by simp)) same (by simp [Node.parts, Part.nodes])
    exact Node.fitsIn_of rfl placed.proper (by simpa [Node.parts])
  · rename_i id default lighter members
    have child := mem_children_of members
    refine meets_bind.mpr (meets_ident.imp fun name same => ?_)
    have var : (Node.var name).FitsIn c.range :=
      leaf_fits placed (child id (by simp)) same (by simp [Node.parts, Part.nodes])
    have value := expr_fits placed below (child ⟨default, lighter⟩ (by simp))
    exact Node.fitsIn_of rfl placed.proper
      (by simpa [Node.parts] using ⟨var, value⟩)
  · simp

theorem namedArg_fits : Meets (namedArg c) fun a => (Node.arg a).FitsIn c.range := by
  rw [namedArg]
  simp only [meets_bind, meets_demandType]
  intro _
  split
  · rename_i name value lighter members
    have child := mem_children_of members
    refine meets_bind.mpr (meets_ident.imp fun id same => ?_)
    have ref : (Node.paramRef id).FitsIn c.range :=
      leaf_fits placed (child name (by simp)) same
        (by simp [Node.parts, Part.nodes])
    have given := expr_fits placed below (child ⟨value, lighter⟩ (by simp))
    exact Node.fitsIn_of rfl placed.proper
      (by simpa [Node.parts] using ⟨given, ref⟩)
  · simp

theorem forSpec_fits : Meets (forSpec c) fun s => (Node.forSpec s).FitsIn c.range := by
  rw [forSpec]
  simp only [meets_bind, meets_demandType]
  intro _
  split
  · rename_i id source lighter members
    have child := mem_children_of members
    refine meets_bind.mpr (meets_ident.imp fun name same => ?_)
    have var : (Node.var name).FitsIn c.range :=
      leaf_fits placed (child id (by simp)) same (by simp [Node.parts, Part.nodes])
    have source := expr_fits placed below (child ⟨source, lighter⟩ (by simp))
    exact Node.fitsIn_of rfl placed.proper (by simpa [Node.parts] using ⟨var, source⟩)
  · simp

theorem ifSpec_fits : Meets (ifSpec c) fun s => (Node.ifSpec s).FitsIn c.range := by
  rw [ifSpec]
  simp only [meets_bind, meets_demandType]
  intro _
  split
  · rename_i condition lighter members
    have child := mem_children_of members
    have condition := expr_fits placed below (child ⟨condition, lighter⟩ (by simp))
    exact Node.fitsIn_of rfl placed.proper (by simpa [Node.parts])
  · simp

theorem compSpec_fits : Meets (compSpec c) fun s => s.node.FitsIn c.range := by
  rw [compSpec]
  split
  · exact meets_bind.mpr (forSpec_fits placed below)
  · exact meets_bind.mpr (ifSpec_fits placed below)

theorem assertion_fits : Meets (assertion c) fun a =>
    c.type = "assert" ∧ a.range = c.range ∧ (Node.assertion a).FitsIn c.range := by
  rw [assertion]
  simp only [meets_bind, meets_demandType, List.mem_singleton]
  intro type
  split
  · rename_i condition lighter members
    have child := mem_children_of members
    have condition := expr_fits placed below (child ⟨condition, lighter⟩ (by simp))
    exact ⟨type, rfl, Node.fitsIn_of rfl placed.proper (by simpa [Node.parts])⟩
  · rename_i condition lighter message lighter' members
    have child := mem_children_of members
    have condition := expr_fits placed below (child ⟨condition, lighter⟩ (by simp))
    have message := expr_fits placed below (child ⟨message, lighter'⟩ (by simp))
    exact ⟨type, rfl, Node.fitsIn_of rfl placed.proper
      (by simpa [Node.parts] using ⟨condition, message⟩)⟩
  · simp

theorem key_fits : Meets (key c) fun k => (Node.key k).FitsIn c.range := by
  rw [key]
  simp only [meets_bind, meets_demandType]
  intro _
  split
  · simp
  · rename_i head rest items
    have child := mem_children_of items
    have fixed (id : Ident) (same : id.range = head.1.range) :
        (Node.key (.fixed c.range id)).FitsIn c.range := by
      have name : (Node.fieldName id).FitsIn c.range :=
        leaf_fits placed (child head (by simp)) same
          (by simp [Node.parts, Part.nodes])
      exact Node.fitsIn_of rfl placed.proper (by simpa [Node.parts])
    simp only [meets_bind]
    refine meets_demandText fun text => ?_
    split
    · split
      · rename_i e lighter more
        have computed := expr_fits placed below (child ⟨e, lighter⟩ (by simp))
        exact Node.fitsIn_of rfl placed.proper (by simpa [Node.parts])
      · simp
    · split
      · exact meets_bind.mpr (meets_ident.imp fixed)
      · exact meets_bind.mpr (meets_string fun value => fixed ⟨head.1.range, value⟩ rfl)

theorem params_fit {d : c.Below} (child : d ∈ c.children) :
    Meets (d.1.members.mapM fun e => param e.1)
      fun params => ∀ p ∈ params, (Node.param p).FitsIn d.1.range :=
  members_fit placed below child Node.param fun _ _ fits => fits.param

theorem bind_fits : Meets (bind c) fun b => (Node.bind b).FitsIn c.range := by
  have named {id : c.Below} (child : id ∈ c.children) {value : Expr}
      (fits : (Node.expr value).FitsIn c.range) :
      Meets (do return (⟨c.range, ← ident id.1, value⟩ : LocalBind))
        fun b => (Node.bind b).FitsIn c.range := by
    refine meets_bind.mpr (meets_ident.imp fun name same => ?_)
    have var : (Node.var name).FitsIn c.range :=
      leaf_fits placed child same (by simp [Node.parts, Part.nodes])
    exact Node.fitsIn_of rfl placed.proper (by simpa [Node.parts] using ⟨var, fits⟩)
  rw [bind]
  simp only [meets_bind, meets_demandType]
  intro _
  split
  · rename_i name _ function
    have isName := mem_children_of function name (by simp)
    split
    · rename_i body lighter _ bodies
      rw [withRole, List.filter_filter] at bodies
      have isBody := mem_children_of bodies ⟨body, lighter⟩ (by simp)
      have value {params : List Param} (fit : ∀ p ∈ params, (Node.param p).FitsIn c.range) :
          (Node.expr (.fn c.range params (expr body))).FitsIn c.range := by
        have body := expr_fits placed below isBody
        refine Node.fitsIn_of rfl placed.proper ?_
        simpa [Node.parts, Expr.parts] using ⟨fit, body⟩
      split
      · rename_i row lighter' _ rows
        have isRow := mem_children_of rows ⟨row, lighter'⟩ (by simp)
        simp only [meets_bind]
        refine (params_fit placed below isRow).imp fun params fit => ?_
        have within := (placed.child isRow).within
        exact meets_bind.mp (named isName (value fun p member => (fit p member).mono within))
      · simp only [pure_bind]
        exact named isName (value (by simp))
    · simp
  · split
    · rename_i id value lighter _ members
      have child := mem_children_of members
      exact named (child id (by simp)) (expr_fits placed below (child ⟨value, lighter⟩ (by simp)))
    · simp

/-- A function from the start of a range to the stop of its body, with parameters in between. -/
theorem merged_fits {first : Range} {d : c.Below} (child : d ∈ c.children)
    (inside : c.range.start ≤ first.start) (begins : first.start ≤ d.1.range.start)
    {params : List Param}
    (before : ∀ p ∈ params, (Node.param p).FitsIn ⟨first.start, d.1.range.start⟩) :
    Meets (merge first (expr d.1).range) fun range =>
      (Node.expr (.fn range params (expr d.1))).FitsIn c.range := by
  have body := part_fits placed below child
  have stops := (Range.contains_iff.mp (expr_fits placed below child).inside).2
  have ordered : first.start ≤ (expr d.1).range.stop := Position.le_trans begins body.stops
  refine meets_merge ordered ⟨Range.contains_iff.mpr ⟨inside, stops⟩, ?_⟩
  refine Node.nests_iff.mpr ⟨ordered, ?_⟩
  have between : ∀ p ∈ params, (Node.param p).FitsIn ⟨first.start, (expr d.1).range.stop⟩ :=
    fun p member => body.before (before p member)
  simpa [Node.parts, Expr.parts, Node.range, Expr.range] using ⟨between, body.last begins⟩

/-- A field whose value fits, once its key and its mark are read. -/
theorem finished_fits {name : c.Below} (child : name ∈ c.children) {value : Expr}
    (fits : (Node.expr value).FitsIn c.range) (mark : String) (inherited : Bool) :
    Meets (do
        let key ← key name.1
        return (⟨c.range, key, value, ← visibility mark, inherited⟩ : Field))
      fun f => (Node.field f).FitsIn c.range := by
  simp only [meets_bind]
  refine (part_fits placed below child).key.imp fun key keyFits => ?_
  refine meets_visibility fun v => ?_
  have inside := keyFits.mono (placed.child child).within
  refine Node.fitsIn_of rfl placed.proper ?_
  simpa [Node.parts] using ⟨inside, fits⟩

theorem field_fits : Meets (field c) fun f => (Node.field f).FitsIn c.range := by
  rw [field]
  simp only [meets_bind, meets_demandType]
  intro _
  split
  · split
    · rename_i name lighter mark rest items
      have child := mem_children_of items
      have isName := child ⟨name, lighter⟩ (by simp)
      split
      · split
        · rename_i mark' value lighter' more
          have value := expr_fits placed below (child ⟨value, lighter'⟩ (by simp))
          refine meets_bind.mpr (meets_demandText fun text => ?_)
          exact finished_fits placed below isName value text true
        · simp
      · refine meets_bind.mpr (meets_demandText fun text => ?_)
        split
        · rename_i value lighter' more
          have value := expr_fits placed below (child ⟨value, lighter'⟩ (by simp))
          exact finished_fits placed below isName value text false
        · simp
    · simp
  · split
    · rename_i name lighter opening third lighter' rest items
      have child := mem_children_of items
      have isName := child ⟨name, lighter⟩ (by simp)
      have isThird := child ⟨third, lighter'⟩ (by simp)
      have isOpening := child opening (by simp)
      obtain ⟨-, fromOpening⟩ := List.pairwise_cons.mp (ordered_of placed items)
      obtain ⟨afterOpening, fromThird⟩ := List.pairwise_cons.mp fromOpening
      have afterThird := (List.pairwise_cons.mp fromThird).1
      have behind {d : c.Below} (later : d ∈ ⟨third, lighter'⟩ :: rest) :
          opening.1.range.start ≤ d.1.range.start :=
        Position.le_trans (placed.child isOpening).proper (afterOpening d later)
      have finish {d : c.Below} (later : d ∈ rest) {params : List Param}
          (before : ∀ p ∈ params, (Node.param p).FitsIn ⟨opening.1.range.start, d.1.range.start⟩)
          (mark : String) :
          Meets (do
              let range ← merge opening.1.range (expr d.1).range
              let key ← key name
              return (⟨c.range, key, .fn range params (expr d.1), ← visibility mark, false⟩ :
                Field))
            fun f => (Node.field f).FitsIn c.range := by
        have isBody := child d (by simp [later])
        have merged := merged_fits placed below isBody (starts_inside placed isOpening)
          (behind (.tail _ later)) before
        refine meets_bind.mpr (merged.imp fun range fits => ?_)
        exact finished_fits placed below isName fits mark false
      split
      · split
        · rename_i closing mark body lighter'' more
          have later : ⟨body, lighter''⟩ ∈ closing :: mark :: ⟨body, lighter''⟩ :: more := by simp
          refine meets_bind.mpr ((params_fit placed below isThird).imp fun params fit => ?_)
          refine meets_bind.mpr (meets_demandText fun text => ?_)
          refine finish later (fun p member => (fit p member).mono ?_) text
          exact Range.contains_iff.mpr ⟨behind (.head _), afterThird _ later⟩
        · simp
      · split
        · rename_i mark body lighter'' more
          refine meets_bind.mpr (meets_demandText fun text => ?_)
          exact finish (.tail _ (.head _)) (by simp) text
        · simp
    · simp

theorem objectLocal_fits : Meets (objectLocal c) fun b => (Node.bind b).FitsIn c.range := by
  rw [objectLocal]
  split
  · rename_i keyword d lighter _ members
    have child := mem_children_of members ⟨d, lighter⟩ (by simp)
    exact (part_fits placed below child).bind.imp fun b fits =>
      fits.mono (placed.child child).within
  · simp

theorem objectMember_fits : Meets (objectMember c) (MemberFitsIn c.range) := by
  rw [objectMember]
  simp only [meets_bind, meets_demandType]
  intro _
  split
  · simp
  · rename_i head lighter _ members
    have child := mem_children_of members ⟨head, lighter⟩ (by simp)
    have fits := part_fits placed below child
    have within : c.range.contains head.range = true := (placed.child child).within
    split
    · exact meets_bind.mpr (fits.objectLocal.imp fun b here => here.mono within)
    · exact meets_bind.mpr (fits.assertion.imp fun a here => here.mono within)
    · exact meets_bind.mpr (fits.field.imp fun f here => here.mono within)
    · exact trivial

/-- A part of a member of an object, read as what it is. -/
theorem partOfType_fits {type : String} {part : c.Below} (member : part ∈ partsOfType c type) :
    c.range.contains part.1.range = true ∧ ∃ inner, Fits part.1 inner := by
  obtain ⟨d, isMember, chosen⟩ := List.mem_filterMap.mp member
  have child : d ∈ c.children := List.mem_of_mem_filter isMember
  obtain ⟨d, lighter⟩ := d
  simp only at chosen
  split at chosen
  · split at chosen
    · rename_i e lighter' parts
      split at chosen
      · cases chosen
        have inner := (placed.child child).child (mem_children_of parts ⟨e, lighter'⟩ (by simp))
        exact ⟨Range.contains_trans (placed.child child).within inner.within, _,
          below e (Nat.lt_trans lighter' lighter) _ inner⟩
      · cases chosen
    · cases chosen
  · cases chosen

/-- What is read at the parts of a type fits in the object. -/
theorem partsOfType_fit {type : String} {α : Type} {read : Cursor → Result α} (node : α → Node)
    (each : ∀ (d : Cursor) (inner : Range), Fits d inner →
      Meets (read d) fun a => (node a).FitsIn d.range) :
    Meets ((partsOfType c type).mapM fun d => read d.1)
      fun as => ∀ a ∈ as, (node a).FitsIn c.range := by
  refine meets_mapM fun part member => ?_
  obtain ⟨within, inner, fits⟩ := partOfType_fits placed below member
  exact (each part.1 inner fits).imp fun a here => here.mono within

theorem objComp_fits : Meets (objComp c) fun e => (Node.expr e).FitsIn c.range := by
  rw [objComp]
  simp only [meets_bind, meets_demandType]
  intro _
  refine (partsOfType_fit placed below Node.field fun d inner fits => fits.field).imp
    fun fields fieldsFit => ?_
  split
  · rename_i range keyRange keyExpr value visibility inherited
    have ofType {type : String} {d : c.Below} (member : d ∈ c.members.filter (·.1.type = type)) :
        d ∈ c.children :=
      List.mem_of_mem_filter (List.mem_of_mem_filter member)
    have clause (d : c.Below) (member : d ∈ c.members.filter (·.1.type = "forspec")) :
        Meets (forSpec d.1) fun s => (Node.forSpec s).FitsIn c.range :=
      (part_fits placed below (ofType member)).forSpec.imp fun s fits =>
        fits.mono (placed.child (ofType member)).within
    refine meets_bind.mpr ((meets_mapM clause).imp fun clauses clausesFit => ?_)
    split
    · split
      · simp
      · simp only [meets_bind]
        refine (partsOfType_fit placed below Node.bind fun d inner fits => fits.objectLocal).imp
          fun binds bindsFit => ?_
        refine (partsOfType_fit placed below Node.assertion fun d inner fits => fits.assertion).imp
          fun assertions assertionsFit => ?_
        refine (rows_fit placed below (fun d => ofType) CompSpec.node
          fun d member e _ fits => fits.compSpec).imp fun rows rowsFit => ?_
        generalize rows.flatten = clauses at rowsFit ⊢
        refine Node.fitsIn_of rfl placed.proper ?_
        simpa [Node.parts, Expr.parts] using
          ⟨fieldsFit _ (.head _), bindsFit, assertionsFit, clausesFit _ (.head _), rowsFit⟩
    · simp
  · simp

end Parts

end Build

end JsonnetNav
