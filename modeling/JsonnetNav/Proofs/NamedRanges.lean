import JsonnetNav.Proofs.FittingParts
import Mathlib

/-! # Where names are written

A bind, a parameter or a clause is read from a node of the parse tree, and its name from a child
of that node. So is a field, and its key. This holds of all that is read from a tree, whatever
becomes of the nodes around it. The field of an object comprehension never has a fixed key.
-/

namespace JsonnetNav

namespace ParseTree

theorem mem_nodes_of_mem_children {t u c : ParseTree} (inside : u ∈ t.nodes)
    (child : c ∈ u.children) : c ∈ t.nodes := by
  rcases mem_nodes.mp inside with rfl | ⟨v, isChild, below⟩
  · exact mem_nodes_of_child child c.mem_nodes_self
  · have smaller : sizeOf v < sizeOf t := by
      have := List.sizeOf_lt_of_mem isChild
      cases t
      simp at *
      omega
    exact mem_nodes_of_child isChild (mem_nodes_of_mem_children below child)
termination_by sizeOf t

/-- A node of the tree and a child of it have these ranges. -/
def Spans (t : ParseTree) (outer inner : Range) : Prop :=
  ∃ u ∈ t.nodes, u.range = outer ∧ ∃ c ∈ u.children, c.range = inner

theorem Nests.contains {t : ParseTree} (nests : t.Nests) {outer inner : Range}
    (spans : t.Spans outer inner) : outer.contains inner = true := by
  obtain ⟨u, inside, rfl, c, child, rfl⟩ := spans
  exact nests.inside u inside c child

end ParseTree

namespace Cursor

/-- The node at the cursor and those after it are nodes of this tree. -/
def In (c : Cursor) (t : ParseTree) : Prop :=
  ∀ u ∈ c.tree :: c.after, u ∈ t.nodes

theorem in_root (t : ParseTree) : (ofRoot t).In t := by
  intro u member
  cases List.mem_singleton.mp member
  exact t.mem_nodes_self

variable {c : Cursor} {t : ParseTree} (inside : c.In t)

include inside

theorem In.child {d : c.Below} (child : d ∈ c.children) : d.1.In t := by
  intro u member
  have isChild := (suffix_of_mem_row (mem_row_of_mem_children child)).subset member
  exact ParseTree.mem_nodes_of_mem_children (inside c.tree (.head _)) isChild

theorem In.sibling {d : c.Below} (member : d ∈ c.siblings) : d.1.In t := by
  have suffix := suffix_of_mem_row ((List.mem_attachWith _ _).mp member)
  exact fun u later => inside u (.tail _ (suffix.subset later))

theorem In.spans {d : c.Below} (child : d ∈ c.children) : t.Spans c.range d.1.range :=
  ⟨c.tree, inside c.tree (.head _), rfl, d.1.tree,
    tree_mem_of_mem_row (mem_row_of_mem_children child), rfl⟩

end Cursor

namespace Node

/-- The condition holds of the node and of all nodes below it. -/
inductive Everywhere (P : Node → Prop) : Node → Prop where
  | intro {n : Node} (here : P n) (below : ∀ p ∈ n.parts, ∀ m ∈ p.nodes, Everywhere P m) :
      Everywhere P n

theorem Everywhere.here {P : Node → Prop} {n : Node} (all : n.Everywhere P) : P n := by
  obtain ⟨here, -⟩ := all
  exact here

/-- Names are written inside of what they name, and an object comprehension has a computed key. -/
def Named (t : ParseTree) : Node → Prop
  | .bind b => t.Spans b.range b.id.range
  | .param p => t.Spans p.range p.id.range
  | .forSpec f => t.Spans f.range f.id.range
  | .field f => t.Spans f.range f.key.range
  | .expr (.objComp _ f _ _ _ _) => f.key.id? = none
  | _ => True

/-- The node and all below it are named as in the tree. -/
def Sound (t : ParseTree) (n : Node) : Prop :=
  n.Everywhere (Named t)

/-- So are the nodes of a part. -/
def PartSound (t : ParseTree) (p : Part) : Prop :=
  ∀ m ∈ p.nodes, m.Sound t

section

variable {t : ParseTree}

@[simp]
theorem partSound_leaf {label : String} {value : Leaf} : PartSound t (.leaf label value) := by
  simp [PartSound, Part.nodes]

@[simp]
theorem partSound_ofString {label text : String} : PartSound t (.ofString label text) :=
  partSound_leaf

@[simp]
theorem partSound_child {role : Role} {m : Node} : PartSound t (.child role m) ↔ m.Sound t := by
  simp [PartSound, Part.nodes]

@[simp]
theorem partSound_map {α : Type} {role : Role} {f : α → Node} {xs : List α} :
    PartSound t (.children role (xs.map f)) ↔ ∀ x ∈ xs, (f x).Sound t := by
  simp [PartSound, Part.nodes]

@[simp]
theorem partSound_ofOption {role : Role} {o : Option Node} :
    (∀ p ∈ Part.ofOption role o, PartSound t p) ↔ ∀ m ∈ o, m.Sound t := by
  cases o <;> simp [Part.ofOption]

theorem Sound.of {n : Node} (here : Named t n) (parts : ∀ p ∈ n.parts, PartSound t p) : n.Sound t :=
  .intro here parts

/-- A name has no parts. -/
@[simp]
theorem sound_var {id : Ident} : (Node.var id).Sound t :=
  .of trivial (by simp [parts])

@[simp]
theorem sound_fieldName {id : Ident} : (Node.fieldName id).Sound t :=
  .of trivial (by simp [parts])

@[simp]
theorem sound_fieldRef {id : Ident} : (Node.fieldRef id).Sound t :=
  .of trivial (by simp [parts])

@[simp]
theorem sound_paramRef {id : Ident} : (Node.paramRef id).Sound t :=
  .of trivial (by simp [parts])

@[simp]
theorem sound_importee {importee : Importee} : (Node.importee importee).Sound t :=
  .of trivial (by simp [parts])

end

end Node

theorem Site.named_of_sound {t : ParseTree} {root s : Site} (sound : root.node.Sound t)
    (inside : s ∈ root.preorder) : s.node.Named t := by
  apply Node.Everywhere.here
  refine preorder_induction (motive := fun s => s.node.Sound t) sound ?_ s inside
  intro p _ outer c child
  obtain ⟨edge, listed, rfl⟩ := mem_children.mp child
  obtain ⟨part, isPart, inPart⟩ := List.mem_flatMap.mp listed
  obtain ⟨-, below⟩ := outer
  exact below part isPart _ (Node.mem_nodes_of_mem_edges inPart)

namespace Build

open Cursor

theorem yields_mapM {α β : Type} {P : α → Prop} {f : β → Result α} {xs : List β}
    (each : ∀ x ∈ xs, Yields (f x) P) : Yields (xs.mapM f) fun ys => ∀ y ∈ ys, P y := by
  induction xs with
  | nil => simp
  | cons x xs ih =>
      rw [List.mapM_cons]
      simp only [yields_bind, yields_pure]
      intro y here ys rest
      refine List.forall_mem_cons.mpr ⟨each x (.head _) y here, ?_⟩
      exact ih (fun z later => each z (.tail _ later)) ys rest

/-- What is built around a part meets a condition if the part meets one. -/
theorem Yields.around {α β : Type} {P : α → Prop} {x : Result β} {f : β → α}
    (part : Yields x fun b => P (f b)) : Yields (x >>= fun b => pure (f b)) P := by
  simp only [yields_bind, yields_pure]
  exact part

/-- A member of an object is named as in the tree. -/
def MemberSound (t : ParseTree) : ObjectMember → Prop
  | .bind b => (Node.bind b).Sound t
  | .assertion a => (Node.assertion a).Sound t
  | .field f => (Node.field f).Sound t
  | .other => True

/-- Whatever is read at the cursor is named as in the tree. -/
structure Reads (t : ParseTree) (c : Cursor) : Prop where
  expr : (Node.expr (expr c)).Sound t
  bind : Yields (bind c) fun b => (Node.bind b).Sound t
  param : Yields (param c) fun p => (Node.param p).Sound t
  arg : Yields (arg c) fun a => (Node.arg a).Sound t
  forSpec : Yields (forSpec c) fun s => (Node.forSpec s).Sound t
  compSpec : Yields (compSpec c) fun s => s.node.Sound t
  assertion : Yields (assertion c) fun a => (Node.assertion a).Sound t
  key : Yields (key c) fun k => (Node.key k).Sound t ∧ k.range = c.range
  field : Yields (field c) fun f => (Node.field f).Sound t
  objectLocal : Yields (objectLocal c) fun b => (Node.bind b).Sound t
  objectMember : Yields (objectMember c) (MemberSound t)

/-- So is what is read at cursors in the tree that are lighter than this. -/
def ReadsBelow (t : ParseTree) (weight : Nat) : Prop :=
  ∀ d : Cursor, d.weight < weight → d.In t → Reads t d

section Parts

variable {c : Cursor} {t : ParseTree} (inside : c.In t) (below : ReadsBelow t c.weight)

include inside below

theorem part_reads {d : c.Below} (child : d ∈ c.children) : Reads t d.1 :=
  below d.1 d.2 (inside.child child)

theorem expr_sound {d : c.Below} (child : d ∈ c.children) : (Node.expr (expr d.1)).Sound t :=
  (part_reads inside below child).expr

theorem member_sound {ds : List c.Below} (members : c.members = ds) :
    ∀ d ∈ ds, (Node.expr (expr d.1)).Sound t :=
  fun d member => expr_sound inside below (mem_children_of members d member)

/-- What is read at the members of a part. -/
theorem members_sound {d : c.Below} (child : d ∈ c.children) {α : Type} {read : Cursor → Result α}
    (node : α → Node) (each : ∀ e : Cursor, Reads t e → Yields (read e) fun a => (node a).Sound t) :
    Yields (d.1.members.mapM fun e => read e.1) fun as => ∀ a ∈ as, (node a).Sound t := by
  refine yields_mapM fun e member => each e.1 ?_
  have isChild : e ∈ d.1.children := List.mem_of_mem_filter member
  exact below e.1 (Nat.lt_trans e.2 d.2) ((inside.child child).child isChild)

/-- What is read at the members of a row of parts. -/
theorem rows_sound {rows : List c.Below} (children : ∀ d ∈ rows, d ∈ c.children) {α : Type}
    {read : Cursor → Result α} (node : α → Node)
    (each : ∀ e : Cursor, Reads t e → Yields (read e) fun a => (node a).Sound t) :
    Yields (rows.mapM fun d => d.1.members.mapM fun e => read e.1)
      fun found => ∀ a ∈ found.flatten, (node a).Sound t := by
  intro found done a member
  obtain ⟨as, listed, here⟩ := List.mem_flatten.mp member
  have row (d : c.Below) (isRow : d ∈ rows) :=
    members_sound inside below (children d isRow) node each
  exact yields_mapM row found done as listed a here

theorem param_sound : Yields (param c) fun p => (Node.param p).Sound t := by
  rw [param]
  simp only [yields_bind]
  intro _ _
  split
  · rename_i id members
    simp only [yields_bind, yields_pure]
    intro name read
    have spans := inside.spans (mem_children_of members id (by simp))
    rw [← ident_range id.1 name read] at spans
    exact .of spans (by simp [Node.parts])
  · rename_i id default lighter members
    simp only [yields_bind, yields_pure]
    intro name read
    have spans := inside.spans (mem_children_of members id (by simp))
    rw [← ident_range id.1 name read] at spans
    have default := member_sound inside below members ⟨default, lighter⟩ (by simp)
    exact .of spans (by simpa [Node.parts])
  · simp

theorem namedArg_sound : Yields (namedArg c) fun a => (Node.arg a).Sound t := by
  rw [namedArg]
  simp only [yields_bind]
  intro _ _
  split
  · rename_i name value lighter members
    simp only [yields_bind, yields_pure]
    intro id _
    have value := member_sound inside below members ⟨value, lighter⟩ (by simp)
    exact .of trivial (by simpa [Node.parts])
  · simp

theorem forSpec_sound : Yields (forSpec c) fun s => (Node.forSpec s).Sound t := by
  rw [forSpec]
  simp only [yields_bind]
  intro _ _
  split
  · rename_i id source lighter members
    simp only [yields_bind, yields_pure]
    intro name read
    have spans := inside.spans (mem_children_of members id (by simp))
    rw [← ident_range id.1 name read] at spans
    have source := member_sound inside below members ⟨source, lighter⟩ (by simp)
    exact .of spans (by simpa [Node.parts])
  · simp

theorem ifSpec_sound : Yields (ifSpec c) fun s => (Node.ifSpec s).Sound t := by
  rw [ifSpec]
  simp only [yields_bind]
  intro _ _
  split
  · rename_i condition lighter members
    have condition := member_sound inside below members ⟨condition, lighter⟩ (by simp)
    exact yields_pure.mpr (.of trivial (by simpa [Node.parts]))
  · simp

theorem compSpec_sound : Yields (compSpec c) fun s => s.node.Sound t := by
  rw [compSpec]
  split
  · exact .around (forSpec_sound inside below)
  · exact .around (ifSpec_sound inside below)

theorem assertion_sound : Yields (assertion c) fun a => (Node.assertion a).Sound t := by
  rw [assertion]
  simp only [yields_bind]
  intro _ _
  split
  · rename_i condition lighter members
    have condition := member_sound inside below members ⟨condition, lighter⟩ (by simp)
    exact yields_pure.mpr (.of trivial (by simpa [Node.parts]))
  · rename_i condition lighter message lighter' members
    have sound := member_sound inside below members
    have condition := sound ⟨condition, lighter⟩ (by simp)
    have message := sound ⟨message, lighter'⟩ (by simp)
    exact yields_pure.mpr (.of trivial (by simpa [Node.parts] using ⟨condition, message⟩))
  · simp

theorem key_sound : Yields (key c) fun k => (Node.key k).Sound t ∧ k.range = c.range := by
  have fixed (id : Ident) : (Node.key (.fixed c.range id)).Sound t :=
    .of trivial (by simp [Node.parts])
  rw [key]
  simp only [yields_bind]
  intro _ _
  split
  · simp
  · rename_i head rest items
    simp only [yields_bind]
    intro text _
    split
    · split
      · rename_i e lighter more
        have computed := expr_sound inside below (mem_children_of items ⟨e, lighter⟩ (by simp))
        exact yields_pure.mpr ⟨.of trivial (by simpa [Node.parts]), rfl⟩
      · simp
    · split
      · simp only [yields_bind, yields_pure]
        exact fun id _ => ⟨fixed id, rfl⟩
      · simp only [yields_bind, yields_pure]
        exact fun value _ => ⟨fixed _, rfl⟩

theorem bind_sound : Yields (bind c) fun b => (Node.bind b).Sound t := by
  have named {id : c.Below} (child : id ∈ c.children) {value : Expr}
      (sound : (Node.expr value).Sound t) :
      Yields (do return (⟨c.range, ← ident id.1, value⟩ : LocalBind))
        fun b => (Node.bind b).Sound t := by
    simp only [yields_bind, yields_pure]
    intro name read
    have spans := inside.spans child
    rw [← ident_range id.1 name read] at spans
    exact .of spans (by simpa [Node.parts])
  rw [bind]
  simp only [yields_bind]
  intro _ _
  split
  · rename_i name _ function
    have isName := mem_children_of function name (by simp)
    split
    · rename_i body lighter _ bodies
      rw [withRole, List.filter_filter] at bodies
      have body := expr_sound inside below (mem_children_of bodies ⟨body, lighter⟩ (by simp))
      have value {params : List Param} (sound : ∀ p ∈ params, (Node.param p).Sound t) :=
        Node.Sound.of (t := t) (n := .expr (.fn c.range params _)) trivial
          (by simpa [Node.parts, Expr.parts] using ⟨sound, body⟩)
      split
      · rename_i row lighter' _ rows
        simp only [yields_bind]
        intro params read
        have isRow := mem_children_of rows ⟨row, lighter'⟩ (by simp)
        have sound :=
          members_sound inside below isRow Node.param (fun e reads => reads.param) params read
        exact yields_bind.mp (named isName (value sound))
      · simp only [pure_bind]
        exact named isName (value (by simp))
    · simp
  · split
    · rename_i id value lighter _ members
      have child := mem_children_of members
      exact named (child id (by simp)) (expr_sound inside below (child ⟨value, lighter⟩ (by simp)))
    · simp

/-- A field with a sound value, once its key and its mark are read. -/
theorem finished_sound {name : c.Below} (child : name ∈ c.children) {value : Expr}
    (sound : (Node.expr value).Sound t) (mark : String) (inherited : Bool) :
    Yields (do
        let key ← key name.1
        return (⟨c.range, key, value, ← visibility mark, inherited⟩ : Field))
      fun f => (Node.field f).Sound t := by
  simp only [yields_bind, yields_pure]
  intro key read v _
  obtain ⟨keySound, same⟩ := (part_reads inside below child).key key read
  have spans := inside.spans child
  rw [← same] at spans
  exact .of spans (by simpa [Node.parts] using ⟨keySound, sound⟩)

theorem field_sound : Yields (field c) fun f => (Node.field f).Sound t := by
  rw [field]
  simp only [yields_bind]
  intro _ _
  split
  · split
    · rename_i name lighter mark rest items
      have child := mem_children_of items
      have isName := child ⟨name, lighter⟩ (by simp)
      split
      · split
        · rename_i mark' value lighter' more
          have value := expr_sound inside below (child ⟨value, lighter'⟩ (by simp))
          exact yields_bind.mpr fun text _ => finished_sound inside below isName value text true
        · simp
      · refine yields_bind.mpr fun text _ => ?_
        split
        · rename_i value lighter' more
          have value := expr_sound inside below (child ⟨value, lighter'⟩ (by simp))
          exact finished_sound inside below isName value text false
        · simp
    · simp
  · split
    · rename_i name lighter opening third lighter' rest items
      have child := mem_children_of items
      have isName := child ⟨name, lighter⟩ (by simp)
      have isThird := child ⟨third, lighter'⟩ (by simp)
      have finish {d : c.Below} (isBody : d ∈ c.children) {params : List Param}
          (sound : ∀ p ∈ params, (Node.param p).Sound t) (mark : String) :
          Yields (do
              let range ← merge opening.1.range (expr d.1).range
              let key ← key name
              return (⟨c.range, key, .fn range params (expr d.1), ← visibility mark, false⟩ :
                Field))
            fun f => (Node.field f).Sound t := by
        refine yields_bind.mpr fun range _ => ?_
        have body := expr_sound inside below isBody
        have value : (Node.expr (.fn range params (expr d.1))).Sound t :=
          .of trivial (by simpa [Node.parts, Expr.parts] using ⟨sound, body⟩)
        exact finished_sound inside below isName value mark false
      split
      · split
        · rename_i closing mark body lighter'' more
          refine yields_bind.mpr fun params read => yields_bind.mpr fun text _ => ?_
          have sound := members_sound inside below isThird Node.param (fun e reads => reads.param)
          exact finish (child ⟨body, lighter''⟩ (by simp)) (sound params read) text
        · simp
      · split
        · rename_i mark body lighter'' more
          refine yields_bind.mpr fun text _ => ?_
          exact finish (child ⟨body, lighter''⟩ (by simp)) (by simp) text
        · simp
    · simp

theorem objectLocal_sound : Yields (objectLocal c) fun b => (Node.bind b).Sound t := by
  rw [objectLocal]
  split
  · rename_i keyword d lighter _ members
    exact (part_reads inside below (mem_children_of members ⟨d, lighter⟩ (by simp))).bind
  · simp

theorem objectMember_sound : Yields (objectMember c) (MemberSound t) := by
  rw [objectMember]
  simp only [yields_bind]
  intro _ _
  split
  · simp
  · rename_i head lighter _ members
    have reads := part_reads inside below (mem_children_of members ⟨head, lighter⟩ (by simp))
    split
    · exact .around reads.objectLocal
    · exact .around reads.assertion
    · exact .around reads.field
    · exact yields_pure.mpr trivial

/-- What is read at the parts of a type. -/
theorem partsOfType_sound {type : String} {α : Type} {read : Cursor → Result α} (node : α → Node)
    (each : ∀ e : Cursor, Reads t e → Yields (read e) fun a => (node a).Sound t) :
    Yields ((partsOfType c type).mapM fun d => read d.1) fun as => ∀ a ∈ as, (node a).Sound t := by
  refine yields_mapM fun part member => each part.1 ?_
  obtain ⟨⟨d, lighter⟩, isMember, chosen⟩ := List.mem_filterMap.mp member
  have child : ⟨d, lighter⟩ ∈ c.children := List.mem_of_mem_filter isMember
  simp only at chosen
  split at chosen
  · split at chosen
    · rename_i e lighter' parts
      split at chosen
      · cases chosen
        have isChild := mem_children_of parts ⟨e, lighter'⟩ (by simp)
        exact below e (Nat.lt_trans lighter' lighter) ((inside.child child).child isChild)
      · cases chosen
    · cases chosen
  · cases chosen

theorem objComp_sound : Yields (objComp c) fun e => (Node.expr e).Sound t := by
  rw [objComp]
  simp only [yields_bind]
  intro _ _ fields readFields
  have fieldsSound := partsOfType_sound inside below Node.field (fun e reads => reads.field)
    fields readFields
  split
  · have ofType {type : String} {d : c.Below} (member : d ∈ c.members.filter (·.1.type = type)) :
        d ∈ c.children :=
      List.mem_of_mem_filter (List.mem_of_mem_filter member)
    have clause (d : c.Below) (member : d ∈ c.members.filter (·.1.type = "forspec")) :=
      (part_reads inside below (ofType member)).forSpec
    simp only [yields_bind]
    intro clauses readClauses
    have clausesSound := yields_mapM clause clauses readClauses
    split
    · split
      · simp
      · simp only [yields_bind, yields_pure]
        intro binds readBinds assertions readAssertions rows readRows
        have bindsSound := partsOfType_sound inside below Node.bind
          (fun e reads => reads.objectLocal) binds readBinds
        have assertionsSound := partsOfType_sound inside below Node.assertion
          (fun e reads => reads.assertion) assertions readAssertions
        have rowsSound : ∀ s ∈ rows.flatten, s.node.Sound t :=
          rows_sound inside below (fun d => ofType) CompSpec.node (fun e reads => reads.compSpec)
            rows readRows
        generalize rows.flatten = clauses at rowsSound ⊢
        refine .of rfl ?_
        simpa [Node.parts, Expr.parts] using
          ⟨fieldsSound _ (.head _), bindsSound, assertionsSound, clausesSound _ (.head _),
            rowsSound⟩
    · simp
  · simp

theorem object_sound : Yields (asKind .object c) fun n => n.Sound t := by
  rw [asKind]
  simp only [yields_bind]
  intro _ _
  split
  · exact .around (objComp_sound inside below)
  · simp only [yields_bind, yields_pure]
    intro members read
    have each (d : c.Below) (member : d ∈ c.members) :=
      (part_reads inside below (List.mem_of_mem_filter member)).objectMember
    have sound := yields_mapM each members read
    have picked {α : Type} {pick : ObjectMember → Option α} {node : α → Node}
        (picks : ∀ m x, MemberSound t m → pick m = some x → (node x).Sound t) :
        ∀ x ∈ members.filterMap pick, (node x).Sound t := by
      intro x found
      obtain ⟨m, listed, same⟩ := List.mem_filterMap.mp found
      exact picks m x (sound m listed) same
    have binds := @picked _ ObjectMember.bind? Node.bind fun m b here same => by
      cases m <;> cases same
      exact here
    have assertions := @picked _ ObjectMember.assertion? Node.assertion fun m a here same => by
      cases m <;> cases same
      exact here
    have fields := @picked _ ObjectMember.field? Node.field fun m f here same => by
      cases m <;> cases same
      exact here
    generalize members.filterMap ObjectMember.bind? = bs at binds ⊢
    generalize members.filterMap ObjectMember.assertion? = as at assertions ⊢
    generalize members.filterMap ObjectMember.field? = fs at fields ⊢
    exact .of trivial (by simpa [Node.parts, Expr.parts] using ⟨binds, assertions, fields⟩)

theorem fn_sound : Yields (asKind .fn c) fun n => n.Sound t := by
  rw [asKind]
  simp only [yields_bind]
  intro _ _
  split
  · simp
  · rename_i first lighter rest members
    have child := mem_children_of members
    have isFirst := child ⟨first, lighter⟩ (by simp)
    have finish {d : c.Below} (isBody : d ∈ c.children) {params : List Param}
        (sound : ∀ p ∈ params, (Node.param p).Sound t) :
        Yields (do return Node.expr (.fn (← merge c.range (expr d.1).range) params (expr d.1)))
          fun n => n.Sound t := by
      simp only [yields_bind, yields_pure]
      intro range _
      have body := expr_sound inside below isBody
      exact .of trivial (by simpa [Node.parts, Expr.parts] using ⟨sound, body⟩)
    split
    · rename_i body lighter' more
      split
      · refine yields_bind.mpr fun params read => ?_
        have sound := members_sound inside below isFirst Node.param (fun e reads => reads.param)
        exact finish (child ⟨body, lighter'⟩ (by simp)) (sound params read)
      · exact finish isFirst (by simp)
    · exact finish isFirst (by simp)

theorem call_sound : Yields (asKind .call c) fun n => n.Sound t := by
  rw [asKind]
  simp only [yields_bind]
  intro _ _
  split
  · simp
  · rename_i callee lighter rest members
    simp only [yields_bind, yields_pure]
    intro rows read
    have child := mem_children_of members
    have callee := expr_sound inside below (child ⟨callee, lighter⟩ (by simp))
    have given : ∀ a ∈ rows.flatten, (Node.arg a).Sound t :=
      rows_sound inside below (fun d row => child d (.tail _ row)) Node.arg
        (fun e reads => reads.arg) rows read
    generalize rows.flatten = args at given ⊢
    exact .of trivial (by simpa [Node.parts, Expr.parts] using ⟨callee, given⟩)

theorem listComp_sound : Yields (asKind .listComp c) fun n => n.Sound t := by
  rw [asKind]
  simp only [yields_bind]
  intro _ _
  split
  · rename_i element lighter clause lighter' rest members
    simp only [yields_bind, yields_pure]
    intro first readFirst rows readRows
    have child := mem_children_of members
    have element := expr_sound inside below (child ⟨element, lighter⟩ (by simp))
    have isClause := child ⟨clause, lighter'⟩ (by simp)
    have first := (part_reads inside below isClause).forSpec first readFirst
    have further : ∀ s ∈ rows.flatten, s.node.Sound t :=
      rows_sound inside below (fun d row => child d (.tail _ (.tail _ row))) CompSpec.node
        (fun e reads => reads.compSpec) rows readRows
    generalize rows.flatten = clauses at further ⊢
    exact .of trivial (by simpa [Node.parts, Expr.parts] using ⟨element, first, further⟩)
  · simp

theorem localIn_sound : Yields (asKind .localIn c) fun n => n.Sound t := by
  rw [asKind]
  simp only [yields_bind]
  intro _ _
  split
  · simp
  · rename_i keyword rest members
    have child := mem_children_of members
    have each (d : c.Below) (member : d ∈ rest.filter (·.1.type = "bind")) :=
      (part_reads inside below (child d (.tail _ (List.mem_of_mem_filter member)))).bind
    simp only [yields_bind]
    intro binds read
    have binds := yields_mapM each binds read
    split
    · rename_i body lighter _ bodies
      have isBody : ⟨body, lighter⟩ ∈ rest :=
        List.mem_of_mem_filter (bodies ▸ List.mem_cons_self)
      have body := expr_sound inside below (child ⟨body, lighter⟩ (.tail _ isBody))
      exact yields_pure.mpr
        (.of trivial (by simpa [Node.parts, Expr.parts] using ⟨binds, body⟩))
    · simp

theorem assertIn_sound : Yields (asKind .assertIn c) fun n => n.Sound t := by
  rw [asKind]
  simp only [yields_bind]
  intro a read
  have asserted := assertion_sound inside below a read
  split
  · rename_i body lighter next
    simp only [yields_bind, yields_pure]
    intro range _
    have body := (below body lighter (inside.sibling (List.mem_of_find?_eq_some next))).expr
    exact .of trivial (by simpa [Node.parts, Expr.parts] using ⟨asserted, body⟩)
  · simp

theorem binary_sound : Yields (asKind .binary c) fun n => n.Sound t := by
  have joined {op : Operator} {lhs rhs : Expr} (left : (Node.expr lhs).Sound t)
      (right : (Node.expr rhs).Sound t) : (Node.expr (.binary c.range op lhs rhs)).Sound t :=
    .of trivial (by simpa [Node.parts, Expr.parts] using ⟨left, right⟩)
  rw [asKind]
  simp only [yields_bind]
  intro _ _
  split
  · split
    · rename_i lhs lighter op rhs lighter' _ members
      have operand := member_sound inside below members
      simp only [yields_bind, yields_pure]
      intro _ _ _ _
      exact joined (operand ⟨lhs, lighter⟩ (by simp)) (operand ⟨rhs, lighter'⟩ (by simp))
    · simp
  · split
    · rename_i lhs lighter rhs lighter' _ members
      have operand := member_sound inside below members
      exact yields_pure.mpr
        (joined (operand ⟨lhs, lighter⟩ (by simp)) (operand ⟨rhs, lighter'⟩ (by simp)))
    · simp

theorem slice_sound : Yields (asKind .slice c) fun n => n.Sound t := by
  rw [asKind]
  simp only [yields_bind]
  intro _ _
  split
  · rename_i array lighter start lighter' rest members
    have bound := member_sound inside below members
    have array := bound ⟨array, lighter⟩ (by simp)
    have start := bound ⟨start, lighter'⟩ (by simp)
    split
    · rename_i stop lighter'' step lighter'''
      have stop := bound ⟨stop, lighter''⟩ (by simp)
      have step := bound ⟨step, lighter'''⟩ (by simp)
      exact yields_pure.mpr (.of trivial
        (by simpa [Node.parts, Expr.parts, Part.ofOption] using ⟨array, start, stop, step⟩))
    · rename_i stop lighter''
      have stop := bound ⟨stop, lighter''⟩ (by simp)
      exact yields_pure.mpr (.of trivial
        (by simpa [Node.parts, Expr.parts, Part.ofOption] using ⟨array, start, stop⟩))
    · exact yields_pure.mpr (.of trivial
        (by simpa [Node.parts, Expr.parts, Part.ofOption] using ⟨array, start⟩))
  · simp

theorem cond_sound : Yields (asKind .cond c) fun n => n.Sound t := by
  rw [asKind]
  simp only [yields_bind]
  intro _ _
  split
  · rename_i condition lighter consequence lighter' rest members
    have branch := member_sound inside below members
    have condition := branch ⟨condition, lighter⟩ (by simp)
    have consequence := branch ⟨consequence, lighter'⟩ (by simp)
    split
    · rename_i alternative lighter'' _
      have alternative := branch ⟨alternative, lighter''⟩ (by simp)
      exact yields_pure.mpr (.of trivial
        (by simpa [Node.parts, Expr.parts] using ⟨condition, consequence, alternative⟩))
    · exact yields_pure.mpr (.of trivial
        (by simpa [Node.parts, Expr.parts] using ⟨condition, consequence⟩))
  · simp

theorem asKind_sound (kind : Kind) : Yields (asKind kind c) fun n => n.Sound t := by
  cases kind with
  | object => exact object_sound inside below
  | fn => exact fn_sound inside below
  | call => exact call_sound inside below
  | listComp => exact listComp_sound inside below
  | localIn => exact localIn_sound inside below
  | assertIn => exact assertIn_sound inside below
  | binary => exact binary_sound inside below
  | slice => exact slice_sound inside below
  | cond => exact cond_sound inside below
  | objComp =>
      rw [asKind]
      exact .around (objComp_sound inside below)
  | bind =>
      rw [asKind]
      exact .around (bind_sound inside below)
  | param =>
      rw [asKind]
      exact .around (param_sound inside below)
  | arg =>
      rw [asKind]
      exact .around (namedArg_sound inside below)
  | forSpec =>
      rw [asKind]
      exact .around (forSpec_sound inside below)
  | ifSpec =>
      rw [asKind]
      exact .around (ifSpec_sound inside below)
  | assertion =>
      rw [asKind]
      exact .around (assertion_sound inside below)
  | fixedKey | computedKey =>
      rw [asKind]
      simp only [yields_bind, yields_pure]
      exact fun k read => (key_sound inside below k read).1
  | field =>
      rw [asKind]
      exact .around (field_sound inside below)
  | document =>
      rw [asKind]
      simp only [yields_bind]
      intro _ _
      split
      · rename_i body lighter _ members
        have body := member_sound inside below members ⟨body, lighter⟩ (by simp)
        exact yields_pure.mpr (.of trivial (by simpa [Node.parts, Expr.parts]))
      · simp
  | array =>
      rw [asKind]
      simp only [yields_bind, yields_pure]
      intro _ _
      have values := member_sound inside below rfl
      exact .of trivial (by simpa [Node.parts, Expr.parts] using values)
  | unary =>
      rw [asKind]
      simp only [yields_bind]
      intro _ _
      split
      · rename_i op operand lighter _ members
        have operand := member_sound inside below members ⟨operand, lighter⟩ (by simp)
        simp only [yields_bind, yields_pure]
        intro _ _ _ _
        exact .of trivial (by simpa [Node.parts, Expr.parts])
      · simp
  | fieldAccess =>
      rw [asKind]
      simp only [yields_bind]
      intro _ _
      split
      · rename_i obj lighter name members
        have obj := member_sound inside below members ⟨obj, lighter⟩ (by simp)
        simp only [yields_bind, yields_pure]
        intro id _
        exact .of trivial (by simpa [Node.parts, Expr.parts])
      · simp
  | importFile | num =>
      rw [asKind]
      simp only [yields_bind]
      intros
      split
      · simp only [yields_bind, yields_pure]
        intros
        exact .of trivial (by simp [Node.parts, Expr.parts])
      · simp
  | null | dollar | self | super | var | varRef | fieldName | fieldRef | paramRef | str | importee
  | bool | unknown | malformed | misplaced =>
      rw [asKind]
      simp only [yields_bind, yields_pure]
      intros
      exact .of trivial (by simp [Node.parts, Expr.parts])

theorem whole_sound : (Node.expr (expr c)).Sound t := by
  have formed : Yields (form c) fun n => n.Sound t := by
    rw [form]
    split
    · split
      · rename_i inner lighter _ members
        exact yields_pure.mpr (member_sound inside below members ⟨inner, lighter⟩ (by simp))
      · simp
    · split
      · exact asKind_sound inside below _
      · exact yields_pure.mpr (.of trivial (by simp [Node.parts, Expr.parts]))
  have misplaced : (Node.expr (.misplaced c.range c.type)).Sound t :=
    .of trivial (by simp [Node.parts, Expr.parts])
  rw [expr, node]
  cases read : form c with
  | error _ => exact .of trivial (by simp [Node.parts, Expr.parts])
  | ok n =>
      have sound := formed n read
      cases n with
      | expr e => exact sound
      | _ => exact misplaced

theorem arg_sound : Yields (arg c) fun a => (Node.arg a).Sound t := by
  rw [arg]
  split
  · exact namedArg_sound inside below
  · have value := whole_sound inside below
    exact yields_pure.mpr (.of trivial (by simpa [Node.parts]))

end Parts

/-- The recursion is on the weight, which falls to the children of a node and to the siblings
    after it. -/
theorem reads {c : Cursor} {t : ParseTree} (inside : c.In t) : Reads t c := by
  have below : ReadsBelow t c.weight := fun d lighter inside => reads inside
  exact
    { expr := whole_sound inside below
      bind := bind_sound inside below
      param := param_sound inside below
      arg := arg_sound inside below
      forSpec := forSpec_sound inside below
      compSpec := compSpec_sound inside below
      assertion := assertion_sound inside below
      key := key_sound inside below
      field := field_sound inside below
      objectLocal := objectLocal_sound inside below
      objectMember := objectMember_sound inside below }
termination_by c.weight

end Build

namespace Document

/-- Every node of a document is named as in its parse tree. -/
theorem named_sites {uri : Uri} {tree : ParseTree} {d : Document}
    (done : ofParseTree uri tree = .ok d) : ∀ s ∈ d.sites, s.node.Named tree := by
  intro s inside
  obtain ⟨n, root, done⟩ := Except.bind_eq_ok.mp done
  cases done
  have below : Build.ReadsBelow tree (Cursor.ofRoot tree).weight :=
    fun _ _ inside => Build.reads inside
  have sound := Build.asKind_sound (Cursor.in_root tree) below .document n root
  exact Site.named_of_sound sound inside

end Document

end JsonnetNav
