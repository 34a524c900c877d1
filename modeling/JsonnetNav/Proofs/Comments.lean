import JsonnetNav.Proofs.Documents
import Mathlib

/-! # Comments in parse trees

A parser leaves comments as extra nodes among the children of other nodes. Whatever is
read at a node is read from the children that are no comments, or from those with a role,
or from the next sibling that is no extra node. So a tree with comments put in stands for
the same document. Only strings are left alone: their parts are told apart by counting.
-/

namespace JsonnetNav

namespace ParseTree

/-- A comment as a parser leaves it in a tree: an extra node that plays no role. -/
structure IsComment (t : ParseTree) : Prop where
  type : t.type = "comment"
  named : t.named = true
  extra : t.extra = true
  field : t.field = none

mutual

/-- The second tree is the first one with comments put in among the children of any of its
    nodes, strings excepted. -/
inductive Commented : ParseTree → ParseTree → Prop where
  | node {t : ParseTree} {children : List ParseTree}
      (inside : Interspersed (t.type ≠ "string") t.children children) :
      Commented t { t with children := children }

/-- The second row is the first one with comments put into its trees, and among them where
    that is allowed. -/
inductive Interspersed : Prop → List ParseTree → List ParseTree → Prop where
  | nil {allowed : Prop} : Interspersed allowed [] []
  | keep {allowed : Prop} {t t' : ParseTree} {ts ts' : List ParseTree} (here : Commented t t')
      (rest : Interspersed allowed ts ts') : Interspersed allowed (t :: ts) (t' :: ts')
  | comment {allowed : Prop} {c : ParseTree} {ts ts' : List ParseTree} (here : allowed)
      (isComment : c.IsComment) (rest : Interspersed allowed ts ts') :
      Interspersed allowed ts (c :: ts')

end

theorem Interspersed.mono {allowed allowed' : Prop} (more : allowed → allowed')
    {ts ts' : List ParseTree} (inside : Interspersed allowed ts ts') :
    Interspersed allowed' ts ts' := by
  induction ts' generalizing ts with
  | nil =>
      cases inside
      exact .nil
  | cons t' ts' ih =>
      cases inside with
      | keep here rest => exact .keep here (ih rest)
      | comment here isComment rest => exact .comment (more here) isComment (ih rest)

end ParseTree

namespace Cursor

open ParseTree

/-- The second cursor is at the same node as the first one, in a tree with comments put in. -/
structure Commented (c c' : Cursor) : Prop where
  tree : c.tree.Commented c'.tree
  after : Interspersed True c.after c'.after

/-- The lists consist of cursors at the same nodes. -/
abbrev Paired {c c' : Cursor} (parts : List c.Below) (parts' : List c'.Below) : Prop :=
  List.Forall₂ (fun d d' => d.1.Commented d'.1) parts parts'

theorem Paired.head {c c' : Cursor} {parts : List c.Below} {parts' : List c'.Below}
    (paired : Paired parts parts') :
    Option.Rel (fun d d' => d.1.Commented d'.1) parts.head? parts'.head? := by
  cases paired with
  | nil => exact .none
  | cons here _ => exact .some here

/-- A choice of cursors that leaves comments out, where there may be any, and does not depend
    on those put in elsewhere. -/
structure Overlooks (allowed : Prop) (p : Cursor → Bool) : Prop where
  comment : allowed → ∀ c : Cursor, c.tree.IsComment → p c = false
  same : ∀ c c' : Cursor, c.Commented c' → p c' = p c

theorem filter_row {allowed : Prop} {p : Cursor → Bool} (overlooks : Overlooks allowed p)
    {ts ts' : List ParseTree} (inside : Interspersed allowed ts ts') :
    List.Forall₂ Commented ((row ts).filter p) ((row ts').filter p) := by
  induction ts' generalizing ts with
  | nil =>
      cases inside
      exact .nil
  | cons t' ts' ih =>
      cases inside with
      | @keep _ t _ ts _ here rest =>
          have first : Commented ⟨t, ts⟩ ⟨t', ts'⟩ := ⟨here, rest.mono fun _ => trivial⟩
          rw [row, row, List.filter_cons, List.filter_cons, overlooks.same _ _ first]
          split
          · exact .cons first (ih rest)
          · exact ih rest
      | comment here isComment rest =>
          have left_out := overlooks.comment here ⟨t', ts'⟩ isComment
          rw [row.eq_def (t' :: ts'), List.filter_cons, left_out]
          exact ih rest

theorem filter_attachWith {c c' : Cursor} {allowed : Prop} {p : Cursor → Bool}
    (overlooks : Overlooks allowed p) {ts ts' : List ParseTree}
    (inside : Interspersed allowed ts ts') (below : ∀ d ∈ row ts, d.weight < c.weight)
    (below' : ∀ d ∈ row ts', d.weight < c'.weight) :
    Paired (((row ts).attachWith _ below).filter fun d => p d.1)
      (((row ts').attachWith _ below').filter fun d => p d.1) := by
  have plain {c : Cursor} {ts : List ParseTree} (below : ∀ d ∈ row ts, d.weight < c.weight) :
      (((row ts).attachWith _ below).filter fun d => p d.1).unattach = (row ts).filter p := by
    rw [@List.unattach_filter _ _ _ _ p fun _ _ => rfl, List.unattach_attachWith]
  have rows := filter_row overlooks inside
  rwa [← plain below, ← plain below', List.unattach, List.unattach, List.forall₂_map_left_iff,
    List.forall₂_map_right_iff] at rows

namespace Commented

variable {c c' : Cursor}

theorem node (same : c.Commented c') :
    ∃ children, Interspersed (c.type ≠ "string") c.tree.children children ∧
      c'.tree = { c.tree with children := children } := by
  obtain ⟨tree, after⟩ := c
  obtain ⟨tree', after'⟩ := c'
  obtain ⟨⟨inside⟩, -⟩ := same
  exact ⟨_, inside, rfl⟩

theorem type (same : c.Commented c') : c'.type = c.type := by
  obtain ⟨children, -, tree⟩ := same.node
  simp [Cursor.type, tree]

theorem range (same : c.Commented c') : c'.range = c.range := by
  obtain ⟨children, -, tree⟩ := same.node
  simp [Cursor.range, tree]

theorem filter_children (same : c.Commented c') {p : Cursor → Bool}
    (overlooks : Overlooks (c.type ≠ "string") p) :
    Paired (c.children.filter fun d => p d.1) (c'.children.filter fun d => p d.1) := by
  obtain ⟨children, inside, tree⟩ := same.node
  have same_children : c'.tree.children = children := by rw [tree]
  subst same_children
  exact filter_attachWith overlooks inside _ _

theorem overlooks_members (allowed : Prop) :
    Overlooks allowed fun d => d.tree.named && !d.isComment := by
  constructor
  · intro _ d isComment
    simp [Cursor.isComment, Cursor.type, isComment.type]
  · intro d d' same
    obtain ⟨children, -, tree⟩ := same.node
    simp [Cursor.isComment, same.type, tree]

theorem members (same : c.Commented c') : Paired c.members c'.members :=
  same.filter_children (overlooks_members _)

theorem items (same : c.Commented c') : Paired c.items c'.items := by
  apply same.filter_children (p := fun d => !d.isComment)
  constructor
  · intro _ d isComment
    simp [Cursor.isComment, Cursor.type, isComment.type]
  · intro d d' same
    simp [Cursor.isComment, same.type]

theorem withRole (same : c.Commented c') (role : String) :
    Paired (c.withRole role) (c'.withRole role) := by
  apply same.filter_children (p := fun d => d.tree.field = some role)
  constructor
  · intro _ d isComment
    simp [isComment.field]
  · intro d d' same
    obtain ⟨children, -, tree⟩ := same.node
    simp [tree]

theorem isEmpty_withRole (same : c.Commented c') (role : String) :
    (c'.withRole role).isEmpty = (c.withRole role).isEmpty := by
  rw [Bool.eq_iff_iff, List.isEmpty_iff_length_eq_zero, List.isEmpty_iff_length_eq_zero,
    (same.withRole role).length_eq]

theorem parts_of_string (same : c.Commented c') (isString : c.type = "string") :
    Paired (c.children.filter (·.1.tree.named)) (c'.children.filter (·.1.tree.named)) := by
  apply same.filter_children (p := fun d => d.tree.named)
  constructor
  · intro other
    exact absurd isString other
  · intro d d' same
    obtain ⟨children, -, tree⟩ := same.node
    simp [tree]

theorem any_forSpec (same : c.Commented c') :
    (c'.children.any fun d => d.1.tree.named && d.1.type = "forspec") =
      c.children.any fun d => d.1.tree.named && d.1.type = "forspec" := by
  have counted := same.filter_children (p := fun d => d.tree.named && d.type = "forspec") (by
    constructor
    · intro _ d isComment
      simp [Cursor.type, isComment.type]
    · intro d d' same
      obtain ⟨children, -, tree⟩ := same.node
      simp [same.type, tree])
  have length := counted.length_eq
  rw [← List.countP_eq_length_filter, ← List.countP_eq_length_filter] at length
  rw [Bool.eq_iff_iff, List.any_eq_true, List.any_eq_true, ← List.countP_pos_iff,
    ← List.countP_pos_iff, length]

theorem next (same : c.Commented c') :
    Option.Rel (fun d d' => d.1.Commented d'.1) c.next? c'.next? := by
  have overlooks : Overlooks True fun d => d.tree.named && !d.tree.extra := by
    constructor
    · intro _ d isComment
      simp [isComment.extra]
    · intro d d' same
      obtain ⟨children, -, tree⟩ := same.node
      simp [tree]
  have following : Paired (c.siblings.filter _) (c'.siblings.filter _) :=
    filter_attachWith overlooks same.after _ _
  rw [next?, next?, ← List.head?_filter, ← List.head?_filter]
  exact following.head

end Commented

theorem Paired.filter {c c' : Cursor} {parts : List c.Below} {parts' : List c'.Below}
    (paired : Paired parts parts') {p : Cursor → Bool}
    (same : ∀ d d' : Cursor, d.Commented d' → p d' = p d) :
    Paired (parts.filter fun d => p d.1) (parts'.filter fun d => p d.1) := by
  apply List.rel_filter _ paired
  intro d d' here
  simp [same d.1 d'.1 here]

theorem Paired.map_eq {c c' : Cursor} {parts : List c.Below} {parts' : List c'.Below}
    (paired : Paired parts parts') {α : Type} {f : c.Below → α} {f' : c'.Below → α}
    (each : ∀ d d', d.1.Commented d'.1 → f' d' = f d) : parts'.map f' = parts.map f := by
  induction paired with
  | nil => rfl
  | cons here _ ih => rw [List.map_cons, List.map_cons, each _ _ here, ih]

theorem Paired.mapM_eq {c c' : Cursor} {parts : List c.Below} {parts' : List c'.Below}
    (paired : Paired parts parts') {α : Type} {f : c.Below → Build.Result α}
    {f' : c'.Below → Build.Result α} (each : ∀ d d', d.1.Commented d'.1 → f' d' = f d) :
    parts'.mapM f' = parts.mapM f := by
  induction paired with
  | nil => rfl
  | cons here _ ih => rw [List.mapM_cons, List.mapM_cons, each _ _ here, ih]

end Cursor

namespace Build

open Cursor

section

variable {c c' : Cursor} (same : c.Commented c')

include same

theorem demandType_eq (types : List String) : demandType c' types = demandType c types := by
  rw [demandType, demandType, same.type]

theorem text_eq : c'.tree.text = c.tree.text := by
  obtain ⟨children, -, tree⟩ := same.node
  rw [tree]

theorem demandText_eq : demandText c' = demandText c := by
  rw [demandText, demandText, text_eq same]

theorem ident_eq : ident c' = ident c := by
  rw [ident, ident, demandType_eq same, demandText_eq same, same.range]

theorem string_eq : string c' = string c := by
  rw [string, string, demandType_eq same]
  by_cases isString : c.type = "string"
  · have parts := same.parts_of_string isString
    generalize c.children.filter (·.1.tree.named) = xs at parts ⊢
    generalize c'.children.filter (·.1.tree.named) = ys at parts ⊢
    rcases parts with _ | ⟨opening, _ | ⟨content, _ | ⟨_, _ | _⟩⟩⟩
    · rfl
    · rfl
    · rfl
    · simp only [demandText_eq opening, demandText_eq content]
    · rfl
  · have fails : demandType c ["string"] = throw .wrongType := if_neg (by simpa using isString)
    rw [fails]
    rfl

theorem partsOfType_paired (type : String) : Paired (partsOfType c type) (partsOfType c' type) := by
  apply List.rel_filterMap _ same.members
  intro d d' here
  have members := here.members
  obtain ⟨d, less⟩ := d
  obtain ⟨d', less'⟩ := d'
  simp only [here.type]
  split
  · generalize d.members = parts at members ⊢
    generalize d'.members = parts' at members ⊢
    rcases members with _ | ⟨part, _ | _⟩
    · exact .none
    · simp only [part.type]
      split
      · exact .some part
      · exact .none
    · exact .none
  · exact .none

end

/-- The two cursors are read as the same, in every way that a part can be read. -/
structure Alike (c c' : Cursor) : Prop where
  expr : expr c' = expr c
  bind : bind c' = bind c
  param : param c' = param c
  arg : arg c' = arg c
  forSpec : forSpec c' = forSpec c
  compSpec : compSpec c' = compSpec c
  assertion : assertion c' = assertion c
  key : key c' = key c
  field : field c' = field c
  objectLocal : objectLocal c' = objectLocal c
  objectMember : objectMember c' = objectMember c

/-- Cursors that are lighter than a weight and differ in comments only are read as the same. -/
def AlikeBelow (weight : Nat) : Prop :=
  ∀ c c' : Cursor, c.weight < weight → c.Commented c' → Alike c c'

section

variable {c c' : Cursor} (same : c.Commented c') (lighter : AlikeBelow c.weight)

theorem AlikeBelow.part (lighter : AlikeBelow c.weight) {d : c.Below} {d' : c'.Below}
    (here : d.1.Commented d'.1) : Alike d.1 d'.1 :=
  lighter d.1 d'.1 d.2 here

/-- The members of a part, all of them read in the same way. -/
theorem AlikeBelow.row (lighter : AlikeBelow c.weight) {α : Type} {read : Cursor → Result α}
    (reads : ∀ {e e' : Cursor}, Alike e e' → read e' = read e) {d : c.Below} {d' : c'.Below}
    (here : d.1.Commented d'.1) :
    (d'.1.members.mapM fun e => read e.1) = d.1.members.mapM fun e => read e.1 :=
  here.members.mapM_eq fun e e' inner => reads (lighter e.1 e'.1 (Nat.lt_trans e.2 d.2) inner)

include same lighter

theorem param_eq : param c' = param c := by
  have members := same.members
  rw [param, param, demandType_eq same, same.range]
  generalize c.members = parts at members ⊢
  generalize c'.members = parts' at members ⊢
  rcases members with _ | ⟨id, _ | ⟨default, _ | _⟩⟩
  · rfl
  · simp only [ident_eq id]
  · simp only [ident_eq id, (lighter.part default).expr]
  · rfl

theorem namedArg_eq : namedArg c' = namedArg c := by
  have members := same.members
  rw [namedArg, namedArg, demandType_eq same, same.range]
  generalize c.members = parts at members ⊢
  generalize c'.members = parts' at members ⊢
  rcases members with _ | ⟨name, _ | ⟨value, _ | _⟩⟩
  · rfl
  · rfl
  · simp only [ident_eq name, (lighter.part value).expr]
  · rfl

theorem forSpec_eq : forSpec c' = forSpec c := by
  have members := same.members
  rw [forSpec, forSpec, demandType_eq same, same.range]
  generalize c.members = parts at members ⊢
  generalize c'.members = parts' at members ⊢
  rcases members with _ | ⟨id, _ | ⟨source, _ | _⟩⟩
  · rfl
  · rfl
  · simp only [ident_eq id, (lighter.part source).expr]
  · rfl

theorem ifSpec_eq : ifSpec c' = ifSpec c := by
  have members := same.members
  rw [ifSpec, ifSpec, demandType_eq same, same.range]
  generalize c.members = parts at members ⊢
  generalize c'.members = parts' at members ⊢
  rcases members with _ | ⟨condition, _ | _⟩
  · rfl
  · simp only [(lighter.part condition).expr]
  · rfl

theorem compSpec_eq : compSpec c' = compSpec c := by
  rw [compSpec, compSpec, same.type, forSpec_eq same lighter, ifSpec_eq same lighter]

theorem assertion_eq : assertion c' = assertion c := by
  have members := same.members
  rw [assertion, assertion, demandType_eq same, same.range]
  generalize c.members = parts at members ⊢
  generalize c'.members = parts' at members ⊢
  rcases members with _ | ⟨condition, _ | ⟨message, _ | _⟩⟩
  · rfl
  · simp only [(lighter.part condition).expr]
  · simp only [(lighter.part condition).expr, (lighter.part message).expr]
  · rfl

theorem bind_eq : bind c' = bind c := by
  rw [bind, bind, demandType_eq same, same.range]
  have names := same.withRole "function"
  generalize c.withRole "function" = found at names ⊢
  generalize c'.withRole "function" = found' at names ⊢
  rcases names with _ | ⟨name, _⟩
  · have members := same.members
    generalize c.members = parts at members ⊢
    generalize c'.members = parts' at members ⊢
    rcases members with _ | ⟨id, _ | ⟨value, _⟩⟩
    · rfl
    · rfl
    · simp only [ident_eq id, (lighter.part value).expr]
  · have bodies := (same.withRole "body").filter (p := fun d => !d.isComment) fun d d' here => by
      simp [isComment, here.type]
    generalize (c.withRole "body").filter (!·.1.isComment) = body at bodies ⊢
    generalize (c'.withRole "body").filter (!·.1.isComment) = body' at bodies ⊢
    rcases bodies with _ | ⟨body, _⟩
    · rfl
    · have rows := same.withRole "params"
      generalize c.withRole "params" = row at rows ⊢
      generalize c'.withRole "params" = row' at rows ⊢
      rcases rows with _ | ⟨params, _⟩
      · simp only [ident_eq name, (lighter.part body).expr]
      · simp only [ident_eq name, (lighter.part body).expr, lighter.row Alike.param params]

theorem key_eq : key c' = key c := by
  have items := same.items
  rw [key, key, demandType_eq same, same.range]
  generalize c.items = parts at items ⊢
  generalize c'.items = parts' at items ⊢
  rcases items with _ | ⟨head, _ | ⟨inner, _⟩⟩
  · rfl
  · simp only [demandText_eq head, head.type, head.range, ident_eq head, string_eq head]
  · simp only [demandText_eq head, head.type, head.range, ident_eq head, string_eq head,
      (lighter.part inner).expr]

theorem objectLocal_eq : objectLocal c' = objectLocal c := by
  have members := same.members
  rw [objectLocal, objectLocal]
  generalize c.members = parts at members ⊢
  generalize c'.members = parts' at members ⊢
  rcases members with _ | ⟨_, _ | ⟨bound, _⟩⟩
  · rfl
  · rfl
  · exact (lighter.part bound).bind

theorem objectMember_eq : objectMember c' = objectMember c := by
  have members := same.members
  rw [objectMember, objectMember, demandType_eq same]
  generalize c.members = parts at members ⊢
  generalize c'.members = parts' at members ⊢
  rcases members with _ | ⟨head, _⟩
  · rfl
  · have alike := lighter.part head
    simp only [head.type, alike.objectLocal, alike.assertion, alike.field]

theorem field_eq : field c' = field c := by
  have items := same.items
  rw [field, field, demandType_eq same, same.range, same.isEmpty_withRole]
  generalize c.items = parts at items ⊢
  generalize c'.items = parts' at items ⊢
  rcases items with _ | ⟨name, _ | ⟨second, _ | ⟨third, rest⟩⟩⟩
  · rfl
  · rfl
  · simp only [text_eq second, demandText_eq second]
  · -- the sign that a value inherits and the parenthesis of parameters both come second
    simp only [(lighter.part name).key, text_eq second, demandText_eq second, second.range,
      third.type, (lighter.part third).expr, lighter.row Alike.param third]
    rcases rest with _ | ⟨fourth, _ | ⟨fifth, _ | ⟨sixth, _⟩⟩⟩
    · rfl
    · simp only [demandText_eq third, (lighter.part fourth).expr]
    · simp only [demandText_eq third, demandText_eq fourth, (lighter.part fourth).expr,
        (lighter.part fifth).expr]
    · simp only [demandText_eq third, demandText_eq fourth, (lighter.part fourth).expr,
        demandText_eq fifth, (lighter.part fifth).expr, (lighter.part sixth).expr]

theorem objComp_eq : objComp c' = objComp c := by
  have ofType (type : String) : Paired (c.members.filter fun d => d.1.type = type)
      (c'.members.filter fun d => d.1.type = type) :=
    same.members.filter (p := fun d => d.type = type) fun d d' here => by simp [here.type]
  have parts (type : String) := partsOfType_paired same type
  have fields := (parts "field").mapM_eq fun _ _ here => (lighter.part here).field
  have locals := (parts "objlocal").mapM_eq fun _ _ here => (lighter.part here).objectLocal
  have assertions := (parts "assert").mapM_eq fun _ _ here => (lighter.part here).assertion
  have clauses := (ofType "forspec").mapM_eq fun _ _ here => (lighter.part here).forSpec
  have rows := (ofType "compspec").mapM_eq fun _ _ here => lighter.row Alike.compSpec here
  rw [objComp, objComp, demandType_eq same, same.range]
  simp only [fields, clauses, (ofType "compspec").length_eq, locals, assertions, rows]

theorem document_eq : asKind .document c' = asKind .document c := by
  have members := same.members
  rw [asKind, asKind, demandType_eq same, same.range]
  generalize c.members = parts at members ⊢
  generalize c'.members = parts' at members ⊢
  rcases members with _ | ⟨body, _⟩
  · rfl
  · simp only [(lighter.part body).expr]

theorem array_eq : asKind .array c' = asKind .array c := by
  have values := same.members.map_eq fun _ _ here => (lighter.part here).expr
  rw [asKind, asKind, demandType_eq same, same.range]
  simp only [values]

theorem unary_eq : asKind .unary c' = asKind .unary c := by
  have members := same.members
  rw [asKind, asKind, demandType_eq same, same.range]
  generalize c.members = parts at members ⊢
  generalize c'.members = parts' at members ⊢
  rcases members with _ | ⟨op, _ | ⟨operand, _⟩⟩
  · rfl
  · rfl
  · simp only [demandText_eq op, (lighter.part operand).expr]

theorem binary_eq : asKind .binary c' = asKind .binary c := by
  have members := same.members
  rw [asKind, asKind, demandType_eq same, same.range, same.type]
  generalize c.members = parts at members ⊢
  generalize c'.members = parts' at members ⊢
  rcases members with _ | ⟨lhs, _ | ⟨second, _ | ⟨third, _⟩⟩⟩
  · rfl
  · rfl
  · simp only [(lighter.part lhs).expr, (lighter.part second).expr]
  · simp only [(lighter.part lhs).expr, demandText_eq second, (lighter.part second).expr,
      (lighter.part third).expr]

theorem localIn_eq : asKind .localIn c' = asKind .localIn c := by
  have members := same.members
  rw [asKind, asKind, demandType_eq same, same.range]
  generalize c.members = parts at members ⊢
  generalize c'.members = parts' at members ⊢
  rcases members with _ | ⟨_, rest⟩
  · rfl
  · rename_i parts parts' _
    have binds := Paired.filter (p := fun d => d.type = "bind") rest fun d d' here => by
      simp [here.type]
    have bodies := Paired.filter (p := fun d => d.type ≠ "bind") rest fun d d' here => by
      simp [here.type]
    simp only [binds.mapM_eq fun _ _ here => (lighter.part here).bind]
    generalize parts.filter (fun d => d.1.type ≠ "bind") = others at bodies ⊢
    generalize parts'.filter (fun d => d.1.type ≠ "bind") = others' at bodies ⊢
    rcases bodies with _ | ⟨body, _⟩
    · rfl
    · simp only [(lighter.part body).expr]

theorem fn_eq : asKind .fn c' = asKind .fn c := by
  have members := same.members
  rw [asKind, asKind, demandType_eq same, same.range]
  generalize c.members = parts at members ⊢
  generalize c'.members = parts' at members ⊢
  rcases members with _ | ⟨first, _ | ⟨body, _⟩⟩
  · rfl
  · simp only [(lighter.part first).expr]
  · simp only [first.type, lighter.row Alike.param first, (lighter.part first).expr,
      (lighter.part body).expr]

theorem call_eq : asKind .call c' = asKind .call c := by
  have members := same.members
  rw [asKind, asKind, demandType_eq same, same.range]
  generalize c.members = parts at members ⊢
  generalize c'.members = parts' at members ⊢
  rcases members with _ | ⟨callee, rest⟩
  · rfl
  · have args := Paired.mapM_eq rest fun _ _ here => lighter.row Alike.arg here
    simp only [(lighter.part callee).expr, args]

theorem listComp_eq : asKind .listComp c' = asKind .listComp c := by
  have members := same.members
  rw [asKind, asKind, demandType_eq same, same.range]
  generalize c.members = parts at members ⊢
  generalize c'.members = parts' at members ⊢
  rcases members with _ | ⟨element, _ | ⟨clause, rest⟩⟩
  · rfl
  · rfl
  · simp only [(lighter.part element).expr, (lighter.part clause).forSpec,
      Paired.mapM_eq rest fun _ _ here => lighter.row Alike.compSpec here]

omit lighter in
theorem importFile_eq : asKind .importFile c' = asKind .importFile c := by
  have members := same.members
  rw [asKind, asKind, demandType_eq same, same.range, same.type]
  generalize c.members = parts at members ⊢
  generalize c'.members = parts' at members ⊢
  rcases members with _ | ⟨path, _ | _⟩
  · rfl
  · simp only [path.range, string_eq path]
  · rfl

theorem assertIn_eq : asKind .assertIn c' = asKind .assertIn c := by
  have next := same.next
  rw [asKind, asKind, assertion_eq same lighter]
  generalize c.next? = body at next ⊢
  generalize c'.next? = body' at next ⊢
  cases next with
  | none => rfl
  | some body => simp only [(lighter.part body).expr]

theorem object_eq : asKind .object c' = asKind .object c := by
  have read := same.members.mapM_eq fun _ _ here => (lighter.part here).objectMember
  rw [asKind, asKind, demandType_eq same, same.range, same.any_forSpec, objComp_eq same lighter]
  simp only [read]

theorem fieldAccess_eq : asKind .fieldAccess c' = asKind .fieldAccess c := by
  have members := same.members
  rw [asKind, asKind, demandType_eq same, same.range]
  generalize c.members = parts at members ⊢
  generalize c'.members = parts' at members ⊢
  rcases members with _ | ⟨obj, _ | ⟨name, _ | _⟩⟩
  · rfl
  · rfl
  · simp only [(lighter.part obj).expr, ident_eq name]
  · rfl

theorem slice_eq : asKind .slice c' = asKind .slice c := by
  have members := same.members
  rw [asKind, asKind, demandType_eq same, same.range]
  generalize c.members = parts at members ⊢
  generalize c'.members = parts' at members ⊢
  rcases members with _ | ⟨array, _ | ⟨start, _ | ⟨stop, _ | ⟨step, _ | _⟩⟩⟩⟩
  · rfl
  · rfl
  · simp only [(lighter.part array).expr, (lighter.part start).expr]
  · simp only [(lighter.part array).expr, (lighter.part start).expr, (lighter.part stop).expr]
  · simp only [(lighter.part array).expr, (lighter.part start).expr, (lighter.part stop).expr,
      (lighter.part step).expr]
  · simp only [(lighter.part array).expr, (lighter.part start).expr]

theorem cond_eq : asKind .cond c' = asKind .cond c := by
  have members := same.members
  rw [asKind, asKind, demandType_eq same, same.range]
  generalize c.members = parts at members ⊢
  generalize c'.members = parts' at members ⊢
  rcases members with _ | ⟨condition, _ | ⟨consequence, _ | ⟨alternative, _⟩⟩⟩
  · rfl
  · rfl
  · simp only [(lighter.part condition).expr, (lighter.part consequence).expr]
  · simp only [(lighter.part condition).expr, (lighter.part consequence).expr,
      (lighter.part alternative).expr]

theorem asKind_eq (kind : Kind) : asKind kind c' = asKind kind c := by
  cases kind with
  | null | dollar | self | super => rw [asKind, asKind, demandType_eq same, same.range]
  | num | bool => rw [asKind, asKind, demandType_eq same, demandText_eq same, same.range]
  | var | varRef | fieldName | fieldRef | paramRef => rw [asKind, asKind, ident_eq same]
  | str | importee => rw [asKind, asKind, string_eq same, same.range]
  | unknown => rw [asKind, asKind, same.range]
  | malformed | misplaced => rw [asKind, asKind, same.range, same.type]
  | bind => rw [asKind, asKind, bind_eq same lighter]
  | param => rw [asKind, asKind, param_eq same lighter]
  | arg => rw [asKind, asKind, namedArg_eq same lighter]
  | forSpec => rw [asKind, asKind, forSpec_eq same lighter]
  | ifSpec => rw [asKind, asKind, ifSpec_eq same lighter]
  | assertion => rw [asKind, asKind, assertion_eq same lighter]
  | fixedKey | computedKey => rw [asKind, asKind, key_eq same lighter]
  | field => rw [asKind, asKind, field_eq same lighter]
  | objComp => rw [asKind, asKind, objComp_eq same lighter]
  | document => exact document_eq same lighter
  | array => exact array_eq same lighter
  | unary => exact unary_eq same lighter
  | binary => exact binary_eq same lighter
  | localIn => exact localIn_eq same lighter
  | fn => exact fn_eq same lighter
  | call => exact call_eq same lighter
  | listComp => exact listComp_eq same lighter
  | importFile => exact importFile_eq same
  | assertIn => exact assertIn_eq same lighter
  | object => exact object_eq same lighter
  | fieldAccess => exact fieldAccess_eq same lighter
  | slice => exact slice_eq same lighter
  | cond => exact cond_eq same lighter

theorem form_eq : form c' = form c := by
  have members := same.members
  rw [form, form, same.type, same.range]
  simp only [asKind_eq same lighter]
  generalize c.members = parts at members ⊢
  generalize c'.members = parts' at members ⊢
  rcases members with _ | ⟨inner, _⟩
  · rfl
  · simp only [(lighter.part inner).expr]

theorem expr_eq : expr c' = expr c := by
  rw [expr, expr, node, node, form_eq same lighter, same.type, same.range]

theorem arg_eq : arg c' = arg c := by
  rw [arg, arg, same.type, same.range, namedArg_eq same lighter, expr_eq same lighter]

end

theorem alike {c c' : Cursor} (same : c.Commented c') : Alike c c' := by
  have lighter : AlikeBelow c.weight := fun d d' less here => alike here
  exact {
    expr := expr_eq same lighter
    bind := bind_eq same lighter
    param := param_eq same lighter
    arg := arg_eq same lighter
    forSpec := forSpec_eq same lighter
    compSpec := compSpec_eq same lighter
    assertion := assertion_eq same lighter
    key := key_eq same lighter
    field := field_eq same lighter
    objectLocal := objectLocal_eq same lighter
    objectMember := objectMember_eq same lighter }
termination_by c.weight

end Build

namespace Document

/-- A parse tree with comments put in stands for the same document, or fails as the tree
    without them does. -/
theorem ofParseTree_commented {t t' : ParseTree} (commented : t.Commented t') (uri : Uri) :
    ofParseTree uri t' = ofParseTree uri t := by
  have same : (Cursor.ofRoot t).Commented (.ofRoot t') := ⟨commented, .nil⟩
  have lighter : Build.AlikeBelow (Cursor.ofRoot t).weight := fun _ _ _ here => Build.alike here
  rw [ofParseTree, ofParseTree, Build.asKind_eq same lighter]

/-- The tree of `function(x) assert x; 'x'`, with the given trees at every place where a
    comment is easily taken for a part. -/
def assertingTree (remarks : List ParseTree) : ParseTree :=
  let node (type : String) (start stop : Nat) (children : List ParseTree) : ParseTree :=
    { type := type, range := Range.ofNats 0 start 0 stop, children := children }
  let leaf (type : String) (start : Nat) (text : String) : ParseTree :=
    { type := type, range := Range.ofNats 0 start 0 (start + 1), text := some text }
  let params := node "params" 9 10 (remarks ++ [node "param" 9 10 (leaf "id" 9 "x" :: remarks)])
  let assertion := node "assert" 12 20 (remarks ++ [leaf "id" 19 "x"])
  let body := node "string" 22 25
    [leaf "string_start" 22 "'", leaf "string_content" 23 "x", leaf "string_end" 24 "'"]
  node "document" 0 25
    (remarks ++ [node "anonymous_function" 0 25 (params :: assertion :: remarks ++ [body])])

def assertingDocument : Document :=
  let x (start : Nat) : Ident := ⟨Range.ofNats 0 start 0 (start + 1), .ofString "x"⟩
  let assertion : Assertion := ⟨Range.ofNats 0 12 0 20, .ref (x 19), none⟩
  { uri := "file:///x"
    root := .expr (.document (Range.ofNats 0 0 0 25)
      (.fn (Range.ofNats 0 0 0 25) [⟨Range.ofNats 0 9 0 10, x 9, none⟩]
        (.assertIn (Range.ofNats 0 12 0 25) assertion
          (.str (Range.ofNats 0 22 0 25) (.ofString "x"))))) }

def remark : ParseTree :=
  { type := "comment", range := Range.ofNats 0 0 0 2, text := some "//", extra := true }

open ParseTree in
/-- Comments around a parameter, inside of an assertion and before its body are overlooked. -/
theorem asserting_commented :
    (assertingTree []).Commented (assertingTree [remark]) ∧
    ofParseTree "file:///x" (assertingTree [remark]) = .ok assertingDocument := by
  have put {ts ts' : List ParseTree} (rest : Interspersed True ts ts') :
      Interspersed True ts (remark :: ts') :=
    .comment trivial ⟨rfl, rfl, rfl, rfl⟩ rest
  have leaf {t : ParseTree} (bare : t.children = []) : t.Commented t := by
    obtain ⟨type, range, text, children, field, named, extra⟩ := t
    cases bare
    exact .node .nil
  have inside {t t' : ParseTree} (other : t.type ≠ "string")
      (row : Interspersed True t.children t'.children)
      (rest : t' = { t with children := t'.children }) : t.Commented t' := by
    rw [rest]
    exact .node (row.mono fun _ => other)
  have commented : (assertingTree []).Commented (assertingTree [remark]) := by
    apply inside (by decide) _ rfl
    apply put
    apply Interspersed.keep _ .nil
    apply inside (by decide) _ rfl
    apply Interspersed.keep
    · apply inside (by decide) _ rfl
      apply put
      apply Interspersed.keep _ .nil
      apply inside (by decide) _ rfl
      exact .keep (leaf rfl) (put .nil)
    · apply Interspersed.keep
      · apply inside (by decide) _ rfl
        exact put (.keep (leaf rfl) .nil)
      · apply put
        apply Interspersed.keep _ .nil
        exact .node (.keep (leaf rfl) (.keep (leaf rfl) (.keep (leaf rfl) .nil)))
  refine ⟨commented, ?_⟩
  rw [ofParseTree_commented commented]
  cbv

end Document

end JsonnetNav
