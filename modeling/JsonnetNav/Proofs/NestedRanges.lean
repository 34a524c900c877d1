import JsonnetNav.Proofs.FittingParts
import Mathlib

/-! # Nested ranges of what is read

Where the ranges of a parse tree nest, so do those of the syntax tree that is read from it, and no
two ranges that have to be merged are out of order. Functions are measured again from their
bodies and assertions from the siblings after them, so this is more than that ranges are copied.
Only an assertion for an argument reaches out of the argument.
-/

namespace JsonnetNav

namespace Build

open Cursor

section Kinds

variable {c : Cursor} {outer : Range} (placed : c.Placed outer)

include placed

theorem importFile_fits : Meets (asKind .importFile c) fun n => n.FitsIn c.range := by
  rw [asKind]
  simp only [meets_bind, meets_demandType]
  intro _
  split
  · rename_i path members
    have isPath := mem_children_of members path (by simp)
    refine meets_bind.mpr (meets_string fun text => ?_)
    have importee : (Node.importee ⟨path.1.range, text⟩).FitsIn c.range :=
      leaf_fits placed isPath rfl (by simp [Node.parts, Part.nodes])
    exact Node.fitsIn_of rfl placed.proper (by simpa [Node.parts, Expr.parts])
  · simp

variable (below : FitBelow c.weight)

include below

theorem fn_fits : Meets (asKind .fn c) fun n => n.FitsIn c.range := by
  rw [asKind]
  simp only [meets_bind, meets_demandType]
  intro _
  split
  · simp
  · rename_i first lighter rest members
    have child := mem_children_of members
    have isFirst := child ⟨first, lighter⟩ (by simp)
    have finish {d : c.Below} (isChild : d ∈ c.children) {params : List Param}
        (before : ∀ p ∈ params, (Node.param p).FitsIn ⟨c.range.start, d.1.range.start⟩) :
        Meets (do return Node.expr (.fn (← merge c.range (expr d.1).range) params (expr d.1)))
          fun n => n.FitsIn c.range :=
      meets_bind.mpr (merged_fits placed below isChild (Position.le_refl _)
        (starts_inside placed isChild) before)
    split
    · rename_i body lighter' more
      have isBody := child ⟨body, lighter'⟩ (by simp)
      split
      · simp only [meets_bind]
        refine (params_fit placed below isFirst).imp fun params fit => ?_
        refine meets_bind.mp (finish isBody fun p member => (fit p member).mono ?_)
        have follows : first.range.stop ≤ body.range.start :=
          (List.pairwise_cons.mp (ordered_of placed members)).1 ⟨body, lighter'⟩ (by simp)
        exact Range.contains_iff.mpr ⟨starts_inside placed isFirst, follows⟩
      · exact finish isFirst (by simp)
    · exact finish isFirst (by simp)

theorem object_fits : Meets (asKind .object c) fun n => n.FitsIn c.range := by
  rw [asKind]
  simp only [meets_bind, meets_demandType]
  intro _
  split
  · exact meets_bind.mpr (objComp_fits placed below)
  · have each (d : c.Below) (member : d ∈ c.members) :
        Meets (objectMember d.1) (MemberFitsIn c.range) := by
      have child : d ∈ c.children := List.mem_of_mem_filter member
      exact (part_fits placed below child).objectMember.imp fun m fits =>
        fits.mono (placed.child child).within
    refine meets_bind.mpr ((meets_mapM each).imp fun members fit => ?_)
    have binds := picked_fit fit ObjectMember.bind? Node.bind fun m b here picked => by
      cases m <;> cases picked
      exact here
    have assertions := picked_fit fit ObjectMember.assertion? Node.assertion
      fun m a here picked => by
        cases m <;> cases picked
        exact here
    have fields := picked_fit fit ObjectMember.field? Node.field fun m f here picked => by
      cases m <;> cases picked
      exact here
    generalize members.filterMap ObjectMember.bind? = bs at binds ⊢
    generalize members.filterMap ObjectMember.assertion? = as at assertions ⊢
    generalize members.filterMap ObjectMember.field? = fs at fields ⊢
    refine Node.fitsIn_of rfl placed.proper ?_
    simpa [Node.parts, Expr.parts] using ⟨binds, assertions, fields⟩

theorem call_fits : Meets (asKind .call c) fun n => n.FitsIn c.range := by
  rw [asKind]
  simp only [meets_bind, meets_demandType]
  intro type
  split
  · simp
  · rename_i callee lighter rest members
    have child := mem_children_of members
    have called := expr_fits placed below (child ⟨callee, lighter⟩ (by simp))
    have args := rows_fit placed below (fun d row => child d (.tail _ row)) Node.arg
      fun d row e arg fits => fits.arg (placed.plain_arg (by simpa using type) members row arg)
    refine meets_bind.mpr (args.imp fun rows fit => ?_)
    generalize rows.flatten = args at fit ⊢
    refine Node.fitsIn_of rfl placed.proper ?_
    simpa [Node.parts, Expr.parts] using ⟨called, fit⟩

theorem listComp_fits : Meets (asKind .listComp c) fun n => n.FitsIn c.range := by
  rw [asKind]
  simp only [meets_bind, meets_demandType]
  intro _
  split
  · rename_i element lighter clause lighter' rest members
    have child := mem_children_of members
    have element := expr_fits placed below (child ⟨element, lighter⟩ (by simp))
    have isClause := child ⟨clause, lighter'⟩ (by simp)
    refine meets_bind.mpr ((part_fits placed below isClause).forSpec.imp fun clause here => ?_)
    have clauses := rows_fit placed below (fun d row => child d (.tail _ (.tail _ row)))
      CompSpec.node fun d row e _ fits => fits.compSpec
    refine meets_bind.mpr (clauses.imp fun rows fit => ?_)
    generalize rows.flatten = clauses at fit ⊢
    refine Node.fitsIn_of rfl placed.proper ?_
    simpa [Node.parts, Expr.parts] using
      ⟨element, here.mono (placed.child isClause).within, fit⟩
  · simp

theorem document_fits : Meets (asKind .document c) fun n => n.FitsIn c.range := by
  rw [asKind]
  simp only [meets_bind, meets_demandType]
  intro _
  split
  · rename_i body lighter _ members
    have body := member_fits placed below members ⟨body, lighter⟩ (by simp)
    exact Node.fitsIn_of rfl placed.proper (by simpa [Node.parts, Expr.parts])
  · simp

theorem array_fits : Meets (asKind .array c) fun n => n.FitsIn c.range := by
  rw [asKind]
  simp only [meets_bind, meets_demandType]
  intro _
  refine Node.fitsIn_of rfl placed.proper ?_
  simpa [Node.parts, Expr.parts] using member_fits placed below rfl

theorem unary_fits : Meets (asKind .unary c) fun n => n.FitsIn c.range := by
  rw [asKind]
  simp only [meets_bind, meets_demandType]
  intro _
  split
  · rename_i op operand lighter _ members
    have operand := member_fits placed below members ⟨operand, lighter⟩ (by simp)
    simp only [meets_bind]
    refine meets_demandText fun text => meets_operator fun op => ?_
    exact Node.fitsIn_of rfl placed.proper (by simpa [Node.parts, Expr.parts])
  · simp

theorem binary_fits : Meets (asKind .binary c) fun n => n.FitsIn c.range := by
  have joined {op : Operator} {lhs rhs : Expr} (left : (Node.expr lhs).FitsIn c.range)
      (right : (Node.expr rhs).FitsIn c.range) :
      (Node.expr (.binary c.range op lhs rhs)).FitsIn c.range :=
    Node.fitsIn_of rfl placed.proper (by simpa [Node.parts, Expr.parts] using ⟨left, right⟩)
  rw [asKind]
  simp only [meets_bind, meets_demandType]
  intro _
  split
  · split
    · rename_i lhs lighter op rhs lighter' _ members
      have operand := member_fits placed below members
      simp only [meets_bind]
      refine meets_demandText fun text => meets_operator fun op => ?_
      exact joined (operand ⟨lhs, lighter⟩ (by simp)) (operand ⟨rhs, lighter'⟩ (by simp))
    · simp
  · split
    · rename_i lhs lighter rhs lighter' _ members
      have operand := member_fits placed below members
      exact joined (operand ⟨lhs, lighter⟩ (by simp)) (operand ⟨rhs, lighter'⟩ (by simp))
    · simp

theorem localIn_fits : Meets (asKind .localIn c) fun n => n.FitsIn c.range := by
  rw [asKind]
  simp only [meets_bind, meets_demandType]
  intro _
  split
  · simp
  · rename_i keyword rest members
    have each (d : c.Below) (member : d ∈ rest.filter (·.1.type = "bind")) :
        Meets (bind d.1) fun b => (Node.bind b).FitsIn c.range := by
      have isBind := mem_children_of members d (.tail _ (List.mem_of_mem_filter member))
      exact (part_fits placed below isBind).bind.imp fun b fits =>
        fits.mono (placed.child isBind).within
    refine meets_bind.mpr ((meets_mapM each).imp fun binds fit => ?_)
    split
    · rename_i body lighter _ bodies
      have isBody : ⟨body, lighter⟩ ∈ rest :=
        List.mem_of_mem_filter (bodies ▸ List.mem_cons_self)
      have body := member_fits placed below members ⟨body, lighter⟩ (.tail _ isBody)
      refine Node.fitsIn_of rfl placed.proper ?_
      simpa [Node.parts, Expr.parts] using ⟨fit, body⟩
    · simp

theorem fieldAccess_fits : Meets (asKind .fieldAccess c) fun n => n.FitsIn c.range := by
  rw [asKind]
  simp only [meets_bind, meets_demandType]
  intro _
  split
  · rename_i obj lighter name members
    have obj := member_fits placed below members ⟨obj, lighter⟩ (by simp)
    have isName := mem_children_of members name (by simp)
    refine meets_bind.mpr (meets_ident.imp fun id same => ?_)
    have ref : (Node.fieldRef id).FitsIn c.range :=
      leaf_fits placed isName same (by simp [Node.parts, Part.nodes])
    exact Node.fitsIn_of rfl placed.proper (by simpa [Node.parts, Expr.parts] using ⟨obj, ref⟩)
  · simp

theorem slice_fits : Meets (asKind .slice c) fun n => n.FitsIn c.range := by
  rw [asKind]
  simp only [meets_bind, meets_demandType]
  intro _
  split
  · rename_i array lighter start lighter' rest members
    have bound := member_fits placed below members
    have array := bound ⟨array, lighter⟩ (by simp)
    have start := bound ⟨start, lighter'⟩ (by simp)
    split
    · rename_i stop lighter'' step lighter'''
      have stop := bound ⟨stop, lighter''⟩ (by simp)
      have step := bound ⟨step, lighter'''⟩ (by simp)
      refine Node.fitsIn_of rfl placed.proper ?_
      simpa [Node.parts, Expr.parts, Part.ofOption] using ⟨array, start, stop, step⟩
    · rename_i stop lighter''
      have stop := bound ⟨stop, lighter''⟩ (by simp)
      refine Node.fitsIn_of rfl placed.proper ?_
      simpa [Node.parts, Expr.parts, Part.ofOption] using ⟨array, start, stop⟩
    · refine Node.fitsIn_of rfl placed.proper ?_
      simpa [Node.parts, Expr.parts, Part.ofOption] using ⟨array, start⟩
  · simp

theorem cond_fits : Meets (asKind .cond c) fun n => n.FitsIn c.range := by
  rw [asKind]
  simp only [meets_bind, meets_demandType]
  intro _
  split
  · rename_i condition lighter consequence lighter' rest members
    have branch := member_fits placed below members
    have condition := branch ⟨condition, lighter⟩ (by simp)
    have consequence := branch ⟨consequence, lighter'⟩ (by simp)
    split
    · rename_i alternative lighter'' _
      have alternative := branch ⟨alternative, lighter''⟩ (by simp)
      refine Node.fitsIn_of rfl placed.proper ?_
      simpa [Node.parts, Expr.parts] using ⟨condition, consequence, alternative⟩
    · refine Node.fitsIn_of rfl placed.proper ?_
      simpa [Node.parts, Expr.parts] using ⟨condition, consequence⟩
  · simp

theorem assertIn_fits : Meets (asKind .assertIn c) fun n => n.FitsIn (c.reach outer) := by
  rw [asKind]
  refine meets_bind.mpr ((assertion_fits placed below).imp fun a read => ?_)
  obtain ⟨type, same, inFront⟩ := read
  split
  · rename_i body lighter next
    obtain ⟨behind, follows⟩ := placed.sibling (List.mem_of_find?_eq_some next)
    have fits := below body lighter outer behind
    have stops := (Range.contains_iff.mp (fits.expr.mono behind.reach_within).inside).2
    have begins : c.range.start ≤ body.range.start := Position.le_trans placed.proper follows
    have ordered : c.range.start ≤ (expr body).range.stop := Position.le_trans begins fits.stops
    have before := fits.before
      (inFront.mono (Range.contains_iff.mpr ⟨Position.le_refl c.range.start, follows⟩))
    rw [reach, if_pos type]
    refine meets_bind.mpr (meets_merge (by rwa [same]) ?_)
    rw [same]
    refine ⟨Range.contains_iff.mpr ⟨Position.le_refl _, stops⟩, ?_⟩
    refine Node.nests_iff.mpr ⟨ordered, ?_⟩
    simpa [Node.parts, Expr.parts, Node.range, Expr.range] using ⟨before, fits.last begins⟩
  · simp

/-- Only an assertion with its body reaches past the node that it is read from. -/
theorem asKind_fits (kind : Kind) : Meets (asKind kind c) fun n => n.FitsIn (c.reach outer) := by
  have whole {n : Node} (fits : n.FitsIn c.range) : n.FitsIn (c.reach outer) :=
    fits.mono placed.within_reach
  have leaf {n : Node} (same : n.range = c.range)
      (fits : ∀ p ∈ n.parts, Node.PartFitsIn c.range p) : n.FitsIn (c.reach outer) :=
    whole (Node.fitsIn_of same placed.proper fits)
  cases kind with
  | assertIn => exact assertIn_fits placed below
  | document => exact (document_fits placed below).imp fun n => whole
  | array => exact (array_fits placed below).imp fun n => whole
  | unary => exact (unary_fits placed below).imp fun n => whole
  | binary => exact (binary_fits placed below).imp fun n => whole
  | localIn => exact (localIn_fits placed below).imp fun n => whole
  | fn => exact (fn_fits placed below).imp fun n => whole
  | call => exact (call_fits placed below).imp fun n => whole
  | listComp => exact (listComp_fits placed below).imp fun n => whole
  | importFile => exact (importFile_fits placed).imp fun n => whole
  | object => exact (object_fits placed below).imp fun n => whole
  | fieldAccess => exact (fieldAccess_fits placed below).imp fun n => whole
  | slice => exact (slice_fits placed below).imp fun n => whole
  | cond => exact (cond_fits placed below).imp fun n => whole
  | objComp =>
      rw [asKind]
      exact meets_bind.mpr ((objComp_fits placed below).imp fun e => whole)
  | bind =>
      rw [asKind]
      exact meets_bind.mpr ((bind_fits placed below).imp fun b => whole)
  | param =>
      rw [asKind]
      exact meets_bind.mpr ((param_fits placed below).imp fun p => whole)
  | arg =>
      rw [asKind]
      exact meets_bind.mpr ((namedArg_fits placed below).imp fun a => whole)
  | forSpec =>
      rw [asKind]
      exact meets_bind.mpr ((forSpec_fits placed below).imp fun s => whole)
  | ifSpec =>
      rw [asKind]
      exact meets_bind.mpr ((ifSpec_fits placed below).imp fun s => whole)
  | assertion =>
      rw [asKind]
      exact meets_bind.mpr ((assertion_fits placed below).imp fun a read => whole read.2.2)
  | fixedKey | computedKey =>
      rw [asKind]
      exact meets_bind.mpr ((key_fits placed below).imp fun k => whole)
  | field =>
      rw [asKind]
      exact meets_bind.mpr ((field_fits placed below).imp fun f => whole)
  | null | dollar | self | super =>
      rw [asKind]
      simp only [meets_bind, meets_demandType]
      exact fun _ => leaf rfl (by simp [Node.parts, Expr.parts])
  | var | varRef | fieldName | fieldRef | paramRef =>
      rw [asKind]
      refine meets_bind.mpr (meets_ident.imp fun id same => ?_)
      exact leaf same (by simp [Node.parts, Expr.parts])
  | num =>
      rw [asKind]
      simp only [meets_bind, meets_demandType]
      intro _
      refine meets_demandText fun text => ?_
      split
      · exact leaf rfl (by simp [Node.parts, Expr.parts])
      · simp
  | str | importee =>
      rw [asKind]
      refine meets_bind.mpr (meets_string fun value => ?_)
      exact leaf rfl (by simp [Node.parts, Expr.parts])
  | bool =>
      rw [asKind]
      simp only [meets_bind, meets_demandType]
      intro _
      refine meets_demandText fun text => ?_
      exact leaf rfl (by simp [Node.parts, Expr.parts])
  | unknown | malformed | misplaced =>
      rw [asKind]
      exact leaf rfl (by simp [Node.parts, Expr.parts])

theorem form_fits : Meets (form c) fun n => n.FitsIn (c.reach outer) := by
  rw [form]
  split
  · split
    · rename_i inner lighter _ members
      have inner := member_fits placed below members ⟨inner, lighter⟩ (by simp)
      exact inner.mono placed.within_reach
    · simp
  · split
    · exact asKind_fits placed below _
    · have unknown : (Node.expr (.unknown c.range)).FitsIn c.range :=
        Node.fitsIn_of rfl placed.proper (by simp [Node.parts, Expr.parts])
      exact unknown.mono placed.within_reach

theorem node_fits : (node c).FitsIn (c.reach outer) := by
  have formed := form_fits placed below
  rw [node]
  split
  · rename_i n read
    rwa [read] at formed
  · have malformed : (Node.expr (.malformed c.range c.type)).FitsIn c.range :=
      Node.fitsIn_of rfl placed.proper (by simp [Node.parts, Expr.parts])
    exact malformed.mono placed.within_reach

theorem whole_fits : (Node.expr (expr c)).FitsIn (c.reach outer) := by
  have read := node_fits placed below
  rw [expr]
  split
  · rename_i e isExpr
    rwa [isExpr] at read
  · have misplaced : (Node.expr (.misplaced c.range c.type)).FitsIn c.range :=
      Node.fitsIn_of rfl placed.proper (by simp [Node.parts, Expr.parts])
    exact misplaced.mono placed.within_reach

theorem arg_fits (plain : c.type ≠ "assert") :
    Meets (arg c) fun a => (Node.arg a).FitsIn c.range := by
  rw [arg]
  split
  · exact namedArg_fits placed below
  · have value := whole_fits placed below
    rw [reach, if_neg plain] at value
    exact Node.fitsIn_of rfl placed.proper (by simpa [Node.parts])

end Kinds

/-- What is read at a cursor in nested ranges lies where it should. The recursion is on the weight,
    which falls both to the children of a node and to the siblings after it. -/
theorem fits {c : Cursor} {outer : Range} (placed : c.Placed outer) : Fits c outer := by
  have below : FitBelow c.weight := fun d lighter inner inside => fits inside
  exact
    { expr := whole_fits placed below
      bind := bind_fits placed below
      param := param_fits placed below
      arg := arg_fits placed below
      forSpec := forSpec_fits placed below
      compSpec := compSpec_fits placed below
      assertion := (assertion_fits placed below).imp fun a read => read.2.2
      key := key_fits placed below
      field := field_fits placed below
      objectLocal := objectLocal_fits placed below
      objectMember := objectMember_fits placed below }
termination_by c.weight

theorem fitBelow (weight : Nat) : FitBelow weight :=
  fun _ _ _ placed => fits placed

/-- Whatever class a node is read as, no two of its ranges are out of order. -/
theorem asClass_ordered {c : Cursor} {outer : Range} (placed : c.Placed outer) (cls : NodeClass) :
    asClass cls c ≠ .error .rangesOutOfOrder := by
  have below := fitBelow c.weight
  refine Meets.ne (P := fun _ => True) ?_
  unfold asClass
  split
  · trivial
  · trivial
  · exact meets_bind.mpr ((key_fits placed below).imp fun _ _ => trivial)
  · refine meets_bind.mpr ?_
    rw [arg]
    split
    · exact (namedArg_fits placed below).imp fun _ _ => trivial
    · trivial
  · exact (asKind_fits placed below _).imp fun _ _ => trivial

end Build

namespace Document

/-- A document can be built from a node of its type with a part for its body. -/
theorem exists_ofParseTree {uri : Uri} {tree : ParseTree} :
    (∃ d, ofParseTree uri tree = .ok d) ↔ tree.type = "document" ∧ tree.members ≠ [] := by
  have nodes : _ = tree.members := (Cursor.ofRoot tree).map_tree_members
  rw [← nodes, ofParseTree, Build.asKind, Build.demandType]
  change _ ↔ (Cursor.ofRoot tree).type = "document" ∧ _
  by_cases type : (Cursor.ofRoot tree).type = "document"
  · rw [if_pos (by simp [type])]
    cases members : (Cursor.ofRoot tree).members with
    | nil => simp [bind, Except.bind, pure, Except.pure, throw, throwThe, MonadExceptOf.throw]
    | cons body _ => simp [bind, Except.bind, pure, Except.pure, type]
  · rw [if_neg (by simp [type])]
    simp [bind, Except.bind, type, throw, throwThe, MonadExceptOf.throw]

/-- The ranges of a document nest if those of its parse tree do. Nothing below the root is misread
    because two ranges that are merged are out of order. -/
theorem ranges_nest {tree : ParseTree} (nests : tree.Nests) (plain : tree.PlainArgs) :
    (∀ uri, (∃ d, ofParseTree uri tree = .ok d) ↔ tree.type = "document" ∧ tree.members ≠ []) ∧
      (∀ uri d, ofParseTree uri tree = .ok d → ∀ s ∈ d.sites,
        s.range.start ≤ s.range.stop ∧
          ∀ t ∈ s.children, s.range.contains t.range = true ∧ t.location.uri = s.location.uri) ∧
      ∀ path c, (Cursor.ofRoot tree).descend? path = some c →
        Build.form c ≠ .error .rangesOutOfOrder ∧
          ∀ cls, Build.asClass cls c ≠ .error .rangesOutOfOrder := by
  have placed := Cursor.placed_root nests plain
  refine ⟨fun uri => exists_ofParseTree, fun uri d done s inside => ?_, fun path c down => ?_⟩
  · obtain ⟨n, root, done⟩ := Except.bind_eq_ok.mp done
    cases done
    have whole := (Build.document_fits placed (Build.fitBelow _)).yields n root
    obtain ⟨proper, nested⟩ := Site.nested_of_nests whole.nests inside
    refine ⟨proper, fun t child => ⟨nested t child, ?_⟩⟩
    obtain ⟨edge, -, rfl⟩ := Site.mem_children.mp child
    rfl
  · obtain ⟨outer, placed⟩ := placed.descend down
    exact ⟨(Build.form_fits placed (Build.fitBelow _)).ne,
      Build.asClass_ordered placed⟩

/-- The tree of `{f(): (assert true; function() null)}`, with three ranges to merge. -/
def measuredTree : ParseTree :=
  let node (type : String) (start stop : Nat) (children : List ParseTree) : ParseTree :=
    { type := type, range := Range.ofNats 0 start 0 stop, children := children }
  let mark (start : Nat) (text : String) : ParseTree :=
    { Build.wordTree text start text with named := false }
  let name : ParseTree :=
    { node "fieldname" 1 2 [Build.wordTree "id" 1 "f"] with field := "function" }
  let body := node "parenthesis" 6 36
    [mark 6 "(", Build.assertTree 7, mark 18 ";",
      node "anonymous_function" 20 35
        [mark 20 "function", mark 28 "(", mark 29 ")", Build.nullTree 31],
      mark 35 ")"]
  node "document" 0 37
    [node "object" 0 37
      [mark 0 "\x7b",
        node "member" 1 36 [node "field" 1 36 [name, mark 2 "(", mark 3 ")", mark 4 ":", body]],
        mark 36 "\x7d"]]

def measuredDocument : Document :=
  let inner : Expr := .fn (Range.ofNats 0 20 0 35) [] (.null (Range.ofNats 0 31 0 35))
  let asserted : Expr := .assertIn (Range.ofNats 0 7 0 35)
    ⟨Range.ofNats 0 7 0 18, .bool (Range.ofNats 0 14 0 18) true, none⟩ inner
  let field : Field :=
    { range := Range.ofNats 0 1 0 36
      key := .fixed (Range.ofNats 0 1 0 2) ⟨Range.ofNats 0 1 0 2, .ofString "f"⟩
      value := .fn (Range.ofNats 0 2 0 35) [] asserted
      visibility := .default
      inherited := false }
  { uri := "file:///x"
    root := .expr
      (.document (Range.ofNats 0 0 0 37) (.object (Range.ofNats 0 0 0 37) [] [] [field])) }

theorem measured_ranges_nest :
    measuredTree.Nests ∧ measuredTree.PlainArgs ∧
    ofParseTree "file:///x" measuredTree = .ok measuredDocument ∧
    (∀ s ∈ measuredDocument.sites, ∀ t ∈ s.children, s.range.contains t.range = true) ∧
    ∃ c, (Cursor.ofRoot measuredTree).descend? [0, 1, 0, 4, 1] = some c ∧ c.type = "assert" ∧
      Build.form c ≠ .error .rangesOutOfOrder := by
  have nests : measuredTree.Nests := by decide +kernel
  have plain : measuredTree.PlainArgs := by decide +kernel
  have done : ofParseTree "file:///x" measuredTree = .ok measuredDocument := by cbv
  obtain ⟨-, nested, ordered⟩ := ranges_nest nests plain
  refine ⟨nests, plain, done, fun s inside t child => ?_, _, rfl, rfl,
    (ordered [0, 1, 0, 4, 1] _ rfl).1⟩
  exact ((nested _ _ done s inside).2 t child).1

end Document

end JsonnetNav
