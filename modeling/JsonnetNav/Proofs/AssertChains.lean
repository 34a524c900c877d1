import JsonnetNav.Proofs.NestedTrees
import JsonnetNav.Proofs.TailPositions
import Mathlib

/-! # Chains of assertions

An assertion is about the next sibling that is named and no extra node. Where that sibling is an
assertion too, it is read in turn together with what it is about. So a run of assertions gives
one expression, nested to the right, around the node at the end of the run.
-/

namespace JsonnetNav

namespace Cursor

/-- An assertion in front of the node can be about it. -/
def isSubject (d : Cursor) : Bool :=
  d.tree.named && !d.tree.extra

/-- A row of siblings that begins with these assertions and then comes to the node that the last
    one is about. Between them stand nodes that an assertion passes over. -/
inductive AssertRun : List Cursor → Cursor → List Cursor → Prop where
  | body {b : Cursor} {row : List Cursor} (subject : b.isSubject) (plain : b.type ≠ "assert") :
      AssertRun [] b (b :: row)
  | passOver {d b : Cursor} {asserts row : List Cursor} (passed : d.isSubject = false) :
      AssertRun asserts b row → AssertRun asserts b (d :: row)
  | assert {a b : Cursor} {asserts row : List Cursor} (subject : a.isSubject)
      (type : a.type = "assert") (parts : a.members.length = 1 ∨ a.members.length = 2) :
      AssertRun asserts b row → AssertRun (a :: asserts) b (a :: row)

theorem AssertRun.find?_isSubject {asserts row : List Cursor} {b : Cursor}
    (run : AssertRun asserts b row) : row.find? isSubject = (asserts ++ [b]).head? := by
  induction run with
  | body subject _ => exact List.find?_cons_of_pos subject
  | passOver passed _ ih => rw [List.find?_cons_of_neg (by simp [passed]), ih]
  | assert subject _ _ _ _ => exact List.find?_cons_of_pos subject

theorem AssertRun.isAssert {asserts row : List Cursor} {b : Cursor}
    (run : AssertRun asserts b row) : ∀ a ∈ asserts, a.type = "assert" := by
  induction run with
  | body _ _ => simp
  | passOver _ _ ih => exact ih
  | assert _ type _ _ ih => exact List.forall_mem_cons.mpr ⟨type, ih⟩

/-- A cursor in a row knows the rest of the row. -/
theorem row_after {trees : List ParseTree} {d : Cursor} {rest : List Cursor}
    (suffix : d :: rest <:+ row trees) : row d.after = rest := by
  induction trees with
  | nil => cases List.suffix_nil.mp suffix
  | cons t ts ih =>
      rcases List.suffix_cons_iff.mp suffix with whole | later
      · cases whole
        rfl
      · exact ih later

end Cursor

namespace Expr

/-- Assertions around an expression, the first one outermost. All of them stop where the
    expression does. -/
def asserted : List Assertion → Expr → Expr
  | [], e => e
  | a :: as, e => .assertIn ⟨a.range.start, e.range.stop⟩ a (asserted as e)

theorem stop_asserted (as : List Assertion) (e : Expr) :
    (asserted as e).range.stop = e.range.stop := by
  cases as <;> rfl

end Expr

namespace Build

open Cursor

theorem exists_assertion {c : Cursor} (type : c.type = "assert")
    (parts : c.members.length = 1 ∨ c.members.length = 2) : ∃ a, assertion c = .ok a := by
  rcases parts with one | two
  · obtain ⟨condition, members⟩ := List.length_eq_one_iff.mp one
    exact ⟨_, @read_assertion _ condition.1 none type (by rw [members]; rfl)⟩
  · obtain ⟨condition, message, members⟩ := List.length_eq_two.mp two
    exact ⟨_, @read_assertion _ condition.1 (some message.1) type (by rw [members]; rfl)⟩

/-- An assertion with its body is an expression, also when it cannot be read. -/
theorem node_assert {c : Cursor} (type : c.type = "assert") : node c = .expr (expr c) := by
  have isExpr : ∃ e, node c = .expr e := by
    rw [node, form_of_type (show Kind.ofType? c.type = some .assertIn by rw [type]; rfl)]
    split
    · rename_i n read
      rw [asKind] at read
      obtain ⟨a, -, read⟩ := Except.bind_eq_ok.mp read
      split at read
      · obtain ⟨range, -, read⟩ := Except.bind_eq_ok.mp read
        cases read
        exact ⟨_, rfl⟩
      · cases read
    · exact ⟨_, rfl⟩
  obtain ⟨e, same⟩ := isExpr
  rw [expr, same]

variable {p : ParseTree} (nests : p.Nests)

include nests

/-- In nested ranges an assertion precedes what its run comes to next. -/
theorem precedes_run {d e b : Cursor} {asserts rest : List Cursor}
    (among : d :: rest <:+ row p.children) (run : AssertRun asserts b rest)
    (next : (asserts ++ [b]).head? = some e) : d.Precedes e ∧ e.tree.inOrder := by
  have found : (row d.after).find? isSubject = some e := by
    rw [row_after among, run.find?_isSubject, next]
  have isChild {f : Cursor} (member : f ∈ d :: rest) : f.tree ∈ p.children :=
    tree_mem_of_mem_row (among.subset member)
  have later : e ∈ rest := row_after among ▸ List.mem_of_find?_eq_some found
  have ordered := nests.ordered p p.mem_nodes_self
  rw [← map_tree_row p.children, List.pairwise_map] at ordered
  have follows := (List.pairwise_cons.mp (ordered.sublist among.sublist)).1 e later
  have proper := (nests.child (isChild (.head _))).proper _ (ParseTree.mem_nodes_self _)
  refine ⟨⟨?_, Position.le_trans proper follows⟩, (nests.child (isChild (.tail _ later))).inOrder⟩
  exact (find?_attachWith _ isSubject).trans found

/-- Where a run begins, all of it is read. -/
theorem expr_of_run {b : Cursor} {asserts siblings : List Cursor}
    (run : AssertRun asserts b siblings) (among : siblings <:+ row p.children) :
    ∃ as, List.Forall₂ (fun d a => assertion d = .ok a) asserts as ∧
      ∀ e, (asserts ++ [b]).head? = some e → expr e = .asserted as (expr b) := by
  -- the end of the run is read first: an assertion is merged with what is behind it
  induction run with
  | body _ _ =>
      refine ⟨[], .nil, fun e first => ?_⟩
      cases first
      rfl
  | passOver _ _ ih => exact ih ((List.suffix_cons ..).trans among)
  | @assert a b asserts rest _ type parts run ih =>
      obtain ⟨as, reads, inner⟩ := ih ((List.suffix_cons ..).trans among)
      obtain ⟨first, here⟩ := exists_assertion type parts
      refine ⟨first :: as, .cons here reads, fun e begins => ?_⟩
      cases begins
      obtain ⟨next, comes⟩ : ∃ next, (asserts ++ [b]).head? = some next := by
        cases asserts <;> exact ⟨_, rfl⟩
      obtain ⟨precedes, ordered⟩ := precedes_run nests among run comes
      rw [read_assertIn type here precedes ordered, inner next comes, Expr.stop_asserted,
        ← assertion_range a first here]
      rfl

end Build

namespace Site

/-- The site that an assertion is about. -/
def intoBody (s : Site) : Site :=
  match s.node with
  | .expr (.assertIn _ _ body) => s.part .body (.expr body)
  | _ => s

theorem intoBody_assertIn {s : Site} {r : Range} {a : Assertion} {e : Expr}
    (here : s.node = .expr (.assertIn r a e)) : s.intoBody = s.part .body (.expr e) := by
  rw [intoBody, here]

theorem tails_intoBody (s : Site) : s.intoBody.tails = s.tails := by
  unfold intoBody
  split
  · rename_i here
    obtain ⟨uri, node, above⟩ := s
    cases here
    conv_rhs => rw [tails]
  · rfl

theorem intoBody_asserted {s : Site} {as : List Assertion} {e : Expr}
    (here : s.node = .expr (.asserted as e)) {i : Nat} (few : i ≤ as.length) :
    (intoBody^[i] s).uri = s.uri ∧ (intoBody^[i] s).node = .expr (.asserted (as.drop i) e) ∧
      (intoBody^[i] s).tails = s.tails := by
  induction i with
  | zero => exact ⟨rfl, here, rfl⟩
  | succ i ih =>
      obtain ⟨uri, node, tails⟩ := ih (Nat.le_of_succ_le few)
      rw [Function.iterate_succ_apply', tails_intoBody]
      rw [List.drop_eq_getElem_cons few, Expr.asserted] at node
      rw [intoBody_assertIn node]
      exact ⟨uri, rfl, tails⟩

end Site

namespace Build

open Cursor Site

/-- Reading the first assertion of a run gives all of them, nested to the right around what the run
    comes to. Each level reaches to the end of that expression and has its tails. -/
theorem asserts_nest {p : ParseTree} (nests : p.Nests) {first b : Cursor}
    {rest siblings : List Cursor} (among : siblings <:+ row p.children)
    (run : AssertRun (first :: rest) b siblings) :
    ∃ as, List.Forall₂ (fun d a => assertion d = .ok a) (first :: rest) as ∧
      node first = .expr (.asserted as (expr b)) ∧
      ∀ s : Site, s.node = node first →
        (intoBody^[rest.length + 1] s).node = .expr (expr b) ∧
        ∀ i d, (first :: rest)[i]? = some d →
          (intoBody^[i] s).node = .expr (.asserted (as.drop i) (expr b)) ∧
          (intoBody^[i] s).location = ⟨s.uri, d.range.start, (expr b).range.stop⟩ ∧
          (intoBody^[i] s).tails = (intoBody^[rest.length + 1] s).tails := by
  obtain ⟨as, reads, whole⟩ := expr_of_run nests run among
  have read : node first = .expr (.asserted as (expr b)) := by
    rw [node_assert (run.isAssert first (.head _)), whole first rfl]
  have count : as.length = rest.length + 1 := reads.length_eq.symm
  refine ⟨as, reads, read, fun s here => ?_⟩
  have level {i : Nat} (few : i ≤ rest.length + 1) :=
    intoBody_asserted (here.trans read) (count ▸ few)
  obtain ⟨-, body, sameTails⟩ := level (Nat.le_refl _)
  rw [← count, List.drop_length] at body
  refine ⟨count ▸ body, fun i d isAt => ?_⟩
  obtain ⟨inRun, isAt⟩ := List.getElem?_eq_some_iff.mp isAt
  obtain ⟨uri, node, tails⟩ := level (Nat.le_of_lt inRun)
  refine ⟨node, ?_, tails.trans sameTails.symm⟩
  have lower : i < as.length := count ▸ inRun
  have same : as[i].range = d.range := isAt ▸ assertion_range _ _ (reads.get inRun lower)
  rw [location, uri, Site.range, node, List.drop_eq_getElem_cons lower, Expr.asserted]
  simp [Node.range, Expr.range, same]

/-- The tree of `(assert true; /* */ assert true; null)`. -/
def chainTree : ParseTree :=
  let mark (start : Nat) (text : String) : ParseTree :=
    { wordTree text start text with named := false }
  { type := "parenthesis", range := Range.ofNats 0 0 0 38
    children :=
      [mark 0 "(", assertTree 1, mark 12 ";", { wordTree "comment" 14 "/* */" with extra := true },
        assertTree 20, mark 31 ";", nullTree 33, mark 37 ")"] }

def chainAssertion (start : Nat) : Assertion :=
  ⟨Range.ofNats 0 start 0 (start + 11), .bool (Range.ofNats 0 (start + 7) 0 (start + 11)) true,
    none⟩

theorem assertion_assertTree (start : Nat) (after : List ParseTree) :
    assertion ⟨assertTree start, after⟩ = .ok (chainAssertion start) := by
  have condition : expr ⟨wordTree "true" (start + 7) "true", []⟩ =
      .bool (Range.ofNats 0 (start + 7) 0 (start + 11)) true := by cbv
  rw [@read_assertion _ ⟨wordTree "true" (start + 7) "true", []⟩ none rfl rfl, condition]
  rfl

theorem chain_asserts_nest : chainTree.Nests ∧
    ∃ first second b, (row chainTree.children)[1]? = some first ∧
      AssertRun [first, second] b (row chainTree.children) ∧
      node first = .expr (.assertIn (Range.ofNats 0 1 0 37) (chainAssertion 1)
        (.assertIn (Range.ofNats 0 20 0 37) (chainAssertion 20) (.null (Range.ofNats 0 33 0 37)))) ∧
      Site.tails ⟨"file:///x", node first, []⟩ =
        (intoBody (intoBody ⟨"file:///x", node first, []⟩)).tails := by
  have nests : chainTree.Nests := by decide +kernel
  have run : AssertRun [_, _] _ (row chainTree.children) :=
    .passOver rfl <| .assert rfl rfl (.inl rfl) <| .passOver rfl <| .passOver rfl <|
      .assert rfl rfl (.inl rfl) <| .passOver rfl <| .body rfl (by decide)
  obtain ⟨as, reads, whole, levels⟩ := asserts_nest nests (List.suffix_refl _) run
  have read : as = [chainAssertion 1, chainAssertion 20] := by
    simpa [List.forall₂_cons_left_iff, assertion_assertTree, eq_comm] using reads
  refine ⟨nests, _, _, _, rfl, run, ?_, ((levels _ rfl).2 0 _ rfl).2.2⟩
  rw [whole, read]
  cbv

end Build

end JsonnetNav
