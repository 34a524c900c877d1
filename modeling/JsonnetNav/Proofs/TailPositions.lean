import JsonnetNav.Proofs.References
import Mathlib

/-! # Tails and the expressions they are tails of

The tails of an expression are found by going down through tail positions until there are none,
and the expressions that a node is a tail of by leaving tail positions upwards. Both ways follow
the same steps, so each is the inverse of the other.
-/

namespace JsonnetNav

namespace Site

open Relation

/-- The site is in tail position in the node around it. -/
def inTail (s : Site) : Bool :=
  match s.above with
  | (step, node) :: _ => isTailEdge node step
  | [] => false

/-- The second site is a child of the first, in tail position. -/
def TailStep (s c : Site) : Prop :=
  c ∈ s.children ∧ c.inTail

/-- The first site lies below the second. -/
def Inside (inner outer : Site) : Prop :=
  inner ∈ outer.preorder ∧ inner ≠ outer

theorem hasTailPosition_of_edge {node : Node} {step : Step} (edge : isTailEdge node step) :
    hasTailPosition node := by
  cases node with
  | expr e =>
      cases e with
      | document | localIn | assertIn | cond => rfl
      | _ => cases edge
  | _ => cases edge

theorem TailStep.hasTailPosition {s c : Site} (step : s.TailStep c) : hasTailPosition s.node := by
  obtain ⟨child, inTail⟩ := step
  obtain ⟨edge, -, rfl⟩ := mem_children.mp child
  exact hasTailPosition_of_edge inTail

theorem TailStep.inside {s c : Site} (step : s.TailStep c) : c ∈ s.preorder :=
  mem_preorder_of_child step.1

/-- Which edges lead into tail positions is a matter of their roles. -/
theorem filter_inPart (s : Site) (p : Part) :
    (s.inPart p).filter inTail =
      if p.role?.any (fun role => isTailEdge s.node ⟨role, 0⟩) then s.inPart p else [] := by
  have sameEdge (role : Role) (i : Nat) :
      isTailEdge s.node ⟨role, i⟩ = isTailEdge s.node ⟨role, 0⟩ := by
    unfold isTailEdge
    split <;> rfl
  cases p with
  | leaf label value => simp [inPart]
  | child role node =>
      cases tail : isTailEdge s.node ⟨role, 0⟩ <;>
        simp [inPart, Part.role?, part, down, inTail, tail]
  | children role nodes =>
      have all : ∀ c ∈ s.row role nodes, inTail c = isTailEdge s.node ⟨role, 0⟩ := by
        intro c member
        obtain ⟨i, bound, rfl⟩ := List.mem_mapIdx.mp member
        exact sameEdge role i
      cases tail : isTailEdge s.node ⟨role, 0⟩ with
      | false =>
          simp only [inPart, Part.role?, Option.any_some, tail]
          exact List.filter_eq_nil_iff.mpr fun c member => by simp [all c member, tail]
      | true =>
          simp only [inPart, Part.role?, Option.any_some, tail]
          exact List.filter_eq_self.mpr fun c member => by simp [all c member, tail]

/-- The tails of an expression with tail positions are those of the children there. -/
theorem tails_eq (s : Site) :
    s.tails = if hasTailPosition s.node then (s.children.filter inTail).flatMap tails else [s] := by
  rw [children_eq, List.filter_flatMap]
  simp only [filter_inPart]
  rw [tails]
  obtain ⟨uri, node, above⟩ := s
  cases node with
  | expr e =>
      cases e with
      | document | localIn | assertIn =>
          simp [hasTailPosition, Node.parts, Expr.parts, inPart, Part.role?, isTailEdge]
      | cond range condition consequence alternative =>
          cases alternative <;>
            simp [hasTailPosition, Node.parts, Expr.parts, Part.ofOption, inPart, Part.role?,
              isTailEdge]
      | _ => simp [hasTailPosition]
  | _ => simp [hasTailPosition]

theorem tails_of_tail {s : Site} (last : hasTailPosition s.node = false) : s.tails = [s] := by
  rw [tails_eq, last]
  rfl

theorem tails_ne_nil (s : Site) : s.tails ≠ [] := by
  fun_induction tails s with
  | case1 s range body node ih => exact ih
  | case2 s range binds body node ih => exact ih
  | case3 s range assertion body node ih => exact ih
  | case4 s range condition consequence alternative node ih ih' =>
      exact List.append_ne_nil_of_left_ne_nil ih _
  | case5 s => simp

/-- Tails come in the order of the document. -/
theorem tails_sublist (s : Site) : s.tails.Sublist s.preorder := by
  rw [tails_eq, preorder_eq]
  split
  · have below : ∀ c ∈ s.children, c.tails.Sublist c.preorder := by
      intro c child
      have smaller := sizeOf_child child
      exact tails_sublist c
    have inTails := List.filter_sublist (p := inTail) (l := s.children)
    exact ((inTails.flatMap tails).trans (List.Sublist.flatMap_right _ below)).cons s
  · exact (List.nil_sublist _).cons_cons s
termination_by sizeOf s.node

theorem mem_preorder_of_tails {s t : Site} (member : t ∈ s.tails) : t ∈ s.preorder :=
  s.tails_sublist.subset member

/-- The tails are where steps into tail positions end. -/
theorem mem_tails {s t : Site} :
    t ∈ s.tails ↔ hasTailPosition t.node = false ∧ ReflTransGen TailStep s t := by
  rw [tails_eq]
  split
  · rename_i some
    rw [List.mem_flatMap]
    constructor
    · rintro ⟨c, member, below⟩
      obtain ⟨child, inTail⟩ := List.mem_filter.mp member
      have smaller := sizeOf_child child
      obtain ⟨last, way⟩ := mem_tails.mp below
      exact ⟨last, .head ⟨child, inTail⟩ way⟩
    · rintro ⟨last, way⟩
      rcases way.cases_head with rfl | ⟨c, step, rest⟩
      · rw [last] at some
        cases some
      · have smaller := sizeOf_child step.1
        exact ⟨c, List.mem_filter.mpr step, mem_tails.mpr ⟨last, rest⟩⟩
  · rename_i none
    rw [List.mem_singleton]
    constructor
    · rintro rfl
      exact ⟨by simpa using none, .refl⟩
    · rintro ⟨-, way⟩
      rcases way.cases_head with rfl | ⟨c, step, -⟩
      · rfl
      · exact absurd step.hasTailPosition none
termination_by sizeOf s.node

theorem outOfTail_child {s c : Site} (child : c ∈ s.children) :
    outOfTail c.uri c.above = if c.inTail then s :: outOfTail s.uri s.above else [] := by
  obtain ⟨edge, -, rfl⟩ := mem_children.mp child
  rfl

theorem tailOf_sublist (t : Site) : t.tailOf.Sublist (outOfTail t.uri t.above) := by
  rw [tailOf]
  split
  · exact List.nil_sublist _
  · exact List.Sublist.refl _

theorem inside_of_transGen {s t : Site} (way : TransGen TailStep s t) : t.Inside s := by
  obtain ⟨c, step, rest⟩ := TransGen.head'_iff.mp way
  have below : t ∈ c.preorder := by
    clear way
    induction rest with
    | refl => exact mem_preorder_self c
    | tail _ last ih => exact mem_preorder_trans ih last.inside
  refine ⟨mem_preorder_trans step.inside below, ?_⟩
  rintro rfl
  exact path_ne_of_below step.1 below rfl

theorem eq_parent {s p c : Site} (child : c ∈ s.children) (child' : c ∈ p.children) : s = p := by
  have parent := parent_of_mem_children child
  rw [parent_of_mem_children child'] at parent
  exact (Option.some.inj parent).symm

section Root

variable {root : Site} (top : root.above = [])

include top

/-- Leaving tail positions outwards leads to where steps into tail positions come from. -/
theorem mem_outOfTail {t : Site} (inside : t ∈ root.preorder) (e : Site) :
    e ∈ outOfTail t.uri t.above ↔ TransGen TailStep e t := by
  refine preorder_induction (motive := fun t => e ∈ outOfTail t.uri t.above ↔ TransGen TailStep e t)
    ?_ ?_ t inside
  · rw [top, TransGen.tail'_iff]
    simp only [outOfTail, List.not_mem_nil, false_iff]
    rintro ⟨b, -, step⟩
    obtain ⟨edge, -, rfl⟩ := mem_children.mp step.1
    cases top
  · intro p _ outer c child
    rw [outOfTail_child child, TransGen.tail'_iff]
    split
    · rename_i inTail
      rw [List.mem_cons, outer, eq_comm, ← reflTransGen_iff_eq_or_transGen]
      constructor
      · exact fun way => ⟨p, way, child, inTail⟩
      · rintro ⟨b, way, step⟩
        rw [eq_parent child step.1]
        exact way
    · rename_i notInTail
      simp only [List.not_mem_nil, false_iff]
      rintro ⟨b, -, step⟩
      exact notInTail step.2

theorem mem_preorder_of_outOfTail {t : Site} (inside : t ∈ root.preorder) :
    ∀ e ∈ outOfTail t.uri t.above, e ∈ root.preorder := by
  refine preorder_induction
    (motive := fun t => ∀ e ∈ outOfTail t.uri t.above, e ∈ root.preorder) ?_ ?_ t inside
  · simp [top, outOfTail]
  · intro p inRoot outer c child
    rw [outOfTail_child child]
    split
    · exact List.forall_mem_cons.mpr ⟨inRoot, outer⟩
    · simp

theorem mem_tailOf {t e : Site} (inside : t ∈ root.preorder) :
    e ∈ t.tailOf ↔ t ∈ e.tails ∧ t ≠ e := by
  rw [tailOf, mem_tails]
  split
  · rename_i more
    simp [more]
  · rename_i last
    rw [mem_outOfTail top inside e]
    constructor
    · intro way
      exact ⟨⟨by simpa using last, way.to_reflTransGen⟩, (inside_of_transGen way).2⟩
    · rintro ⟨⟨-, way⟩, different⟩
      exact (reflTransGen_iff_eq_or_transGen.mp way).resolve_left different

/-- The sites reached outwards lie around each other, innermost first. -/
theorem pairwise_outOfTail {t : Site} (inside : t ∈ root.preorder) :
    (t :: outOfTail t.uri t.above).Pairwise Inside := by
  have around {t e : Site} (inside : t ∈ root.preorder) (member : e ∈ outOfTail t.uri t.above) :
      t.Inside e :=
    inside_of_transGen ((mem_outOfTail top inside e).mp member)
  refine preorder_induction (motive := fun t => (t :: outOfTail t.uri t.above).Pairwise Inside)
    ?_ ?_ t inside
  · rw [top]
    exact List.pairwise_singleton ..
  · intro p inRoot outer c child
    refine List.pairwise_cons.mpr ⟨fun e => ?_, ?_⟩
    · exact around (mem_preorder_trans inRoot (mem_preorder_of_child child))
    · rw [outOfTail_child child]
      split
      · exact outer
      · exact .nil

/-- A way from the root through tail positions is followed back up to the root. -/
theorem getLast_outOfTail {t : Site} (way : TransGen TailStep root t) :
    (outOfTail t.uri t.above).getLast? = some root := by
  induction way with
  | single step =>
      rw [outOfTail_child step.1, if_pos step.2, top]
      rfl
  | tail _ step ih =>
      rw [outOfTail_child step.1, if_pos step.2, List.getLast?_cons, ih]
      rfl

end Root

/-- What stands in tail position is an expression, and so is what it stands in. -/
theorem exprs_of_tailEdge {node m : Node} {step : Step} (member : (step, m) ∈ node.children)
    (tail : isTailEdge node step) : (∃ e, node = .expr e) ∧ ∃ e, m = .expr e := by
  cases node with
  | expr e =>
      refine ⟨⟨e, rfl⟩, ?_⟩
      cases e with
      | document | localIn | assertIn =>
          simp [Node.children, Node.parts, Expr.parts, Part.edges] at member
          grind [isTailEdge]
      | cond range condition consequence alternative =>
          cases alternative <;>
            simp [Node.children, Node.parts, Expr.parts, Part.edges, Part.ofOption] at member <;>
            grind [isTailEdge]
      | _ => cases tail
  | _ => cases tail

theorem TailStep.isExpr {s c : Site} (step : s.TailStep c) : s.kind.isExpr ∧ c.kind.isExpr := by
  obtain ⟨child, inTail⟩ := step
  obtain ⟨edge, member, rfl⟩ := mem_children.mp child
  obtain ⟨⟨outer, node⟩, inner, node'⟩ := exprs_of_tailEdge member inTail
  constructor
  · rw [kind, node]
    exact outer.isExpr_kind
  · rw [kind, down, node']
    exact inner.isExpr_kind

theorem isExpr_of_mem_tails {s t : Site} (expr : s.kind.isExpr) (member : t ∈ s.tails) :
    t.kind.isExpr := by
  rcases (mem_tails.mp member).2.cases_tail with rfl | ⟨b, -, last⟩
  · exact expr
  · exact last.isExpr.2

end Site

namespace Document

open Relation Site

/-- Sites below each other are different places. -/
theorem nodup_paths_of_pairwise {d : Document} {sites : List Site}
    (listed : ∀ s ∈ sites, s ∈ d.sites) (nested : sites.Pairwise Inside) :
    (sites.map Site.path).Nodup := by
  refine List.pairwise_map.mpr (nested.imp_of_mem ?_)
  intro inner outer first second inside same
  exact inside.2 (eq_of_path_eq (listed inner first) (listed outer second) same)

/-- Every expression of a document has tails, which are different expressions of the document and
    their own only tails. A node has among the expressions that it is a tail of exactly those that
    have it among their tails, once each and from the innermost outwards. -/
theorem tails_consistent {uri : Uri} {tree : ParseTree} {d : Document}
    (done : ofParseTree uri tree = .ok d) :
    (∀ e ∈ d.sites, e.kind.isExpr →
      e.tails ≠ [] ∧ (e.tails.map Site.path).Nodup ∧
      ∀ t ∈ e.tails, t ∈ d.sites ∧ t.kind.isExpr ∧ t.tails = [t]) ∧
    ∀ t ∈ d.sites, t.kind.isExpr →
      (∀ e ∈ d.sites, t ∈ e.tails ∧ t ≠ e ↔ e ∈ t.tailOf) ∧
      (∀ e ∈ t.tailOf, e ∈ d.sites ∧ e.kind.isExpr) ∧
      (t.tailOf.map Site.path).Nodup ∧
      (t :: t.tailOf).Pairwise Inside ∧
      (t ∈ d.site.tails → t.tailOf.getLast? = some d.site) := by
  have top : d.site.above = [] := rfl
  constructor
  · intro e inDoc expr
    refine ⟨e.tails_ne_nil, ?_, ?_⟩
    · refine List.Nodup.map_on ?_ (e.nodup_preorder.sublist e.tails_sublist)
      intro t first u second same
      exact eq_of_path_eq (mem_preorder_of_tails first) (mem_preorder_of_tails second) same
    · intro t member
      have below := mem_preorder_trans inDoc (mem_preorder_of_tails member)
      exact ⟨below, isExpr_of_mem_tails expr member, tails_of_tail (mem_tails.mp member).1⟩
  · intro t inDoc expr
    have mem {e : Site} : e ∈ t.tailOf ↔ t ∈ e.tails ∧ t ≠ e := mem_tailOf top inDoc
    have around := t.tailOf_sublist
    have listed : ∀ e ∈ t.tailOf, e ∈ d.sites := fun e member =>
      mem_preorder_of_outOfTail top inDoc e (around.subset member)
    have nested : (t :: t.tailOf).Pairwise Inside :=
      (pairwise_outOfTail top inDoc).sublist (around.cons_cons t)
    refine ⟨fun e _ => mem.symm, fun e member => ⟨listed e member, ?_⟩, ?_, nested, ?_⟩
    · have way := (mem_outOfTail top inDoc e).mp (around.subset member)
      obtain ⟨c, step, -⟩ := TransGen.head'_iff.mp way
      exact step.isExpr.1
    · exact nodup_paths_of_pairwise listed nested.of_cons
    · intro member
      obtain ⟨last, way⟩ := mem_tails.mp member
      -- the document hands its tails on, so it is none of them
      have different : t ≠ d.site := by
        rintro rfl
        obtain ⟨range, body, root⟩ := (built done).root
        simp [site, root, hasTailPosition] at last
      rw [tailOf, if_neg (by simp [last])]
      exact getLast_outOfTail top ((reflTransGen_iff_eq_or_transGen.mp way).resolve_left different)

/-- The tree of `local a = null; if a then null else assert a; a`. -/
def branchingTree : ParseTree :=
  let node (type : String) (start stop : Nat) (children : List ParseTree) : ParseTree :=
    { type := type, range := Range.ofNats 0 start 0 stop, children := children }
  let leaf (type : String) (start : Nat) (text : String) : ParseTree :=
    { type := type, range := Range.ofNats 0 start 0 (start + text.length), text := some text }
  node "document" 0 47
    [node "local_bind" 0 47
      [leaf "local" 0 "local",
        node "bind" 6 14 [leaf "id" 6 "a", leaf "null" 10 "null"],
        node "conditional" 16 47
          [leaf "id" 19 "a", leaf "null" 26 "null",
            node "assert" 36 44 [leaf "id" 43 "a"], leaf "id" 46 "a"]]]

def branchingName (start : Nat) : Ident :=
  ⟨Range.ofNats 0 start 0 (start + 1), .ofString "a"⟩

def branchingAssert : Expr :=
  .assertIn (Range.ofNats 0 36 0 47) ⟨Range.ofNats 0 36 0 44, .ref (branchingName 43), none⟩
    (.ref (branchingName 46))

def branchingCond : Expr :=
  .cond (Range.ofNats 0 16 0 47) (.ref (branchingName 19)) (.null (Range.ofNats 0 26 0 30))
    (some branchingAssert)

def branchingLocal : Expr :=
  .localIn (Range.ofNats 0 0 0 47)
    [⟨Range.ofNats 0 6 0 14, branchingName 6, .null (Range.ofNats 0 10 0 14)⟩] branchingCond

def branchingDocument : Document :=
  { uri := "file:///x", root := .expr (.document (Range.ofNats 0 0 0 47) branchingLocal) }

def branchingCondSite : Site :=
  (branchingDocument.site.part .body (.expr branchingLocal)).part .body (.expr branchingCond)

/-- The last name of the document, in tail position four times. -/
def branchingLast : Site :=
  (branchingCondSite.part .alternative (.expr branchingAssert)).part .body
    (.expr (.ref (branchingName 46)))

/-- The last name is a tail of the document, which is the last one that it is a tail of. -/
theorem branching_tails :
    ofParseTree "file:///x" branchingTree = .ok branchingDocument ∧
    branchingDocument.site.tails =
      [branchingCondSite.part .consequence (.expr (.null (Range.ofNats 0 26 0 30))),
        branchingLast] ∧
    branchingLast.tails = [branchingLast] ∧
    branchingCondSite ∈ branchingLast.tailOf ∧
    branchingLast.tailOf.getLast? = some branchingDocument.site := by
  have done : ofParseTree "file:///x" branchingTree = .ok branchingDocument := by cbv
  have tails : branchingDocument.site.tails =
      [branchingCondSite.part .consequence (.expr (.null (Range.ofNats 0 26 0 30))),
        branchingLast] := by cbv
  have inner : branchingCondSite.tails = branchingDocument.site.tails := by cbv
  have isTail : branchingLast ∈ branchingDocument.site.tails := by simp [tails]
  have whole : branchingDocument.site ∈ branchingDocument.sites := mem_preorder_self _
  have cond : branchingCondSite ∈ branchingDocument.sites :=
    mem_preorder_trans
      (mem_preorder_of_part (c := branchingDocument.site.part .body (.expr branchingLocal))
        (.head _) (.head _))
      (mem_preorder_of_part (.tail _ (.head _)) (.head _))
  obtain ⟨downwards, upwards⟩ := tails_consistent done
  obtain ⟨inDoc, expr, own⟩ := (downwards _ whole rfl).2.2 branchingLast isTail
  obtain ⟨inverse, -, -, -, last⟩ := upwards branchingLast inDoc expr
  refine ⟨done, tails, own, (inverse _ cond).mp ⟨inner ▸ isTail, ?_⟩, last isTail⟩
  intro same
  cases congrArg Site.kind same

end Document

end JsonnetNav
