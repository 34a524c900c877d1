import JsonnetNav.Answers.Symbol
import JsonnetNav.Proofs.InnermostObjects
import JsonnetNav.Proofs.NamedRanges
import JsonnetNav.Proofs.WellFormedScopes
import Mathlib

/-! # The forest of symbols

The declarations of a document are its binds, parameters and clauses and the fields of objects with
a fixed key. Each of them has one symbol, and the symbols nest as the declarations do: a
declaration lies in the innermost bind, parameter or field whose value it is a part of. What is
open on a walk is closed again, so no symbol gets lost or ends up elsewhere.
-/

namespace JsonnetNav

namespace Walk

/-! ## The orders of a walk -/

/-- What happens in one step of a plan, when objects are walked in this order. -/
def Action.eventsIn (order : ObjectOrder) : Action → List Event
  | .emit event => [event]
  | .visit t => Walk.events order t

theorem events_eq_plan (order : ObjectOrder) (s : Site) :
    events order s = (plan order s).flatMap (Action.eventsIn order) := by
  rw [events]
  conv => rhs; rw [← List.attach_map_subtype_val (plan order s), List.flatMap_map]
  congr 1
  funext step
  obtain ⟨action, member⟩ := step
  cases action <;> rfl

theorem fields_perm (sites : List (Site × Field)) (rest : List Action) :
    (fields .fieldByField sites rest).Perm (fields .keysFirst sites rest) := by
  have together := List.flatMap_append_perm sites
    (fun x => [Action.visit (x.1.part .key (.key x.2.key))]) fun x => [Action.visit x.1]
  simp only [← List.map_eq_flatMap] at together
  refine (together.symm.append_right rest).trans ?_
  simp only [fields, List.append_assoc]
  exact List.perm_append_comm.append_left _

theorem inner_perm (s : Site) : (inner .fieldByField s).Perm (inner .keysFirst s) := by
  obtain ⟨uri, node, above⟩ := s
  cases node with
  | expr e =>
      cases e with
      | object range binds assertions fs =>
          exact ((fields_perm _ _).append_left _).append_right _
      | _ => exact .refl _
  | key k => cases k <;> exact .refl _
  | _ => exact .refl _

/-- The same things happen in both orders. -/
theorem events_order_perm (s : Site) :
    (events .fieldByField s).Perm (events .keysFirst s) := by
  have each : ∀ action ∈ inner .fieldByField s,
      (action.eventsIn .fieldByField).Perm (action.eventsIn .keysFirst) := by
    intro action member
    cases action with
    | emit event => exact .refl _
    | visit t =>
        have smaller := visitsBelow_inner .fieldByField s t member
        exact events_order_perm t
  rw [events_eq_plan, events_eq_plan, plan, plan]
  simp only [List.cons_append, List.flatMap_cons, List.flatMap_append]
  refine List.Perm.append_left _ (List.Perm.append_right _ ?_)
  exact (List.Perm.flatMap_left _ each).trans ((inner_perm s).flatMap_right _)
termination_by sizeOf s.node

end Walk

/-! ## Declarations -/

namespace Site

/-- Binds, parameters, clauses and the fields of objects whose key is fixed. -/
def declares (s : Site) : Bool :=
  match s.node with
  | .bind _ | .param _ | .forSpec _ => true
  | .field f => f.key.id?.isSome && s.parent?.any (·.kind = .object)
  | _ => false

/-- The value of a bind or of a field with a fixed key, or the default of a parameter. -/
def declaredValue? (s : Site) : Option Site :=
  match s.node with
  | .bind b => some (s.part .value (.expr b.value))
  | .param p => p.default.map fun e => s.part .default (.expr e)
  | .field f => f.key.id?.map fun _ => s.part .value (.expr f.value)
  | _ => none

/-- The second site is a part of the value of the first. -/
def Holds (o t : Site) : Prop :=
  ∃ v, o.declaredValue? = some v ∧ t ∈ v.preorder

end Site

/-- What a symbol shows of the node that it stands for. -/
inductive Symbol.Shows : Node → Text → SymbolKind → (range selection : Range) → Prop where
  | bind (b : LocalBind) : Shows (.bind b) b.id.name .variable b.id.range b.range
  | param (p : Param) : Shows (.param p) p.id.name .variable p.id.range p.range
  | forSpec (f : ForSpec) : Shows (.forSpec f) f.id.name .variable f.id.range f.range
  | field {f : Field} {id : Ident} (fixed : f.key.id? = some id) :
      Shows (.field f) id.name .field f.key.range f.range

/-- Sites, each with those that are nested in it. -/
inductive SiteTree where
  | mk (site : Site) (children : List SiteTree)

namespace SiteTree

def site : SiteTree → Site
  | mk site _ => site

mutual

/-- All sites of a tree, each before those in it. -/
def sites : SiteTree → List Site
  | mk site children => site :: allSites children

/-- All sites of a forest. -/
def allSites : List SiteTree → List Site
  | [] => []
  | tree :: trees => tree.sites ++ allSites trees

end

/-- Somewhere in the forest the second site is directly below the first. -/
inductive Child : List SiteTree → Site → Site → Prop where
  | here {forest : List SiteTree} {s : Site} {children : List SiteTree} {tree : SiteTree}
      (member : mk s children ∈ forest) (child : tree ∈ children) : Child forest s tree.site
  | deeper {forest : List SiteTree} {s : Site} {children : List SiteTree} {a b : Site}
      (member : mk s children ∈ forest) (child : Child children a b) : Child forest a b

/-- The tree has the shape of the symbol, and each of its sites is shown by the symbol there. -/
inductive Mirrors : SiteTree → Symbol → Prop where
  | mk {s : Site} {children : List SiteTree} {name : Text} {kind : SymbolKind}
      {range selection : Range} {symbols : List Symbol}
      (shows : Symbol.Shows s.node name kind range selection)
      (below : List.Forall₂ Mirrors children symbols) :
      Mirrors (.mk s children) (.mk name kind range selection symbols)

end SiteTree

/-! ## What a walk adds to the symbols -/

namespace Symbol

theorem head_eq_some {s : Site} {h : Head} (isHead : head? s = some h) :
    Shows s.node h.name h.kind h.range h.selection := by
  obtain ⟨uri, node, above⟩ := s
  cases node with
  | bind b =>
      cases isHead
      exact .bind b
  | param p =>
      cases isHead
      exact .param p
  | forSpec f =>
      cases isHead
      exact .forSpec f
  | field f =>
      obtain ⟨id, fixed, rfl⟩ := Option.map_eq_some_iff.mp isHead
      exact .field fixed
  | _ => cases isHead

/-- Of the nodes with a symbol only clauses do not contain others. -/
theorem isContainer_eq {s : Site} (whole : Walk.isClause s = false) :
    isContainer s = (head? s).isSome := by
  unfold isContainer
  split
  · rename_i node
    simp [Walk.isClause, node] at whole
  · rfl

theorem isSome_head_of_isContainer {s : Site} (container : isContainer s = true) :
    ∃ h, head? s = some h := by
  unfold isContainer at container
  split at container
  · cases container
  · exact Option.isSome_iff_exists.mp container

end Symbol

/-- The site whose symbol is begun at an event. -/
def Event.begins? : Event → Option Site
  | .enter s => if Symbol.isContainer s then some s else none
  | .opened s => if (Symbol.head? s).isSome && !Symbol.isContainer s then some s else none
  | _ => none

/-- Nothing is opened or closed around other symbols. -/
def Event.isPlain : Event → Bool
  | .enter s | .leave s => !Symbol.isContainer s
  | _ => true

/-- Events that add these trees of declarations to what is around them. -/
inductive Grows : List Event → List SiteTree → Prop where
  | nil : Grows [] []
  | plain {event : Event} (plain : event.isPlain) :
      Grows [event] (event.begins?.toList.map fun s => .mk s [])
  | append {events more : List Event} {forest others : List SiteTree}
      (first : Grows events forest) (second : Grows more others) :
      Grows (events ++ more) (forest ++ others)
  | node {s : Site} {events : List Event} {forest : List SiteTree}
      (container : Symbol.isContainer s) (inside : Grows events forest) :
      Grows (.enter s :: events ++ [.leave s]) [.mk s forest]

namespace Grows

variable {events : List Event} {forest : List SiteTree}

/-- A plain event adds a symbol at most. -/
theorem step_plain {event : Event} (plain : event.isPlain) :
    ∃ symbols, List.Forall₂ SiteTree.Mirrors (event.begins?.toList.map fun s => .mk s []) symbols ∧
      ∀ b : Symbol.Builder, b.step event = { b with done := symbols.reverse ++ b.done } := by
  cases event with
  | enter s =>
      have other : Symbol.isContainer s = false := by simpa [Event.isPlain] using plain
      refine ⟨[], by simp [Event.begins?, other], fun b => ?_⟩
      simp only [Symbol.Builder.step, other]
      split <;> rfl
  | leave s =>
      have other : Symbol.isContainer s = false := by simpa [Event.isPlain] using plain
      exact ⟨[], .nil, fun b => by simp [Symbol.Builder.step, other]⟩
  | closed s => exact ⟨[], .nil, fun b => rfl⟩
  | opened s =>
      cases isHead : Symbol.head? s with
      | none =>
          exact ⟨[], by simp [Event.begins?, isHead],
            fun b => by simp [Symbol.Builder.step, isHead]⟩
      | some h =>
          cases container : Symbol.isContainer s with
          | true =>
              exact ⟨[], by simp [Event.begins?, container],
                fun b => by simp [Symbol.Builder.step, isHead, container]⟩
          | false =>
              refine ⟨[.mk h.name h.kind h.range h.selection []], ?_, fun b => ?_⟩
              · simp only [Event.begins?, isHead, container]
                exact .cons (.mk (Symbol.head_eq_some isHead) .nil) .nil
              · simp [Symbol.Builder.step, isHead, container, Symbol.Builder.finish]

/-- What is open before is open afterwards, and the symbols of the trees are added. -/
theorem foldl_step (grows : Grows events forest) :
    ∃ symbols, List.Forall₂ SiteTree.Mirrors forest symbols ∧ ∀ b : Symbol.Builder,
      events.foldl Symbol.Builder.step b = { b with done := symbols.reverse ++ b.done } := by
  induction grows with
  | nil => exact ⟨[], .nil, fun b => rfl⟩
  | plain plain => exact step_plain plain
  | append first second ihFirst ihSecond =>
      obtain ⟨symbols, mirrors, adds⟩ := ihFirst
      obtain ⟨more, mirrors', adds'⟩ := ihSecond
      refine ⟨symbols ++ more, List.rel_append mirrors mirrors', fun b => ?_⟩
      rw [List.foldl_append, adds, adds']
      simp
  | @node s events forest container inside ih =>
      obtain ⟨symbols, mirrors, adds⟩ := ih
      obtain ⟨h, isHead⟩ := Symbol.isSome_head_of_isContainer container
      refine ⟨[.mk h.name h.kind h.range h.selection symbols],
        .cons (.mk (Symbol.head_eq_some isHead) mirrors) .nil, fun b => ?_⟩
      have opened : (Event.enter s :: events).foldl Symbol.Builder.step b =
          ⟨symbols.reverse, (h, b.done) :: b.around⟩ := by
        rw [List.foldl_cons, adds]
        simp [Symbol.Builder.step, isHead, container]
      rw [List.foldl_append, opened]
      simp [Symbol.Builder.step, container, Symbol.Builder.finish]

theorem allSites_append (forest others : List SiteTree) :
    SiteTree.allSites (forest ++ others) =
      SiteTree.allSites forest ++ SiteTree.allSites others := by
  induction forest with
  | nil => rfl
  | cons tree trees ih => simp [SiteTree.allSites, ih]

/-- The sites of the trees are those whose symbols are begun. -/
theorem allSites_eq (grows : Grows events forest) :
    SiteTree.allSites forest = events.filterMap Event.begins? := by
  induction grows with
  | nil => rfl
  | @plain event _ =>
      cases begun : event.begins? <;> simp [begun, SiteTree.allSites, SiteTree.sites]
  | append first second ihFirst ihSecond =>
      rw [allSites_append, ihFirst, ihSecond, List.filterMap_append]
  | @node s events forest container inside ih =>
      simp [SiteTree.allSites, SiteTree.sites, ih, Event.begins?, container]

end Grows

/-! ## How declarations nest -/

namespace Site

/-- The step leads from a declaration into its value. -/
def leadsIn (s : Site) (step : Step) : Bool :=
  match s.node with
  | .bind _ => step.role = .value
  | .param _ => step.role = .default
  | .field f => f.key.id?.isSome && step.role = .value
  | _ => false

/-- The first declaration on the way outwards that the site lies in the value of. -/
def holderIn (uri : Uri) : List (Step × Node) → Option Site
  | [] => none
  | (step, node) :: above =>
    if leadsIn ⟨uri, node, above⟩ step then some ⟨uri, node, above⟩ else holderIn uri above

def declarationAround? (s : Site) : Option Site :=
  holderIn s.uri s.above

theorem declarationAround_down (s : Site) (step : Step) (node : Node) :
    (s.down step node).declarationAround? =
      if s.leadsIn step then some s else s.declarationAround? :=
  rfl

theorem mem_children_of_declaredValue {o v : Site} (value : o.declaredValue? = some v) :
    v ∈ o.children := by
  obtain ⟨uri, node, above⟩ := o
  cases node with
  | bind b =>
      cases value
      exact mem_children_of_part (p := .child .value (.expr b.value)) (.tail _ (.head _)) (.head _)
  | param p =>
      obtain ⟨e, given, rfl⟩ := Option.map_eq_some_iff.mp value
      have listed : .child .default (.expr e) ∈ Node.parts (.param p) := by
        simp [Node.parts, given, Part.ofOption]
      exact mem_children_of_part listed (.head _)
  | field f =>
      obtain ⟨id, -, rfl⟩ := Option.map_eq_some_iff.mp value
      exact mem_children_of_part (p := .child .value (.expr f.value)) (.tail _ (.head _)) (.head _)
  | _ => cases value

/-- A step from a declaration to a child leads in just if the child is its value. -/
theorem leadsIn_iff {p : Site} {edge : Step × Node} (listed : edge ∈ p.node.children) :
    p.leadsIn edge.1 = true ↔ p.declaredValue? = some (p.down edge.1 edge.2) := by
  obtain ⟨uri, node, above⟩ := p
  cases node with
  | bind b =>
      have listed : edge = (⟨.id, 0⟩, .var b.id) ∨ edge = (⟨.value, 0⟩, .expr b.value) := by
        simpa [Node.children, Node.parts, Part.edges] using listed
      rcases listed with rfl | rfl <;> simp [leadsIn, declaredValue?, part, down]
  | param p =>
      cases given : p.default with
      | none =>
          have listed : edge = (⟨.id, 0⟩, .var p.id) := by
            simpa [Node.children, Node.parts, Part.edges, Part.ofOption, given] using listed
          simp [listed, leadsIn, declaredValue?, given]
      | some e =>
          have listed : edge = (⟨.id, 0⟩, .var p.id) ∨ edge = (⟨.default, 0⟩, .expr e) := by
            simpa [Node.children, Node.parts, Part.edges, Part.ofOption, given] using listed
          rcases listed with rfl | rfl <;> simp [leadsIn, declaredValue?, given, part, down]
  | field f =>
      have listed : edge = (⟨.key, 0⟩, .key f.key) ∨ edge = (⟨.value, 0⟩, .expr f.value) := by
        simpa [Node.children, Node.parts, Part.edges] using listed
      cases fixed : f.key.id? with
      | none => simp [leadsIn, declaredValue?, fixed]
      | some id =>
          rcases listed with rfl | rfl <;> simp [leadsIn, declaredValue?, fixed, part, down]
  | _ => simp [leadsIn, declaredValue?]

/-- If a site is not the value of its parent, then it lies in the values that its parent lies in. -/
theorem holds_child_iff {p c o : Site} (child : c ∈ p.children)
    (other : p.declaredValue? ≠ some c) : o.Holds c ↔ o.Holds p := by
  constructor
  · rintro ⟨v, value, below⟩
    refine ⟨v, value, parent_mem_preorder child below ?_⟩
    rintro rfl
    have same := parent_of_mem_children (mem_children_of_declaredValue value)
    rw [parent_of_mem_children child] at same
    cases same
    exact other value
  · rintro ⟨v, value, below⟩
    exact ⟨v, value, mem_preorder_trans below (mem_preorder_of_child child)⟩

theorem Holds.around {o t : Site} (holds : o.Holds t) : t ∈ o.preorder := by
  obtain ⟨v, value, below⟩ := holds
  exact mem_preorder_trans (mem_preorder_of_child (mem_children_of_declaredValue value)) below

/-- If the declarations with one site in their values have another one in them as well, then so
    does the innermost of them. -/
theorem Innermost.of_same {root s t o : Site} (same : ∀ o : Site, o.Holds t ↔ o.Holds s)
    (innermost : Innermost root (·.Holds s) s o) : Innermost root (·.Holds t) t o := by
  have holds := (same o).mpr innermost.holds
  refine ⟨innermost.inside, holds.around, holds, fun o' inside _ holds' => ?_⟩
  have outer := (same o').mp holds'
  exact innermost.innermost o' inside outer.around outer

/-- The first declaration on the way outwards is the innermost one. -/
theorem declarationAround_iff {root s : Site} (top : root.above = []) (inside : s ∈ root.preorder) :
    ∀ o, s.declarationAround? = some o ↔ Innermost root (·.Holds s) s o := by
  refine preorder_induction
    (motive := fun s => ∀ o, s.declarationAround? = some o ↔ Innermost root (·.Holds s) s o)
    ?_ ?_ s inside
  · intro o
    constructor
    · intro found
      rw [declarationAround?, top] at found
      cases found
    · rintro ⟨inRoot, -, ⟨v, value, below⟩, -⟩
      have child := mem_children_of_declaredValue value
      have same : v = root :=
        mem_preorder_antisymm (mem_preorder_trans inRoot (mem_preorder_of_child child)) below
      have parent := parent_of_mem_children child
      rw [same, parent?, top] at parent
      cases parent
  · intro p inRoot outer c child o
    obtain ⟨edge, listed, rfl⟩ := mem_children.mp child
    rw [declarationAround_down]
    by_cases leads : p.leadsIn edge.1 = true
    · have value := (leadsIn_iff listed).mp leads
      have holds : p.Holds (p.down edge.1 edge.2) := ⟨_, value, mem_preorder_self _⟩
      have innermost :
          Innermost root (·.Holds (p.down edge.1 edge.2)) (p.down edge.1 edge.2) p := by
        refine ⟨inRoot, holds.around, holds, ?_⟩
        rintro o' - - ⟨v, value', below⟩
        have isChild := mem_children_of_declaredValue value'
        by_cases same : p.down edge.1 edge.2 = v
        · rw [← same] at isChild
          rw [eq_parent isChild child]
          exact mem_preorder_self p
        · have around := parent_mem_preorder child below same
          exact mem_preorder_trans (mem_preorder_of_child isChild) around
      rw [if_pos leads]
      constructor
      · rintro ⟨⟩
        exact innermost
      · intro other
        rw [innermost.unique other]
    · have other : p.declaredValue? ≠ some (p.down edge.1 edge.2) :=
        fun value => leads ((leadsIn_iff listed).mpr value)
      have same (o : Site) := holds_child_iff (o := o) child other
      rw [if_neg leads, outer]
      exact ⟨.of_same same, .of_same fun o => (same o).symm⟩

end Site

namespace SiteTree

/-- In the tree each declaration is below the one that it lies in the value of. -/
inductive Nested : Option Site → SiteTree → Prop where
  | mk {outer : Option Site} {s : Site} {children : List SiteTree}
      (around : s.declarationAround? = outer) (inside : ∀ c ∈ children, Nested (some s) c) :
      Nested outer (.mk s children)

variable {forest : List SiteTree} {outer : Option Site}

theorem mem_allSites {s : Site} : s ∈ allSites forest ↔ ∃ tree ∈ forest, s ∈ tree.sites := by
  induction forest with
  | nil => simp [allSites]
  | cons tree trees ih => simp [allSites, ih]

theorem Nested.around {tree : SiteTree} (nested : tree.Nested outer) :
    tree.site.declarationAround? = outer := by
  obtain ⟨around, -⟩ := nested
  exact around

theorem Child.declarationAround {s t : Site} (child : Child forest s t)
    (nested : ∀ tree ∈ forest, tree.Nested outer) : t.declarationAround? = some s := by
  induction child generalizing outer with
  | here member child =>
      obtain ⟨-, inside⟩ := nested _ member
      exact (inside _ child).around
  | deeper member child ih =>
      obtain ⟨-, inside⟩ := nested _ member
      exact ih inside

/-- Every site of a forest is a root, or directly below another one. -/
theorem root_or_child {forest : List SiteTree} {t : Site} (member : t ∈ allSites forest) :
    (∃ tree ∈ forest, tree.site = t) ∨ ∃ s, Child forest s t := by
  obtain ⟨⟨s, children⟩, listed, inside⟩ := mem_allSites.mp member
  rcases List.mem_cons.mp inside with rfl | below
  · exact .inl ⟨_, listed, rfl⟩
  · have smaller : sizeOf children < sizeOf forest := by
      have inForest := List.sizeOf_lt_of_mem listed
      rw [mk.sizeOf_spec] at inForest
      omega
    rcases root_or_child below with ⟨tree, child, rfl⟩ | ⟨s', child⟩
    · exact .inr ⟨s, .here listed child⟩
    · exact .inr ⟨s', .deeper listed child⟩
termination_by sizeOf forest

theorem mem_allSites_of_child {s t : Site} (child : Child forest s t) : t ∈ allSites forest := by
  induction child with
  | @here forest s children tree member child =>
      have inside : tree.site ∈ tree.sites := by
        cases tree
        exact .head _
      exact mem_allSites.mpr ⟨_, member, .tail _ (mem_allSites.mpr ⟨tree, child, inside⟩)⟩
  | deeper member child ih => exact mem_allSites.mpr ⟨_, member, .tail _ ih⟩

/-- In a forest that nests as declarations do, it is the declaration around a site that the site
    is directly below. -/
theorem child_iff (nested : ∀ tree ∈ forest, tree.Nested none) {s t : Site} :
    Child forest s t ↔ t ∈ allSites forest ∧ t.declarationAround? = some s := by
  constructor
  · intro child
    exact ⟨mem_allSites_of_child child, child.declarationAround nested⟩
  · rintro ⟨member, around⟩
    rcases root_or_child member with ⟨tree, listed, rfl⟩ | ⟨s', child⟩
    · rw [(nested tree listed).around] at around
      cases around
    · rw [child.declarationAround nested] at around
      cases around
      exact child

theorem root_iff (nested : ∀ tree ∈ forest, tree.Nested none) {t : Site} :
    (∃ tree ∈ forest, tree.site = t) ↔ t ∈ allSites forest ∧ t.declarationAround? = none := by
  constructor
  · rintro ⟨tree, listed, rfl⟩
    refine ⟨mem_allSites.mpr ⟨tree, listed, ?_⟩, (nested tree listed).around⟩
    cases tree
    exact .head _
  · rintro ⟨member, around⟩
    rcases root_or_child member with root | ⟨s, child⟩
    · exact root
    · rw [child.declarationAround nested] at around
      cases around

end SiteTree

/-! ## The forest of a walk -/

/-- The declaration that the parts of a node lie in, as far as they are walked from there. -/
def Site.declarationWithin? (s : Site) : Option Site :=
  if Symbol.isContainer s then some s else s.declarationAround?

theorem Site.declarationWithin_expr {s : Site} {e : Expr} (expr : s.node = .expr e) :
    s.declarationWithin? = s.declarationAround? := by
  simp [declarationWithin?, Symbol.isContainer, Symbol.head?, expr]

/-- An expression is no declaration. -/
theorem Site.declarationAround_of_expr {s : Site} {e : Expr} (expr : s.node = .expr e) (step : Step)
    (node : Node) : (s.down step node).declarationAround? = s.declarationWithin? := by
  rw [declarationWithin_expr expr, declarationAround_down, leadsIn, expr]
  rfl

namespace Walk

theorem declarationAround_clause {s c : Site} (clause : c ∈ clausesOf s) :
    c.declarationAround? = s.declarationWithin? := by
  have ofExpr {e : Expr} (node : s.node = .expr e) {first : ForSpec} {rest : List CompSpec}
      (member : c ∈ clauseSites s first rest) : c.declarationAround? = s.declarationWithin? := by
    rcases List.mem_cons.mp member with rfl | later
    · exact Site.declarationAround_of_expr node _ _
    · obtain ⟨i, spec, -, rfl⟩ := Site.mem_row.mp later
      exact Site.declarationAround_of_expr node _ _
  unfold clausesOf at clause
  split at clause
  · rename_i node
    exact ofExpr node clause
  · rename_i node
    exact ofExpr node clause
  · cases clause

/-- No clause holds its parts. -/
theorem declarationAround_in_clause {s c : Site} (clause : c ∈ clausesOf s) (step : Step)
    (node : Node) : (c.down step node).declarationAround? = s.declarationWithin? := by
  obtain ⟨spec, isSpec⟩ := isClause_clausesOf clause
  rw [← declarationAround_clause clause, Site.declarationAround_down, Site.leadsIn, isSpec]
  cases spec <;> rfl

theorem visits_clauses {P : Site → Prop} {inside : List Action} {sites : List Site}
    (exprs : ∀ c ∈ sites, ∀ role e, P (c.part role (.expr e))) (within : ∀ t ∈ visits inside, P t) :
    ∀ t ∈ visits (clauses inside sites), P t := by
  induction sites with
  | nil => exact within
  | cons c sites ih =>
      have rest := ih fun d member => exprs d (.tail _ member)
      have here := exprs c (.head _)
      unfold clauses
      split
      · simpa using ⟨here _ _, rest⟩
      · simpa using ⟨here _ _, rest⟩
      · exact rest

theorem declarationAround_of_visits (s : Site) :
    ∀ t ∈ visits (inner .keysFirst s), t.declarationAround? = s.declarationWithin? := by
  obtain ⟨uri, node, above⟩ := s
  cases node with
  | expr e =>
      have part (step : Step) (n : Node) :
          (Site.down ⟨uri, .expr e, above⟩ step n).declarationAround? =
            Site.declarationWithin? ⟨uri, .expr e, above⟩ :=
        Site.declarationAround_of_expr rfl step n
      have key (step : Step) (f : Field) (k : FieldKey) :
          ((Site.down ⟨uri, .expr e, above⟩ step (.field f)).down ⟨.key, 0⟩
            (.key k)).declarationAround? = Site.declarationWithin? ⟨uri, .expr e, above⟩ := by
        rw [← part step (.field f), Site.declarationAround_down]
        simp [Site.leadsIn, Site.down]
      cases e with
      | listComp range element clause rest =>
          refine visits_clauses (fun c member role e => declarationAround_in_clause member _ _) ?_
          simp [Site.part, part]
      | objComp range field binds assertions clause rest =>
          refine visits_clauses (fun c member role e => declarationAround_in_clause member _ _) ?_
          simp [or_imp, forall_and, forall_mem_row, Site.part, part, key]
      | object range binds assertions fs =>
          simp only [inner, visits_append, visits_emit, visits_nil, visits_fields, visits_visitAll,
            List.forall_mem_append, List.forall_mem_map, forall_mem_row, forall_mem_fieldSites]
          simp [Site.part, part, key]
      | _ => simp [inner, or_imp, forall_and, forall_mem_row, Site.part, part]
  | key k =>
      cases k <;> simp [inner, Site.part, Site.declarationAround_down, Site.leadsIn,
        Site.declarationWithin?, Symbol.isContainer, Symbol.head?]
  | field f =>
      simp only [inner, visits_visit, visits_nil, List.forall_mem_singleton]
      cases fixed : f.key.id? <;>
        simp [Site.part, Site.declarationAround_down, Site.leadsIn, Site.declarationWithin?,
          Symbol.isContainer, Symbol.head?, fixed]
  | _ =>
      simp [inner, or_imp, forall_and, Site.part, Site.declarationAround_down, Site.leadsIn,
        Site.declarationWithin?, Symbol.isContainer, Symbol.head?]

/-- What happens in the plan of a node itself opens no symbols around others, and the symbols that
    it begins are those of clauses. -/
theorem emitted_plain {s : Site} (whole : isClause s = false) {event : Event}
    (member : .emit event ∈ inner .fieldByField s) :
    event.isPlain ∧ ∀ t, event.begins? = some t → t.declarationAround? = s.declarationWithin? := by
  have emits : event ∈ emitted (inner .keysFirst s) :=
    List.mem_filterMap.mpr ⟨.emit event, (inner_perm s).mem_iff.mp member, rfl⟩
  rw [(emitted_inner whole).mem_iff, List.mem_append, List.mem_flatMap] at emits
  rcases emits with own | ⟨c, clause, own⟩
  · have inScope : event = .opened s ∨ event = .closed s := by
      unfold scopeEvents at own
      split at own
      · simpa using own
      · cases own
    have same := Symbol.isContainer_eq whole
    rcases inScope with rfl | rfl
    · refine ⟨rfl, ?_⟩
      cases isHead : Symbol.head? s <;> simp [Event.begins?, same, isHead]
    · exact ⟨rfl, by simp [Event.begins?]⟩
  · obtain ⟨spec, isSpec⟩ := isClause_clausesOf clause
    have other : Symbol.isContainer c = false := by
      cases spec <;> simp [Symbol.isContainer, Symbol.head?, isSpec, CompSpec.node]
    have about : event.site = c := by
      unfold ownEvents scopeEvents at own
      split at own
      · simp only [List.mem_cons, List.not_mem_nil, or_false] at own
        rcases own with rfl | rfl | rfl | rfl <;> rfl
      · simp only [List.mem_cons, List.not_mem_nil, or_false] at own
        rcases own with rfl | rfl <;> rfl
    rw [← declarationAround_clause clause]
    subst about
    cases event <;> simp_all [Event.isPlain, Event.begins?, Event.site]

/-- Steps that each add a forest add all of them. -/
theorem grows_actions {outer : Option Site} {actions : List Action}
    (each : ∀ action ∈ actions, ∃ forest, Grows (action.eventsIn .fieldByField) forest ∧
      ∀ tree ∈ forest, tree.Nested outer) :
    ∃ forest, Grows (actions.flatMap (Action.eventsIn .fieldByField)) forest ∧
      ∀ tree ∈ forest, tree.Nested outer := by
  induction actions with
  | nil => exact ⟨[], .nil, by simp⟩
  | cons action actions ih =>
      obtain ⟨forest, grows, nested⟩ := each action (.head _)
      obtain ⟨others, grows', nested'⟩ := ih fun a member => each a (.tail _ member)
      refine ⟨forest ++ others, grows.append grows', fun tree member => ?_⟩
      exact (List.mem_append.mp member).elim (nested tree) (nested' tree)

/-- The walk from a node adds trees that nest as the declarations do. -/
theorem exists_forest {s : Site} (whole : isClause s = false) :
    ∃ forest, Grows (events .fieldByField s) forest ∧
      ∀ tree ∈ forest, tree.Nested s.declarationAround? := by
  have each : ∀ action ∈ inner .fieldByField s, ∃ forest,
      Grows (action.eventsIn .fieldByField) forest ∧
        ∀ tree ∈ forest, tree.Nested s.declarationWithin? := by
    intro action member
    cases action with
    | emit event =>
        obtain ⟨plain, around⟩ := emitted_plain whole member
        refine ⟨_, .plain plain, fun tree listed => ?_⟩
        obtain ⟨t, begun, rfl⟩ := List.mem_map.mp listed
        exact .mk (around t (Option.mem_toList.mp begun)) (by simp)
    | visit t =>
        have visited := mem_visits.mpr ((inner_perm s).mem_iff.mp member)
        have smaller := visitsBelow_inner .fieldByField s t member
        rw [← declarationAround_of_visits s t visited]
        exact exists_forest (isClause_of_visits s t visited)
  obtain ⟨forest, grows, nested⟩ := grows_actions each
  rw [events_eq_plan, plan, List.cons_append, List.flatMap_cons, List.flatMap_append]
  cases container : Symbol.isContainer s with
  | true =>
      simp only [Site.declarationWithin?, container, if_true] at nested
      exact ⟨[.mk s forest], .node container grows, List.forall_mem_singleton.mpr (.mk rfl nested)⟩
  | false =>
      simp only [Site.declarationWithin?, container] at nested
      have plain : (Event.enter s).isPlain ∧ (Event.leave s).isPlain := by
        simp [Event.isPlain, container]
      have opens := Grows.plain plain.1
      have closes := Grows.plain plain.2
      simp only [Event.begins?, container] at opens closes
      refine ⟨[] ++ (forest ++ []), opens.append (grows.append closes), ?_⟩
      simpa using nested
termination_by sizeOf s.node

end Walk

@[simp]
theorem Part.nodes_ofOption (role : Role) (o : Option Node) :
    (Part.ofOption role o).flatMap Part.nodes = o.toList := by
  cases o <;> rfl

/-- Only objects and object comprehensions have fields. -/
theorem Node.object_of_field {n : Node} {f : Field}
    (member : .field f ∈ n.parts.flatMap Part.nodes) :
    n.kind = .object ∨ ∃ range binds assertions clause rest,
      n = .expr (.objComp range f binds assertions clause rest) := by
  have noSpec (s : CompSpec) : s.node ≠ .field f := by cases s <;> simp [CompSpec.node]
  cases n with
  | expr e =>
      cases e with
      | object => exact .inl rfl
      | objComp range field binds assertions clause rest =>
          have same : f = field := by simpa [parts, Expr.parts, Part.nodes, noSpec] using member
          subst same
          exact .inr ⟨range, binds, assertions, clause, rest, rfl⟩
      | _ => simp [parts, Expr.parts, Part.nodes, Part.ofString, noSpec] at member
  | key k => cases k <;> simp [parts, Part.nodes] at member
  | _ => simp [parts, Part.nodes] at member

/-- At the events of one node its own symbol is begun, if it has one. -/
theorem Site.begins_ownEvents (s : Site) : (Walk.ownEvents s).filterMap Event.begins? =
    (Option.guard (fun s => (Symbol.head? s).isSome) s).toList := by
  cases whole : Walk.isClause s with
  | true =>
      obtain ⟨uri, node, above⟩ := s
      cases node with
      | forSpec f | ifSpec f => rfl
      | _ => cases whole
  | false =>
      have same := Symbol.isContainer_eq whole
      have opened : Event.begins? (.opened s) = none := by
        cases isHead : Symbol.head? s <;> simp [Event.begins?, same, isHead]
      rw [Walk.filterMap_ownEvents opened rfl]
      cases isHead : Symbol.head? s <;> simp [Event.begins?, same, isHead]

namespace Document

variable {d : Document} {uri : Uri} {tree : ParseTree}

/-- In a document that is read from a tree a field with a fixed key is one of an object. -/
theorem declares_eq (done : ofParseTree uri tree = .ok d) {s : Site} (inside : s ∈ d.sites) :
    s.declares = (Symbol.head? s).isSome := by
  cases isField : s.node with
  | field f =>
      cases fixed : f.key.id? with
      | none => simp [Site.declares, Symbol.head?, isField, fixed]
      | some id =>
          obtain ⟨range, body, root⟩ := (built done).root
          rcases Site.parent_of_mem_preorder inside with rfl | ⟨p, around, child⟩
          · rw [site, root] at isField
            cases isField
          have parent := Site.parent_of_mem_children child
          obtain ⟨edge, listed, rfl⟩ := Site.mem_children.mp child
          obtain ⟨part, isPart, inPart⟩ := List.mem_flatMap.mp listed
          have inNodes := Node.mem_nodes_of_mem_edges inPart
          rw [show edge.2 = .field f from isField] at inNodes
          rcases Node.object_of_field (List.mem_flatMap.mpr ⟨part, isPart, inNodes⟩) with
            object | ⟨_, _, _, _, _, comp⟩
          · have object : p.kind = .object := object
            simp [Site.declares, Symbol.head?, isField, fixed, parent, object]
          · have computed := named_sites done p around
            rw [comp] at computed
            rw [Node.Named, fixed] at computed
            cases computed
  | _ => simp [Site.declares, Symbol.head?, isField]

theorem symbols_perm (done : ofParseTree uri tree = .ok d) :
    ((Walk.events .fieldByField d.site).filterMap Event.begins?).Perm
      (d.sites.filter Site.declares) := by
  have built := built done
  refine ((Walk.events_order_perm d.site).filterMap _).trans ?_
  refine (built.filterMap_events Site.begins_ownEvents fun s t isHead => ?_).trans (.of_eq ?_)
  · obtain ⟨rfl, shown⟩ := Option.guard_eq_some_iff.mp isHead
    obtain ⟨uri', node, above⟩ := s
    cases node with
    | var id | importee id => cases shown
    | _ => rfl
  · rw [List.filterMap_eq_filter]
    exact List.filter_congr fun s inside => (declares_eq done inside).symm

/-- The symbols of a document have the shape of a forest of its declarations. -/
theorem exists_mirrored (done : ofParseTree uri tree = .ok d) :
    ∃ forest : List SiteTree, (∀ tree ∈ forest, tree.Nested none) ∧
      List.Forall₂ SiteTree.Mirrors forest d.symbols ∧
      (SiteTree.allSites forest).Perm (d.sites.filter Site.declares) := by
  obtain ⟨forest, grows, nested⟩ := Walk.exists_forest (built done).isClause_site
  obtain ⟨shown, mirrors, adds⟩ := grows.foldl_step
  refine ⟨forest, nested, ?_, ?_⟩
  · rw [Document.symbols, adds]
    simpa using mirrors
  · rw [grows.allSites_eq]
    exact symbols_perm done

/-- Each declaration of a document has one symbol, and there are no others. The symbols nest as the
    declarations do: one is directly below another if the other one's is the innermost value that
    the declaration lies in, and on top if it lies in no such value. -/
theorem symbols_mirror (done : ofParseTree uri tree = .ok d) :
    ∃ forest : List SiteTree, List.Forall₂ SiteTree.Mirrors forest d.symbols ∧
      (SiteTree.allSites forest).Perm (d.sites.filter Site.declares) ∧
      (∀ s t, SiteTree.Child forest s t ↔
        t ∈ d.sites ∧ t.declares ∧ Site.Innermost d.site (·.Holds t) t s) ∧
      ∀ t, (∃ tree ∈ forest, tree.site = t) ↔
        t ∈ d.sites ∧ t.declares ∧ ∀ s ∈ d.sites, ¬ s.Holds t := by
  obtain ⟨forest, nested, mirrors, perm⟩ := exists_mirrored done
  have member (t : Site) : t ∈ SiteTree.allSites forest ↔ t ∈ d.sites ∧ t.declares := by
    rw [perm.mem_iff, List.mem_filter]
  refine ⟨forest, mirrors, perm, fun s t => ?_, fun t => ?_⟩
  · rw [SiteTree.child_iff nested, member, and_assoc]
    refine and_congr_right fun inside => and_congr_right fun _ => ?_
    exact Site.declarationAround_iff rfl inside s
  · rw [SiteTree.root_iff nested, member, and_assoc]
    refine and_congr_right fun inside => and_congr_right fun _ => ?_
    have around := Site.declarationAround_iff rfl inside
    constructor
    · intro none s inRoot holds
      obtain ⟨o, innermost⟩ : ∃ o, Site.Innermost d.site (·.Holds t) t o :=
        Site.exists_innermost rfl inside inRoot holds.around holds
      rw [← around, none] at innermost
      cases innermost
    · intro none
      refine Option.eq_none_iff_forall_ne_some.mpr fun o found => ?_
      have innermost := (around o).mp found
      exact none o innermost.inside innermost.holds

/-- In a document with binds, a function, an object and a comprehension there are five symbols. -/
theorem mixed_symbols_mirror :
    ofParseTree "file:///x" mixedTree = .ok mixedDocument ∧
    ∃ forest : List SiteTree, List.Forall₂ SiteTree.Mirrors forest mixedDocument.symbols ∧
      (SiteTree.allSites forest).length = 5 ∧
      ∀ s t, SiteTree.Child forest s t ↔ t ∈ mixedDocument.sites ∧ t.declares ∧
        Site.Innermost mixedDocument.site (·.Holds t) t s := by
  obtain ⟨forest, mirrors, perm, children, -⟩ := symbols_mirror mixed_built
  refine ⟨mixed_built, forest, mirrors, ?_, children⟩
  rw [perm.length_eq]
  decide +kernel

end Document

end JsonnetNav
