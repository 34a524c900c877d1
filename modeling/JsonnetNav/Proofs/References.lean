import JsonnetNav.Proofs.Resolution

/-! # Variables and their references

What can be seen at a site of a document are variables of that document under their own
names. So resolution splits the references of a document among its variables: a reference
that stands for a variable is listed once, with that variable.
-/

namespace JsonnetNav

theorem Expr.isExpr_kind (e : Expr) : e.kind.isExpr := by
  cases e <;> rfl

namespace Site

theorem mem_introduced {sites : List Site} {entry : Text × Site} :
    entry ∈ introduced sites ↔ ∃ s ∈ sites, s.introduces? = some entry := by
  rw [introduced, List.mem_reverse, List.mem_filterMap]

theorem introduces_var {s v : Site} {name : Text} (introduces : s.introduces? = some (name, v)) :
    v ∈ s.children ∧ ∃ id : Ident, v = s.part .id (.var id) ∧ id.name = name := by
  obtain ⟨uri, node, above⟩ := s
  rw [children_eq]
  cases node with
  | bind b =>
      cases introduces
      exact ⟨List.mem_flatMap.mpr ⟨_, .head _, .head _⟩, b.id, rfl, rfl⟩
  | param p =>
      cases introduces
      exact ⟨List.mem_flatMap.mpr ⟨_, .head _, .head _⟩, p.id, rfl, rfl⟩
  | forSpec f =>
      cases introduces
      exact ⟨List.mem_flatMap.mpr ⟨_, .head _, .head _⟩, f.id, rfl, rfl⟩
  | _ => cases introduces

/-- The variables that the children of a site introduce. -/
def binders (s : Site) : Env :=
  introduced s.children

theorem mem_binders_of_row {s : Site} {role : Role} {nodes : List Node} {sites : List Site}
    {entry : Text × Site} (listed : .children role nodes ∈ s.node.parts)
    (some_of : ∀ c ∈ sites, c ∈ s.row role nodes) (member : entry ∈ introduced sites) :
    entry ∈ s.binders := by
  obtain ⟨c, inSites, introduces⟩ := mem_introduced.mp member
  exact mem_introduced.mpr ⟨c, mem_children_of_part listed (some_of c inSites), introduces⟩

theorem mem_locals {s : Site} {entry : Text × Site} (member : entry ∈ s.locals) :
    entry ∈ s.binders := by
  unfold locals at member
  split at member
  · rename_i node
    exact mem_binders_of_row (by simp [node, Node.parts, Expr.parts]) (fun _ inRow => inRow) member
  · rename_i node
    exact mem_binders_of_row (by simp [node, Node.parts, Expr.parts]) (fun _ inRow => inRow) member
  · simp at member

theorem mem_binders_of_clauses {s : Site} {clause : ForSpec} {rest : List CompSpec}
    {sites : List Site} {entry : Text × Site}
    (listed : [.child .forSpec (.forSpec clause), .children .compSpec (rest.map CompSpec.node)] ⊆
      s.node.parts)
    (some_of : ∀ c ∈ sites, c ∈ Walk.clauseSites s clause rest)
    (member : entry ∈ introduced sites) : entry ∈ s.binders := by
  obtain ⟨c, inSites, introduces⟩ := mem_introduced.mp member
  refine mem_introduced.mpr ⟨c, ?_, introduces⟩
  rcases List.mem_cons.mp (some_of c inSites) with rfl | inRow
  · exact mem_children_of_part (listed (.head _)) (.head _)
  · exact mem_children_of_part (listed (.tail _ (.head _))) inRow

/-- What an expression shows to its parts is introduced by its children. -/
theorem mem_binders_of_shows {s : Site} {e : Expr} (node : s.node = .expr e) {step : Step}
    {entry : Text × Site} (member : entry ∈ s.shows step) : entry ∈ s.binders := by
  have parts : s.node.parts = e.parts := by
    rw [node]
    rfl
  have firstOf {xs : List Site} (n : Nat) : ∀ c ∈ xs.take n, c ∈ xs := fun _ => List.mem_of_mem_take
  have all {xs : List Site} : ∀ c ∈ xs, c ∈ xs := fun _ inRow => inRow
  rw [shows, node] at member
  obtain ⟨role, index⟩ := step
  cases e with
  | localIn range binds body =>
      cases role with
      | binds => exact mem_binders_of_row (by simp [parts, Expr.parts]) (firstOf _) member
      | body => exact mem_binders_of_row (by simp [parts, Expr.parts]) all member
      | _ => cases member
  | fn range params body => exact mem_binders_of_row (by simp [parts, Expr.parts]) all member
  | listComp range body clause rest =>
      cases role with
      | compSpec => exact mem_binders_of_clauses (by simp [parts, Expr.parts]) (firstOf _) member
      | expr => exact mem_binders_of_clauses (by simp [parts, Expr.parts]) all member
      | _ => cases member
  | object range binds assertions fields =>
      cases role with
      | binds => exact mem_binders_of_row (by simp [parts, Expr.parts]) (firstOf _) member
      | assertions => exact mem_locals member
      | _ => cases member
  | objComp range field binds assertions clause rest =>
      cases role with
      | compSpec => exact mem_binders_of_clauses (by simp [parts, Expr.parts]) (firstOf _) member
      | binds =>
          rcases List.mem_append.mp member with member | member
          · exact mem_binders_of_row (by simp [parts, Expr.parts]) (firstOf _) member
          · exact mem_binders_of_clauses (by simp [parts, Expr.parts]) all member
      | asserts =>
          rcases List.mem_append.mp member with member | member
          · exact mem_locals member
          · exact mem_binders_of_clauses (by simp [parts, Expr.parts]) all member
      | field => exact mem_binders_of_clauses (by simp [parts, Expr.parts]) all member
      | _ => cases member
  | _ => cases member

/-- What a node shows to its parts is introduced by its children. Only a bind shows its own
    variable, and a field what is introduced beside it. -/
theorem mem_shows {s : Site} {step : Step} {entry : Text × Site} (member : entry ∈ s.shows step) :
    entry ∈ s.binders ∨ s.kind.isExpr = false ∧
      (s.introduces? = some entry ∨ ∃ p, s.parent? = some p ∧ entry ∈ p.binders) := by
  cases node : s.node with
  | expr e => exact .inl (mem_binders_of_shows node member)
  | bind b =>
      rw [shows, node] at member
      cases role : step.role with
      | value =>
          rw [role] at member
          obtain ⟨c, only, introduces⟩ := mem_introduced.mp member
          cases List.mem_singleton.mp only
          exact .inr ⟨by simp [kind, node, Node.kind, Kind.isExpr], .inl introduces⟩
      | _ => simp [role] at member
  | field f =>
      rw [shows, node] at member
      cases role : step.role with
      | value =>
          rw [role] at member
          cases parent : s.parent? with
          | none => simp [parent] at member
          | some p =>
              rw [parent] at member
              have beside := mem_locals member
              exact .inr ⟨by simp [kind, node, Node.kind, Kind.isExpr], .inr ⟨p, rfl, beside⟩⟩
      | _ => simp [role] at member
  | _ => simp [shows, node] at member

theorem mem_binders {s v : Site} {name : Text} (member : (name, v) ∈ s.binders) :
    v ∈ s.preorder ∧ ∃ id : Ident, v.node = .var id ∧ id.name = name := by
  obtain ⟨c, child, introduces⟩ := mem_introduced.mp member
  obtain ⟨inside, id, rfl, same⟩ := introduces_var introduces
  have below : c.part .id (.var id) ∈ c.preorder := mem_preorder_of_child inside
  exact ⟨mem_preorder.mpr (.inr ⟨c, child, below⟩), id, rfl, same⟩

theorem parent_of_mem_children {s c : Site} (child : c ∈ s.children) : c.parent? = some s := by
  obtain ⟨edge, -, rfl⟩ := mem_children.mp child
  rfl

theorem parent_of_mem_preorder {s t : Site} (inside : t ∈ s.preorder) :
    t = s ∨ ∃ p ∈ s.preorder, t ∈ p.children := by
  rcases mem_preorder.mp inside with rfl | ⟨c, child, below⟩
  · exact .inl rfl
  · have smaller := sizeOf_child child
    have inside := mem_preorder_of_child child
    rcases parent_of_mem_preorder below with rfl | ⟨p, inChild, isChild⟩
    · exact .inr ⟨s, mem_preorder_self s, child⟩
    · exact .inr ⟨p, mem_preorder_trans inside inChild, isChild⟩
termination_by sizeOf s.node

/-- What a site inside of an expression sees more than the expression itself is introduced
    by the children of nodes around the site. -/
theorem visible_inside {s t : Site} (expr : s.kind.isExpr) (inside : t ∈ s.preorder) :
    ∃ inner : Env, t.visible = inner ++ s.visible ∧
      ∀ entry ∈ inner, ∃ p ∈ s.preorder,
        (∃ c ∈ p.children, t ∈ c.preorder) ∧ entry ∈ p.binders := by
  rcases parent_of_mem_preorder inside with rfl | ⟨p, around, child⟩
  · exact ⟨[], rfl, fun entry member => by cases member⟩
  · obtain ⟨edge, inNode, same⟩ := mem_children.mp child
    have outer : p.above.length < t.above.length := by simp [same, down]
    obtain ⟨inner, sees, introduced⟩ := visible_inside expr around
    have below := mem_preorder_of_child child
    refine ⟨p.shows edge.1 ++ inner, ?_, ?_⟩
    · rw [List.append_assoc, ← sees, same]
      rfl
    · intro entry member
      rcases List.mem_append.mp member with shown | further
      · rcases mem_shows shown with here | ⟨noExpr, beside⟩
        · exact ⟨p, around, ⟨t, child, mem_preorder_self t⟩, here⟩
        · -- the expression itself is no bind and no field, so the node has a parent inside of it
          rcases parent_of_mem_preorder around with rfl | ⟨q, around, isChild⟩
          · rw [expr] at noExpr
            cases noExpr
          · refine ⟨q, around, ⟨p, isChild, below⟩, ?_⟩
            rcases beside with introduces | ⟨q', parent, member⟩
            · exact mem_introduced.mpr ⟨p, isChild, introduces⟩
            · rw [parent_of_mem_children isChild] at parent
              cases parent
              exact member
      · obtain ⟨q, inside, ⟨c, isChild, beneath⟩, member⟩ := introduced entry further
        exact ⟨q, inside, ⟨c, isChild, mem_preorder_trans beneath below⟩, member⟩
termination_by t.above.length

end Site

namespace Document

variable {d : Document} {uri : Uri}

theorem Built.introduced_around (built : d.Built uri) {s : Site} {entry : Text × Site}
    (inside : s ∈ d.sites) (member : entry ∈ s.visible) :
    ∃ p ∈ d.sites, (∃ c ∈ p.children, s ∈ c.preorder) ∧ entry ∈ p.binders := by
  obtain ⟨range, body, root⟩ := built.root
  have expr : d.site.kind.isExpr := by
    rw [Site.kind, site, root]
    rfl
  obtain ⟨inner, sees, introduced⟩ := Site.visible_inside expr inside
  have nothing : d.site.visible = [] := rfl
  rw [sees, nothing, List.append_nil] at member
  exact introduced entry member

/-- What can be seen in a document are its variables under their names. -/
theorem Built.mem_visible (built : d.Built uri) {s v : Site} {name : Text} (inside : s ∈ d.sites)
    (member : (name, v) ∈ s.visible) :
    v ∈ d.sites ∧ ∃ id : Ident, v.node = .var id ∧ id.name = name := by
  obtain ⟨p, around, -, binds⟩ := built.introduced_around inside member
  obtain ⟨below, id, node, same⟩ := Site.mem_binders binds
  exact ⟨Site.mem_preorder_trans around below, id, node, same⟩

theorem Built.mem_visible_of_lookup (built : d.Built uri) {s v : Site} {name : Text}
    (inside : s ∈ d.sites) (found : s.visible.lookup name = some v) :
    v ∈ d.sites ∧ ∃ id : Ident, v.node = .var id ∧ id.name = name := by
  obtain ⟨before, after, split, -⟩ := List.lookup_eq_some_iff.mp found
  exact built.mem_visible inside (by simp [split])

/-- The references of a document that stand for a variable, each with its variable, in the
    order of the walk. -/
def found (d : Document) : List (Site × Site) :=
  (Walk.events .keysFirst d.site).flatMap Event.finds

theorem Built.entered_perm (built : d.Built uri) :
    (Walk.entered d.site).Perm (d.sites.filter Walk.isWalked) := by
  obtain ⟨range, body, root⟩ := built.root
  have perm := Walk.covered_perm d.site
  have all : Walk.covered d.site = Walk.entered d.site := by
    simp [Walk.covered, Walk.starts, site, root]
  rw [all] at perm
  exact perm

theorem Built.enter_iff (built : d.Built uri) {s : Site} :
    .enter s ∈ Walk.events .keysFirst d.site ↔ s ∈ d.sites ∧ Walk.isWalked s := by
  rw [← Walk.mem_entered, built.entered_perm.mem_iff, List.mem_filter]

theorem Built.mem_found (built : d.Built uri) {ref var : Site} :
    (ref, var) ∈ d.found ↔ ref ∈ d.sites ∧ ∃ id, ref.node = .expr (.ref id) ∧
      ref.visible.lookup id.name = some var := by
  rw [found, mem_finds]
  simp only [built.enter_iff]
  constructor
  · intro ⟨id, ⟨inside, walked⟩, node, visible⟩
    exact ⟨inside, id, node, visible⟩
  · intro ⟨inside, id, node, visible⟩
    exact ⟨id, ⟨inside, by simp [Walk.isWalked, node]⟩, node, visible⟩

/-- A reference stands for a variable of its own name. -/
theorem Built.names_of_found (built : d.Built uri) {ref var : Site}
    (member : (ref, var) ∈ d.found) :
    var ∈ d.sites ∧
      ∃ id id', ref.node = .expr (.ref id) ∧ var.node = .var id' ∧ id'.name = id.name := by
  obtain ⟨inside, id, node, visible⟩ := built.mem_found.mp member
  obtain ⟨inSites, id', isVar, same⟩ := built.mem_visible_of_lookup inside visible
  exact ⟨inSites, id, id', node, isVar, same⟩

theorem finds_sublist (events : List Event) :
    ((events.flatMap Event.finds).map Prod.fst).Sublist (events.filterMap Walk.entered?) := by
  have step (event : Event) : (event.finds.map Prod.fst).Sublist (Walk.entered? event).toList := by
    unfold Event.finds
    split
    · split
      · rename_i s _ id node
        cases s.visible.lookup id.name <;> simp [Walk.entered?]
      · simp
    · simp
  induction events with
  | nil => simp
  | cons event events ih =>
      rw [List.flatMap_cons, List.map_append]
      have first := step event
      cases entered : Walk.entered? event with
      | none =>
          rw [entered] at first
          rw [List.filterMap_cons_none entered, List.sublist_nil.mp first]
          exact ih
      | some s =>
          rw [entered] at first
          rw [List.filterMap_cons_some entered]
          exact first.append ih

/-- No reference is found twice. -/
theorem Built.nodup_found (built : d.Built uri) : (d.found.map Prod.fst).Nodup := by
  refine List.Nodup.sublist (finds_sublist _) ?_
  exact (built.entered_perm.nodup_iff).mpr (d.site.nodup_preorder.filter _)

theorem Built.context_eq (built : d.Built uri) : d.site.context = [] := by
  obtain ⟨range, body, root⟩ := built.root
  simp [Site.context, site, root, Site.visible, Site.visibleBehind]

theorem Built.uses_resolve (built : d.Built uri) :
    ∃ r, d.resolve.resolution = some r ∧
      r.uses.toList.map (fun use => (use.ref, use.binding.id)) = d.found := by
  refine ⟨_, rfl, ?_⟩
  rw [built.unresolved]
  exact Resolution.found_run built.context_eq

/-- A reference stands for the variable that it is found with. -/
theorem Built.bindingOfRef_eq_some (built : d.Built uri) {ref var : Site} (inside : ref ∈ d.sites) :
    (d.resolve.bindingOfRef? ref).map Binding.id = some var ↔ (ref, var) ∈ d.found := by
  obtain ⟨r, resolved, uses⟩ := built.uses_resolve
  have lookUp : d.resolve.bindingOfRef? ref = r.bindingOfRef? ref := by
    simp [bindingOfRef?, resolved]
  have isFound {use : Use} (member : use ∈ r.uses) : (use.ref, use.binding.id) ∈ d.found := by
    rw [← uses]
    exact List.mem_map_of_mem (Array.mem_toList_iff.mpr member)
  rw [lookUp, Resolution.bindingOfRef?, Option.map_map]
  constructor
  · intro answer
    obtain ⟨use, first, same⟩ := Option.map_eq_some_iff.mp answer
    have member := isFound (Array.mem_of_find?_eq_some first)
    have isAt : use.ref.isAt ref = true := by simpa using Array.find?_some first
    have place := (Site.isAt_iff (built.mem_found.mp member).1 inside).mp isAt
    rw [← place, ← same]
    exact member
  · intro member
    have listed := member
    rw [← uses] at listed
    obtain ⟨use, inUses, same⟩ := List.mem_map.mp listed
    cases first : r.uses.find? (·.ref.isAt ref) with
    | none =>
        have missed := Array.find?_eq_none.mp first use (Array.mem_toList_iff.mp inUses)
        simp [(Prod.mk.inj same).1, Site.isAt] at missed
    | some other =>
        -- the reference is found only once, so any use of it is the one that is listed
        have also := isFound (Array.mem_of_find?_eq_some first)
        have isAt : other.ref.isAt ref = true := by simpa using Array.find?_some first
        have place := (Site.isAt_iff (built.mem_found.mp also).1 inside).mp isAt
        have pairs := List.inj_on_of_nodup_map built.nodup_found also member place
        simp [(Prod.mk.inj pairs).2]

/-- A reference stands for the newest variable of its name that can be seen at it. -/
theorem Built.bindingOfRef_lookup (built : d.Built uri) {ref : Site} (inside : ref ∈ d.sites)
    {id : Ident} (node : ref.node = .expr (.ref id)) :
    (d.resolve.bindingOfRef? ref).map Binding.id = ref.visible.lookup id.name := by
  apply Option.ext
  intro var
  rw [built.bindingOfRef_eq_some inside, built.mem_found]
  constructor
  · rintro ⟨-, id', same, visible⟩
    rw [node] at same
    cases same
    exact visible
  · intro visible
    exact ⟨inside, id, node, visible⟩

theorem Built.references_eq (built : d.Built uri) (var : Site) :
    d.resolve.references var = (d.found.filter (·.2.isAt var)).map Prod.fst := by
  obtain ⟨r, resolved, uses⟩ := built.uses_resolve
  rw [← uses, List.filter_map, List.map_map]
  simp only [references, resolved, Resolution.references]
  rfl

/-- The references to a variable are those that stand for it. -/
theorem Built.mem_references (built : d.Built uri) {ref var : Site} (inside : var ∈ d.sites) :
    ref ∈ d.resolve.references var ↔ (ref, var) ∈ d.found := by
  rw [built.references_eq, List.mem_map]
  constructor
  · intro ⟨use, listed, same⟩
    obtain ⟨member, isAt⟩ := List.mem_filter.mp listed
    have place := (Site.isAt_iff (built.names_of_found member).1 inside).mp isAt
    rw [← same, ← place]
    exact member
  · intro member
    exact ⟨(ref, var), List.mem_filter.mpr ⟨member, by simp [Site.isAt]⟩, rfl⟩

theorem Built.nodup_references (built : d.Built uri) (var : Site) :
    (d.resolve.references var).Nodup := by
  rw [built.references_eq]
  exact built.nodup_found.sublist (List.filter_sublist.map Prod.fst)

end Document

end JsonnetNav
