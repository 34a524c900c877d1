import JsonnetNav.Definition.FieldScope
import JsonnetNav.Proofs.BoundOnce
import Mathlib

/-! # Well-formed scopes

The scopes of a resolved document form a tree with one scope for the document and one for each
node that has a scope. Each variable is bound once in all of it, and each object has a scope of
fields with one binding for each key that is written out.
-/

namespace JsonnetNav

theorem filter_eq_singleton {α : Type} {xs : List α} {p : α → Bool} {x : α} (nodup : xs.Nodup)
    (member : x ∈ xs) (only : ∀ y ∈ xs, p y = true ↔ y = x) : xs.filter p = [x] := by
  rw [← List.perm_singleton, List.perm_ext_iff_of_nodup (nodup.filter p) (List.nodup_singleton x)]
  intro y
  rw [List.mem_filter, List.mem_singleton]
  constructor
  · intro ⟨inList, holds⟩
    exact (only y inList).mp holds
  · intro same
    subst same
    exact ⟨member, (only y member).mpr rfl⟩

theorem Site.path_of_parent {s p : Site} (around : s.parent? = some p) :
    p.path = s.path.tail := by
  obtain ⟨uri, node, above⟩ := s
  cases above with
  | nil => cases around
  | cons edge above =>
      cases around
      rfl

/-- A posting knows the node that bound it. -/
theorem Site.parent_of_posting {s : Site} {holder : Option Site} {p : ScopeTable.Posting}
    (posts : s.posting? holder = some p) : p.id.parent? = some s := by
  obtain ⟨binder, -, rfl⟩ := Option.map_eq_some_iff.mp posts
  rfl

/-! ## The fields of objects -/

namespace Site

/-- The field that is bound when a walk comes to this key: one of an object, under a name that is
    written out. -/
def bindsField? (key : Site) : Option FieldBinding :=
  match key.node with
  | .key (.fixed _ id) => do
    let field ← key.parent?
    let object ← field.parent?
    if object.kind = .object then
      some ⟨id.name, key.part .id (.fieldName id), field, object⟩
    else none
  | _ => none

theorem kind_eq_object {s : Site} : s.kind = .object ↔ ∃ range binds assertions fs,
    s.node = .expr (.object range binds assertions fs) := by
  obtain ⟨uri, node, above⟩ := s
  cases node with
  | expr e => cases e <;> simp [kind, Node.kind, Expr.kind]
  | key k => cases k <;> simp [kind, Node.kind]
  | _ => simp [kind, Node.kind]

/-- The name in the key of a field, if it is written out. -/
def fixedName? (field : Site) : Option (Text × Site) :=
  match field.node with
  | .field f => f.key.id?.map fun id =>
    (id.name, (field.part .key (.key f.key)).part .id (.fieldName id))
  | _ => none

theorem bindsField_eq_some {key : Site} {b : FieldBinding} :
    key.bindsField? = some b ↔ ∃ range id, key.node = .key (.fixed range id) ∧
      key.parent? = some b.target ∧ b.target.parent? = some b.owner ∧ b.owner.kind = .object ∧
      b.name = id.name ∧ b.id = key.part .id (.fieldName id) := by
  unfold bindsField?
  split
  · rename_i range id node
    simp only [Option.bind_eq_bind, Option.bind_eq_some_iff, Option.ite_none_right_eq_some, node,
      Option.some.injEq, Node.key.injEq, FieldKey.fixed.injEq]
    constructor
    · rintro ⟨field, around, object, outer, isObject, rfl⟩
      exact ⟨range, id, ⟨rfl, rfl⟩, around, outer, isObject, rfl, rfl⟩
    · rintro ⟨_, _, ⟨rfl, rfl⟩, around, outer, isObject, name, place⟩
      refine ⟨_, around, _, outer, isObject, ?_⟩
      rw [← name, ← place]
  · rename_i other
    constructor
    · intro none
      cases none
    · rintro ⟨range, id, node, -⟩
      exact absurd node (other range id)

theorem bindsField_key {s : Site} (object : s.kind = .object) (i : Nat) (f : Field) :
    ((s.down ⟨.fields, i⟩ (.field f)).part .key (.key f.key)).bindsField? =
      FieldBinding.ofField? s i f := by
  obtain ⟨range, key, value, visibility, inherited⟩ := f
  cases key with
  | fixed range id =>
      simp [bindsField?, part, down, parent?, object, FieldBinding.ofField?, FieldKey.id?]
  | computed range e => rfl

end Site

namespace Walk

/-- The keys of the fields of an object. -/
def keySites (s : Site) (fs : List Field) : List Site :=
  (fieldSites s fs).map fun x => x.1.part .key (.key x.2.key)

theorem keySites_sublist {s : Site} {range : Range} {binds : List LocalBind}
    {assertions : List Assertion} {fs : List Field}
    (node : s.node = .expr (.object range binds assertions fs)) :
    (keySites s fs).Sublist (entered s) := by
  have first (sites : List Site) : sites.Sublist (sites.flatMap entered) := by
    induction sites with
    | nil => exact .slnil
    | cons k sites ih =>
        rw [List.flatMap_cons, entered_eq]
        exact (ih.trans (List.sublist_append_right _ _)).cons_cons k
  have keys : ((fieldSites s fs).map fun x => Action.visit (x.1.part .key (.key x.2.key))).flatMap
      Action.entered = (keySites s fs).flatMap entered := by
    simp [keySites, List.flatMap_map, Action.entered]
  obtain ⟨uri, _, above⟩ := s
  cases node
  rw [entered_eq]
  simp only [inner, fields, List.flatMap_append, List.append_assoc, keys]
  refine .cons _ ((first _).trans ?_)
  exact (List.sublist_append_left _ _).trans (List.sublist_append_right _ _)

theorem bindings_eq {s : Site} {range : Range} {binds : List LocalBind}
    {assertions : List Assertion} {fs : List Field}
    (node : s.node = .expr (.object range binds assertions fs)) :
    (fs.mapIdx (FieldBinding.ofField? s)).filterMap id =
      (keySites s fs).filterMap Site.bindsField? := by
  have object : s.kind = .object := by simp [Site.kind, node, Node.kind, Expr.kind]
  have each : fs.mapIdx (FieldBinding.ofField? s) = (keySites s fs).map Site.bindsField? := by
    apply List.ext_getElem <;> simp [keySites, fieldSites, Site.bindsField_key object]
  rw [each, List.filterMap_map]
  rfl

theorem owner_of_keySites {s key : Site} {fs : List Field} {b : FieldBinding}
    (listed : key ∈ keySites s fs) (binds : key.bindsField? = some b) : b.owner = s := by
  obtain ⟨x, inFields, rfl⟩ := List.mem_map.mp listed
  obtain ⟨i, bound, rfl⟩ := List.mem_mapIdx.mp inFields
  obtain ⟨_, _, -, around, outer, -⟩ := Site.bindsField_eq_some.mp binds
  rw [← Option.some.inj around] at outer
  exact (Option.some.inj outer).symm

theorem mem_keySites {s field key : Site} {range : Range} {binds : List LocalBind}
    {assertions : List Assertion} {fs : List Field} {k : FieldKey}
    (node : s.node = .expr (.object range binds assertions fs)) (isField : field ∈ s.children)
    (child : key ∈ field.children) (isKey : key.node = .key k) : key ∈ keySites s fs := by
  simp only [Site.children_eq, node, Node.parts, Expr.parts, List.flatMap_cons, List.flatMap_nil,
    List.append_nil, List.mem_append, Site.inPart, Site.mem_row] at isField
  have noKey (none : ∀ part ∈ field.node.parts, .key k ∉ part.nodes) : False := by
    obtain ⟨edge, listed, rfl⟩ := Site.mem_children.mp child
    obtain ⟨part, inParts, inPart⟩ := List.mem_flatMap.mp listed
    exact none part inParts (isKey ▸ Node.mem_nodes_of_mem_edges inPart)
  rcases isField with ⟨i, b, -, rfl⟩ | ⟨i, a, -, rfl⟩ | ⟨i, f, found, rfl⟩
  · exact (noKey (by simp [Site.down, Node.parts, Part.nodes])).elim
  · exact (noKey (by simp [Site.down, Node.parts, Part.nodes])).elim
  · obtain ⟨bound, rfl⟩ := List.getElem?_eq_some_iff.mp found
    rw [Site.children_eq, Site.down, Node.parts, List.flatMap_cons, List.mem_append] at child
    rcases child with first | rest
    · cases List.mem_singleton.mp first
      exact List.mem_map.mpr ⟨_, List.mem_mapIdx.mpr ⟨i, bound, rfl⟩, rfl⟩
    · cases List.mem_singleton.mp rest
      cases isKey

end Walk

namespace Document

variable {d : Document} {uri : Uri}

/-- The fields that are bound on a walk, in the order of the walk. -/
def boundFields (d : Document) : List FieldBinding :=
  (Walk.entered d.site).filterMap Site.bindsField?

/-- What the name of a field was bound to at last; nothing before the document is resolved. -/
def bindingOfName? (d : Document) (name : Site) : Option FieldBinding :=
  if d.isResolved then d.boundFields.reverse.find? (·.id.isAt name) else none

theorem mem_sites_of_parent (d : Document) {s p : Site} (inside : s ∈ d.sites)
    (around : s.parent? = some p) : p ∈ d.sites ∧ s ∈ p.children := by
  rcases Site.parent_of_mem_preorder inside with rfl | ⟨q, outer, child⟩
  · cases around
  · cases Option.some.inj ((Site.parent_of_mem_children child).symm.trans around)
    exact ⟨outer, child⟩

theorem Built.nodup_boundFields (built : d.Built uri) : d.boundFields.Nodup := by
  have entered : (Walk.entered d.site).Nodup :=
    built.entered_perm.nodup_iff.mpr (d.site.nodup_preorder.filter _)
  refine entered.filterMap fun key key' b here there => ?_
  obtain ⟨_, _, -, -, -, -, -, place⟩ := Site.bindsField_eq_some.mp here
  obtain ⟨_, _, -, -, -, -, -, place'⟩ := Site.bindsField_eq_some.mp there
  exact Option.some.inj (congrArg Site.parent? (place.symm.trans place'))

theorem Built.mem_boundFields (built : d.Built uri) {b : FieldBinding} :
    b ∈ d.boundFields ↔ ∃ key ∈ d.sites, key.bindsField? = some b := by
  rw [boundFields, List.mem_filterMap]
  constructor
  · intro ⟨key, entered, binds⟩
    exact ⟨key, (built.enter_iff.mp (Walk.mem_entered.mp entered)).1, binds⟩
  · intro ⟨key, member, binds⟩
    obtain ⟨_, _, node, -⟩ := Site.bindsField_eq_some.mp binds
    exact ⟨key, Walk.mem_entered.mpr (built.enter_iff.mpr ⟨member, by simp [Walk.isWalked, node]⟩),
      binds⟩

/-- The fields of an object are those that a walk binds for it. -/
theorem Built.fields_eq (built : d.Built uri) {s : Site} (member : s ∈ d.sites) {range : Range}
    {binds : List LocalBind} {assertions : List Assertion} {fs : List Field}
    (node : s.node = .expr (.object range binds assertions fs)) :
    d.boundFields.filter (·.owner.isAt s) = (fs.mapIdx (FieldBinding.ofField? s)).filterMap id := by
  rw [Walk.bindings_eq node]
  let own := (Walk.keySites s fs).filterMap Site.bindsField?
  have keys : (Walk.keySites s fs).Sublist (Walk.entered d.site) := by
    have walked : Walk.isWalked s := by simp [Walk.isWalked, node]
    have whole : Walk.isClause s = false := by simp [Walk.isClause, node]
    have inside := Walk.infix_of_enter built.isClause_site whole
      (built.enter_iff.mpr ⟨member, walked⟩)
    exact (Walk.keySites_sublist node).trans (inside.sublist.filterMap Walk.entered?)
  have listed : own.Sublist (d.boundFields.filter (·.owner.isAt s)) := by
    have ours : own.filter (·.owner.isAt s) = own := by
      refine List.filter_eq_self.mpr fun b bound => ?_
      obtain ⟨key, inObject, binds⟩ := List.mem_filterMap.mp bound
      rw [Walk.owner_of_keySites inObject binds]
      exact (Site.isAt_iff member member).mpr rfl
    rw [← ours]
    exact (keys.filterMap _).filter _
  have complete : d.boundFields.filter (·.owner.isAt s) ⊆ own := by
    intro b bound
    obtain ⟨inWalk, isAt⟩ := List.mem_filter.mp bound
    obtain ⟨key, keyInside, binds⟩ := built.mem_boundFields.mp inWalk
    obtain ⟨range, id, isKey, around, outer, object, name, place⟩ :=
      Site.bindsField_eq_some.mp binds
    obtain ⟨fieldInside, isChild⟩ := d.mem_sites_of_parent keyInside around
    obtain ⟨objectInside, isField⟩ := d.mem_sites_of_parent fieldInside outer
    rw [(Site.isAt_iff objectInside member).mp isAt] at isField
    exact List.mem_filterMap.mpr ⟨key, Walk.mem_keySites node isField isChild isKey, binds⟩
  -- the fields stand in the walk in their order, and there are no others
  have noLonger := ((built.nodup_boundFields.filter _).subperm complete).length_le
  exact (listed.eq_of_length_le noLonger).symm

theorem Built.bindingOfName_eq (built : d.Built uri) {b : FieldBinding}
    (bound : b ∈ d.boundFields) : d.resolve.bindingOfName? b.id = some b := by
  have nameInside {b : FieldBinding} {key : Site} (member : key ∈ d.sites)
      (binds : key.bindsField? = some b) : b.id ∈ d.sites ∧ b.id.parent? = some key := by
    obtain ⟨range, id, node, -, -, -, -, place⟩ := Site.bindsField_eq_some.mp binds
    rw [place]
    have listed : .child .id (.fieldName id) ∈ key.node.parts := by simp [node, Node.parts]
    have child : key.part .id (.fieldName id) ∈ key.preorder :=
      Site.mem_preorder_of_part listed (.head _)
    exact ⟨Site.mem_preorder_trans member child, rfl⟩
  have only : d.boundFields.filter (·.id.isAt b.id) = [b] := by
    refine filter_eq_singleton built.nodup_boundFields bound fun b' bound' => ?_
    obtain ⟨key, member, binds⟩ := built.mem_boundFields.mp bound
    obtain ⟨key', member', binds'⟩ := built.mem_boundFields.mp bound'
    obtain ⟨inside, parent⟩ := nameInside member binds
    obtain ⟨inside', parent'⟩ := nameInside member' binds'
    rw [Site.isAt_iff inside' inside]
    constructor
    · intro same
      rw [same, parent] at parent'
      cases parent'
      exact Option.some.inj (binds'.symm.trans binds)
    · exact congrArg FieldBinding.id
  have lookUp : d.resolve.bindingOfName? b.id =
      d.boundFields.reverse.find? (·.id.isAt b.id) := rfl
  rw [lookUp, ← List.head?_filter, List.filter_reverse, only]
  rfl

theorem fixedNames_eq {s : Site} {range : Range} {binds : List LocalBind}
    {assertions : List Assertion} {fs : List Field}
    (node : s.node = .expr (.object range binds assertions fs)) :
    ((fs.mapIdx (FieldBinding.ofField? s)).filterMap id).map (fun b => (b.target, b.name, b.id)) =
      s.children.filterMap fun f => f.fixedName?.map (f, ·) := by
  let named (f : Site) : Option (Site × Text × Site) := f.fixedName?.map (f, ·)
  let entry (b : FieldBinding) : Site × Text × Site := (b.target, b.name, b.id)
  have each : (fs.mapIdx (FieldBinding.ofField? s)).map (Option.map entry) =
      (s.row .fields (fs.map .field)).map named := by
    apply List.ext_getElem
    · simp [Site.row]
    · intro i _ _
      simp [Site.row, FieldBinding.ofField?, named, entry, Site.fixedName?, Site.down,
        Function.comp_def]
  have others {α : Type} (role : Role) {f : α → Node} (xs : List α)
      (unnamed : ∀ step x, named (s.down step (f x)) = none) :
      (s.row role (xs.map f)).filterMap named = [] := by
    refine List.filterMap_eq_nil_iff.mpr fun c member => ?_
    obtain ⟨i, x, -, rfl⟩ := Site.mem_row.mp member
    exact unnamed _ x
  calc ((fs.mapIdx (FieldBinding.ofField? s)).filterMap id).map entry
      = ((fs.mapIdx (FieldBinding.ofField? s)).map (Option.map entry)).filterMap id := by
        rw [List.map_filterMap, List.filterMap_map]
        rfl
    _ = (s.row .fields (fs.map .field)).filterMap named := by
        rw [each, List.filterMap_map]
        rfl
    _ = s.children.filterMap named := by
        rw [Site.children_eq, node]
        simp only [Node.parts, Expr.parts, List.flatMap_cons, List.flatMap_nil, List.append_nil,
          Site.inPart, List.filterMap_append]
        rw [others .binds binds fun _ _ => rfl, others .assertions assertions fun _ _ => rfl]
        rfl

/-! ## All scopes of a document -/

/-- What is known of the scopes of a resolved document. -/
structure ScopedBy (d : Document) (t : ScopeTable) : Prop where
  tree : t.Treelike
  owners : (t.scopes.toList.map Scope.owner).Perm (d.site :: d.sites.filter (·.kind.ownsScope))
  postings : t.postings.Perm (d.sites.filterMap fun s => s.posting? s.holder?)
  top : t.scopes[0]?.map (fun scope => (scope.owner, scope.parent)) = some (d.site, none)

theorem Built.opened_perm (built : d.Built uri) :
    ((Walk.events .keysFirst d.site).filterMap Event.opened?).Perm
      (d.sites.filter (·.kind.ownsScope)) := by
  rw [← List.filterMap_eq_filter]
  apply built.filterMap_events
  · intro s
    simp only [Walk.ownEvents, Walk.scopeEvents]
    cases owns : s.kind.ownsScope <;>
      simp [Event.opened?, owns, List.filterMap_cons, Option.guard]
  · intro s t owns
    obtain ⟨rfl, owns⟩ := Option.guard_eq_some_iff.mp owns
    obtain ⟨uri, node, above⟩ := s
    cases node with
    | var id => cases owns
    | importee i => cases owns
    | _ => rfl

theorem Built.scopedBy (built : d.Built uri) : d.ScopedBy (Resolution.run d.site none).scopes := by
  obtain ⟨st, resolved, tree, -, -, owned, posted⟩ := Resolution.charted_run d.site
  have table : (Resolution.run d.site none).scopes = st.table := congrArg _ resolved.symm
  have top : st.table.scopes[0]?.map (fun scope => (scope.owner, scope.parent)) =
      some (d.site, none) := by
    have first := congrArg List.head? owned
    rw [List.head?_map, List.head?_cons] at first
    obtain ⟨scope, found, owner⟩ := Option.map_eq_some_iff.mp first
    rw [List.head?_eq_getElem?, Array.getElem?_toList] at found
    have parent := (tree.root found).mpr rfl
    simp [found, owner, parent]
  rw [table]
  refine ⟨tree, ?_, posted.trans built.postings_perm, top⟩
  rw [owned]
  exact built.opened_perm.cons d.site

namespace ScopedBy

variable {t : ScopeTable}

theorem nodup_owners (fits : d.ScopedBy t) (built : d.Built uri) :
    (t.scopes.toList.map Scope.owner).Nodup := by
  obtain ⟨range, body, root⟩ := built.root
  rw [fits.owners.nodup_iff, List.nodup_cons]
  refine ⟨?_, d.site.nodup_preorder.filter _⟩
  simp [site, Site.kind, root, Node.kind, Expr.kind, Kind.ownsScope]

theorem reaches_iff (fits : d.ScopedBy t) {i : Nat} : t.Reaches 0 i ↔ i < t.scopes.size := by
  apply fits.tree.reaches_iff
  have size := fits.owners.length_eq
  simp only [List.length_map, List.length_cons, Array.length_toList] at size
  omega

theorem bijOn_owners (fits : d.ScopedBy t) (built : d.Built uri) :
    Set.BijOn (fun i => t.scopes[i]?.map Scope.owner) {i | t.Reaches 0 i}
      {o | ∃ s ∈ d.sites, o = some s ∧ (s = d.site ∨ s.kind.ownsScope)} := by
  have isOwner {s : Site} : s ∈ t.scopes.toList.map Scope.owner ↔
      s ∈ d.sites ∧ (s = d.site ∨ s.kind.ownsScope) := by
    rw [fits.owners.mem_iff, List.mem_cons, List.mem_filter]
    constructor
    · rintro (rfl | ⟨member, owns⟩)
      · exact ⟨Site.mem_preorder_self _, .inl rfl⟩
      · exact ⟨member, .inr owns⟩
    · rintro ⟨member, rfl | owns⟩
      · exact .inl rfl
      · exact .inr ⟨member, owns⟩
  refine ⟨?_, ?_, ?_⟩
  · intro i reached
    have inTable := fits.reaches_iff.mp reached
    have listed : t.scopes[i].owner ∈ t.scopes.toList.map Scope.owner :=
      List.mem_map_of_mem (by simp)
    obtain ⟨member, owns⟩ := isOwner.mp listed
    exact ⟨_, member, by simp [inTable], owns⟩
  · intro i reached j reached' same
    have inTable := fits.reaches_iff.mp reached
    have sameOwner : (t.scopes.toList.map Scope.owner)[i]? =
        (t.scopes.toList.map Scope.owner)[j]? := by simpa using same
    have bound : i < (t.scopes.toList.map Scope.owner).length := by simpa using inTable
    exact (List.getElem?_inj bound (fits.nodup_owners built)).mp sameOwner
  · rintro o ⟨s, member, rfl, owns⟩
    obtain ⟨scope, listed, rfl⟩ := List.mem_map.mp (isOwner.mpr ⟨member, owns⟩)
    obtain ⟨i, found⟩ := Array.mem_iff_getElem?.mp (Array.mem_toList_iff.mp listed)
    have inTable := (Array.getElem?_eq_some_iff.mp found).1
    exact ⟨i, fits.reaches_iff.mpr inTable, by simp [found]⟩

theorem child_once (fits : d.ScopedBy t) {i : Nat} (reached : t.Reaches 0 i) (inner : i ≠ 0) :
    ∃ p, t.parentOf? i = some p ∧ t.Reaches 0 p ∧ ∀ q s, t.scopes[q]? = some s →
      (t.childrenOf s).count i = if q = p then 1 else 0 := by
  have inTable := fits.reaches_iff.mp reached
  have found := Array.getElem?_eq_getElem inTable
  cases outer : t.scopes[i].parent with
  | none => exact absurd ((fits.tree.root found).mp outer) inner
  | some p =>
      have parent : t.parentOf? i = some p := by simp [ScopeTable.parentOf?, found, outer]
      have older := fits.tree.parent found outer
      refine ⟨p, parent, fits.reaches_iff.mpr (Nat.lt_trans older inTable), fun q s found' => ?_⟩
      rw [fits.tree.count_children found' inTable, parent]
      simp [eq_comm]

theorem mem_postings (fits : d.ScopedBy t) {p : ScopeTable.Posting} :
    p ∈ t.postings ↔ ∃ s ∈ d.sites, s.posting? s.holder? = some p := by
  rw [fits.postings.mem_iff, List.mem_filterMap]

theorem nodup_postings (fits : d.ScopedBy t) : t.postings.Nodup := by
  rw [fits.postings.nodup_iff]
  refine d.site.nodup_preorder.filterMap fun s s' p here there => ?_
  have parent := Site.parent_of_posting here
  rw [Site.parent_of_posting there] at parent
  exact (Option.some.inj parent).symm

/-- Bindings at one place were posted by one node, so they are one binding. -/
theorem eq_of_isAt (fits : d.ScopedBy t) {b b' : Binding} (bound : b ∈ t.allBindings)
    (bound' : b' ∈ t.allBindings) (isAt : b'.id.isAt b.id) : b' = b := by
  have nodup := fits.nodup_postings
  rw [fits.tree.postings] at nodup
  have poster {b : Binding} (bound : b ∈ t.allBindings) :
      ∃ s ∈ d.sites, s.posting? s.holder? = some (t.posting b) := by
    rw [← fits.mem_postings, fits.tree.postings]
    exact List.mem_map_of_mem bound
  obtain ⟨s, member, posts⟩ := poster bound
  obtain ⟨s', member', posts'⟩ := poster bound'
  simp only [Site.isAt, Bool.and_eq_true, decide_eq_true_eq] at isAt
  have path : s'.path = s.path := by
    rw [Site.path_of_parent (Site.parent_of_posting posts'),
      Site.path_of_parent (Site.parent_of_posting posts)]
    exact congrArg List.tail isAt.2
  cases Site.eq_of_path_eq member' member path
  exact List.inj_on_of_nodup_map nodup bound' bound (Option.some.inj (posts'.symm.trans posts))

/-- Each variable is bound once in all scopes, in the one that should hold it. -/
theorem bound_once (fits : d.ScopedBy t) {s : Site} (member : s ∈ d.sites) {id : Ident}
    {target : Site} (binds : s.binds? = some (id, target)) : ∃ i scope,
      t.Reaches 0 i ∧ t.scopes[i]? = some scope ∧ s.holder? = some scope.owner ∧
      ⟨id.name, s.part .id (.var id), target, i⟩ ∈ t.bindings scope ∧
      t.allBindings.filter (·.id.isAt (s.part .id (.var id))) =
        [⟨id.name, s.part .id (.var id), target, i⟩] := by
  obtain ⟨b, bound, same⟩ : ∃ b ∈ t.allBindings,
      t.posting b = ⟨s.holder?, id.name, s.part .id (.var id), target⟩ := by
    rw [← List.mem_map, ← fits.tree.postings, fits.mem_postings]
    exact ⟨s, member, by simp [Site.posting?, binds]⟩
  obtain ⟨scope, found, inScope⟩ := fits.tree.mem_allBindings bound
  have owner : t.ownerOf? b = some scope.owner := by simp [ScopeTable.ownerOf?, found]
  have inTable := (Array.getElem?_eq_some_iff.mp found).1
  obtain ⟨name, place, target', i⟩ := b
  obtain ⟨holder, rfl, rfl, rfl⟩ := ScopeTable.Posting.mk.inj same
  refine ⟨i, scope, fits.reaches_iff.mpr inTable, found, holder.symm.trans owner, inScope, ?_⟩
  have nodup : t.allBindings.Nodup := .of_map t.posting (fits.tree.postings ▸ fits.nodup_postings)
  refine filter_eq_singleton nodup bound fun b' bound' => ?_
  constructor
  · exact fits.eq_of_isAt bound bound'
  · intro isBinding
    simp [isBinding, Site.isAt]

end ScopedBy

/-- The scopes of a resolved document are as the document says. -/
structure WellScoped (d : Document) (t : ScopeTable) : Prop where
  /-- The first scope belongs to the document, and no scope is around it. -/
  top : t.scopes[0]?.map (fun scope => (scope.owner, scope.parent)) = some (d.site, none)
  /-- The scopes below the first one and the nodes that have scopes belong together. -/
  owners : Set.BijOn (fun i => t.scopes[i]?.map Scope.owner) {i | t.Reaches 0 i}
    {o | ∃ s ∈ d.sites, o = some s ∧ (s = d.site ∨ s.kind.ownsScope)}
  /-- Every other scope is listed once by its parent, and nowhere else. -/
  children : ∀ i, t.Reaches 0 i → i ≠ 0 → ∃ p, t.parentOf? i = some p ∧ t.Reaches 0 p ∧
    ∀ q scope, t.scopes[q]? = some scope →
      (t.childrenOf scope).count i = if q = p then 1 else 0
  /-- Every variable has one binding in all scopes, and the scope that should hold it does. -/
  bound : ∀ s ∈ d.sites, ∀ id target, s.binds? = some (id, target) → ∃ i scope,
    t.Reaches 0 i ∧ t.scopes[i]? = some scope ∧ s.holder? = some scope.owner ∧
    ⟨id.name, s.part .id (.var id), target, i⟩ ∈ t.bindings scope ∧
    t.allBindings.filter (·.id.isAt (s.part .id (.var id))) =
      [⟨id.name, s.part .id (.var id), target, i⟩] ∧
    d.bindingOf? (s.part .id (.var id)) = some ⟨id.name, s.part .id (.var id), target, i⟩
  /-- Every object has a binding for each field whose key is written out, the last one first,
      and they are what the names in the keys are bound to. -/
  fields : ∀ s ∈ d.sites, s.kind = .object → ∃ bindings,
    d.fieldScope? s = some ⟨⟨s, bindings, 0⟩, []⟩ ∧
    bindings = (d.boundFields.filter (·.owner.isAt s)).reverse ∧
    bindings.map (fun b => (b.target, b.name, b.id)) =
      (s.children.filterMap fun f => f.fixedName?.map (f, ·)).reverse ∧
    ∀ b ∈ bindings, b.owner = s ∧ d.bindingOfName? b.id = some b

/-- A document that is resolved once has well-formed scopes. -/
theorem wellScoped_resolve {tree : ParseTree} (done : ofParseTree uri tree = .ok d) :
    ∃ r, d.resolve.resolution = some r ∧ d.resolve.WellScoped r.scopes := by
  have built := built done
  have fits := built.scopedBy
  have resolved : d.resolve.resolution = some (Resolution.run d.site none) := by
    rw [resolve, built.unresolved]
  refine ⟨_, resolved, fits.top, fits.bijOn_owners built, fun i => fits.child_once, ?_, ?_⟩
  · intro s member id target binds
    obtain ⟨i, scope, reached, found, holder, bound, only⟩ := fits.bound_once member binds
    refine ⟨i, scope, reached, found, holder, bound, only, ?_⟩
    rw [bindingOf?, resolved, Option.bind_some, fits.tree.bindingOf_eq, only]
    rfl
  · intro s member isObject
    obtain ⟨range, binds, assertions, fs, node⟩ := Site.kind_eq_object.mp isObject
    have scope : d.resolve.fieldScope? s =
        some ⟨⟨s, ((fs.mapIdx (FieldBinding.ofField? s)).filterMap id).reverse, 0⟩, []⟩ := by
      rw [fieldScope?, FieldScope.ofObject?, node]
      rfl
    have walked := built.fields_eq member node
    refine ⟨_, scope, congrArg List.reverse walked.symm, ?_, ?_⟩
    · rw [List.map_reverse, fixedNames_eq node]
    · intro b listed
      rw [List.mem_reverse] at listed
      have bound : b ∈ d.boundFields := by
        rw [← walked] at listed
        exact (List.mem_filter.mp listed).1
      rw [Walk.bindings_eq node] at listed
      obtain ⟨key, inObject, binds⟩ := List.mem_filterMap.mp listed
      exact ⟨Walk.owner_of_keySites inObject binds, built.bindingOfName_eq bound⟩

def mixedObjectSite : Site :=
  mixedSite.part .body (.expr mixedObject)

/-- The bind inside of the object of the sample. -/
def mixedInnerBind : LocalBind :=
  ⟨Range.ofNats 0 37 0 42, mixedIdent 37 "y", .ref (mixedIdent 41 "f")⟩

def mixedInnerBindSite : Site :=
  mixedObjectSite.down ⟨.binds, 0⟩ (.bind mixedInnerBind)

/-- The scope of the object in the sample holds the variable that is bound in the object. -/
theorem mixed_wellScoped :
    ofParseTree "file:///x" mixedTree = .ok mixedDocument ∧
    ∃ r, mixedDocument.resolve.resolution = some r ∧ mixedDocument.resolve.WellScoped r.scopes ∧
      ∃ i scope, r.scopes.scopes[i]? = some scope ∧ scope.owner = mixedObjectSite ∧
        mixedDocument.resolve.bindingOf? (mixedInnerBindSite.part .id (.var mixedInnerBind.id)) =
          some ⟨mixedInnerBind.id.name, mixedInnerBindSite.part .id (.var mixedInnerBind.id),
            mixedInnerBindSite.part .value (.expr mixedInnerBind.value), i⟩ := by
  obtain ⟨r, resolved, wellScoped⟩ := wellScoped_resolve mixed_built
  have member : mixedInnerBindSite ∈ mixedDocument.resolve.sites :=
    List.mem_of_getElem? (i := 13) (by cbv)
  obtain ⟨i, scope, -, found, holder, -, -, binding⟩ := wellScoped.bound _ member _ _ rfl
  exact ⟨mixed_built, r, resolved, wellScoped, i, scope, found, (Option.some.inj holder).symm,
    binding⟩

end Document
end JsonnetNav
