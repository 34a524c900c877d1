import JsonnetNav.Proofs.FoundInside
import JsonnetNav.Proofs.ObjectSums
import Mathlib

/-! # The object that `self` stands for

In the value of a field, in a local bind and in an assertion `self` stands for the object
they belong to. A computed key belongs to what is around the object, and so do the clauses of
a comprehension. What is found for `self` is the innermost object around it, whatever way
leads there. This is another object than the one meant if `self` stands in a computed key of
it, or in a comprehension inside of it.
-/

namespace JsonnetNav

namespace Site

/-! ## Sites around a site -/

theorem mem_preorder_antisymm {s t : Site} (first : s ∈ t.preorder) (second : t ∈ s.preorder) :
    s = t := by
  obtain ⟨way, path⟩ := path_of_mem_preorder first
  obtain ⟨back, path'⟩ := path_of_mem_preorder second
  have lengths := congrArg List.length path
  rw [path', List.length_append, List.length_append] at lengths
  have none : way = [] := List.eq_nil_of_length_eq_zero (by omega)
  rw [none, List.nil_append] at path
  exact eq_of_path_eq first (mem_preorder_self t) path

/-- A site that lies below another one does so together with its parent. -/
theorem parent_mem_preorder {s c o : Site} (child : c ∈ s.children) (below : c ∈ o.preorder)
    (different : c ≠ o) : s ∈ o.preorder := by
  rcases parent_of_mem_preorder below with same | ⟨p, inside, child'⟩
  · exact absurd same different
  · exact eq_parent child' child ▸ inside

section Root

variable {root s : Site} (top : root.above = [])

include top

/-- The sites that are met on the way outwards are those that the site lies in. -/
theorem mem_outward_iff (inside : s ∈ root.preorder) (o : Site) :
    o ∈ s.outward ↔ o ∈ root.preorder ∧ s ∈ o.preorder := by
  refine preorder_induction
    (motive := fun s => o ∈ s.outward ↔ o ∈ root.preorder ∧ s ∈ o.preorder) ?_ ?_ s inside
  · rw [outward, top, around, List.mem_singleton]
    constructor
    · rintro rfl
      exact ⟨mem_preorder_self o, mem_preorder_self o⟩
    · rintro ⟨below, above⟩
      exact mem_preorder_antisymm below above
  · intro p inRoot outer c child
    rw [outward_of_child child, List.mem_cons, outer]
    constructor
    · rintro (rfl | ⟨below, inner⟩)
      · exact ⟨mem_preorder_trans inRoot (mem_preorder_of_child child), mem_preorder_self o⟩
      · exact ⟨below, mem_preorder_trans inner (mem_preorder_of_child child)⟩
    · rintro ⟨below, inner⟩
      by_cases same : o = c
      · exact .inl same
      · exact .inr ⟨below, parent_mem_preorder child inner (Ne.symm same)⟩

/-- On the way outwards every site lies in those after it. -/
theorem pairwise_outward (inside : s ∈ root.preorder) :
    s.outward.Pairwise fun a b => a ∈ b.preorder := by
  refine preorder_induction
    (motive := fun s => s.outward.Pairwise fun a b => a ∈ b.preorder) ?_ ?_ s inside
  · rw [outward, top, around]
    exact List.pairwise_singleton ..
  · intro p inRoot outer c child
    rw [outward_of_child child, List.pairwise_cons]
    refine ⟨fun o further => ?_, outer⟩
    have around := ((mem_outward_iff top inRoot o).mp further).2
    exact mem_preorder_trans around (mem_preorder_of_child child)

/-- Of two sites that lie around the same one, one lies in the other. -/
theorem nested_of_around {o o' : Site} (inside : s ∈ root.preorder) (inRoot : o ∈ root.preorder)
    (around : s ∈ o.preorder) (inRoot' : o' ∈ root.preorder) (around' : s ∈ o'.preorder) :
    o ∈ o'.preorder ∨ o' ∈ o.preorder := by
  have first := (mem_outward_iff top inside o).mpr ⟨inRoot, around⟩
  have second := (mem_outward_iff top inside o').mpr ⟨inRoot', around'⟩
  obtain ⟨i, hi, rfl⟩ := List.getElem_of_mem first
  obtain ⟨j, hj, rfl⟩ := List.getElem_of_mem second
  have pairs := List.pairwise_iff_getElem.mp (pairwise_outward top inside)
  rcases Nat.lt_trichotomy i j with less | rfl | greater
  · exact .inl (pairs i j hi hj less)
  · exact .inl (mem_preorder_self _)
  · exact .inr (pairs j i hj hi greater)

end Root

/-- Of the sites below the root that have a property and that the site lies in, this is the
    innermost one. -/
structure Innermost (root : Site) (P : Site → Prop) (s o : Site) : Prop where
  inside : o ∈ root.preorder
  around : s ∈ o.preorder
  holds : P o
  innermost : ∀ o' ∈ root.preorder, s ∈ o'.preorder → P o' → o ∈ o'.preorder

theorem Innermost.unique {root s o o' : Site} {P : Site → Prop} (first : Innermost root P s o)
    (second : Innermost root P s o') : o = o' :=
  mem_preorder_antisymm (first.innermost o' second.inside second.around second.holds)
    (second.innermost o first.inside first.around first.holds)

/-- The first site with a property that is met on the way outwards is the innermost one. -/
theorem innermost_of_outward {root s o : Site} (top : root.above = []) (inside : s ∈ root.preorder)
    {P : Site → Prop} {before after : List Site} (split : s.outward = before ++ o :: after)
    (holds : P o) (others : ∀ b ∈ before, ¬ P b) : Innermost root P s o := by
  have member : o ∈ s.outward := by simp [split]
  obtain ⟨inRoot, around⟩ := (mem_outward_iff top inside o).mp member
  refine ⟨inRoot, around, holds, fun o' inRoot' around' holds' => ?_⟩
  have member' := (mem_outward_iff top inside o').mpr ⟨inRoot', around'⟩
  rw [split, List.mem_append, List.mem_cons] at member'
  rcases member' with earlier | rfl | later
  · exact absurd holds' (others o' earlier)
  · exact mem_preorder_self o'
  · have pairs := pairwise_outward top inside
    rw [split, List.pairwise_append, List.pairwise_cons] at pairs
    exact pairs.2.1.1 o' later

theorem exists_innermost {root s o : Site} (top : root.above = []) (inside : s ∈ root.preorder)
    {P : Site → Prop} (inRoot : o ∈ root.preorder) (around : s ∈ o.preorder) (holds : P o) :
    ∃ o, Innermost root P s o := by
  classical
  have member := (mem_outward_iff top inside o).mpr ⟨inRoot, around⟩
  cases found : s.outward.find? (fun o => decide (P o)) with
  | none => exact absurd holds (by simpa using List.find?_eq_none.mp found o member)
  | some o' =>
      obtain ⟨holds', before, after, split, others⟩ := List.find?_eq_some_iff_append.mp found
      refine ⟨o', innermost_of_outward top inside split (of_decide_eq_true holds') fun b earlier => ?_⟩
      simpa using others b earlier

theorem enclosingIn_none (cls : NodeClass) (sites : List Site) :
    enclosingIn cls none sites = sites.find? (·.node.isA cls) := by
  induction sites with
  | nil => rfl
  | cons s sites ih =>
      rw [enclosingIn, List.find?_cons]
      cases s.node.isA cls with
      | true => rfl
      | false => exact ih

/-- The site has an object as its node, and no comprehension. -/
def IsObject (s : Site) : Prop :=
  s.kind = .object

theorem IsObject.exists_node {s : Site} (object : s.IsObject) :
    ∃ range binds assertions fields, s.node = .expr (.object range binds assertions fields) := by
  obtain ⟨uri, node, above⟩ := s
  cases node with
  | expr e =>
      cases e with
      | object range binds assertions fields => exact ⟨range, binds, assertions, fields, rfl⟩
      | _ => cases object
  | key k => cases k <;> cases object
  | _ => cases object

theorem isObject_iff (s : Site) : s.node.isA (.only .object) = true ↔ s.IsObject := by
  simp [Node.isA, NodeClass.has, IsObject, kind]

/-- The object that is found around a site is the innermost one. -/
theorem enclosing_object_iff {root s : Site} (top : root.above = []) (inside : s ∈ root.preorder)
    (o : Site) : s.enclosing? (.only .object) = some o ↔ Innermost root IsObject s o := by
  rw [enclosing?, enclosingIn_none]
  have first {o : Site} (found : s.outward.find? (·.node.isA (.only .object)) = some o) :
      Innermost root IsObject s o := by
    obtain ⟨holds, before, after, split, others⟩ := List.find?_eq_some_iff_append.mp found
    refine innermost_of_outward top inside split ((isObject_iff o).mp holds) fun b earlier object => ?_
    simpa [(isObject_iff b).mpr object] using others b earlier
  refine ⟨first, fun innermost => ?_⟩
  cases found : s.outward.find? (·.node.isA (.only .object)) with
  | some o' => rw [(first found).unique innermost]
  | none =>
      have member := (mem_outward_iff top inside o).mpr ⟨innermost.inside, innermost.around⟩
      exact absurd ((isObject_iff o).mpr innermost.holds) (List.find?_eq_none.mp found o member)

/-! ## Parts of objects -/

/-- The value of a field. -/
def fieldValue? (field : Site) : Option Site :=
  match field.node with
  | .field f => some (field.part .value (.expr f.value))
  | _ => none

/-- The key of a field. -/
def fieldKey? (field : Site) : Option Site :=
  match field.node with
  | .field f => some (field.part .key (.key f.key))
  | _ => none

/-- The fields of an object or a comprehension. -/
def fieldSites (o : Site) : List Site :=
  match o.node with
  | .expr (.object _ _ _ fields) => o.row .fields (fields.map .field)
  | .expr (.objComp _ field _ _ _ _) => [o.part .field (.field field)]
  | _ => []

/-- The local binds and assertions of an object or a comprehension. -/
def localSites (o : Site) : List Site :=
  match o.node with
  | .expr (.object _ binds assertions _) =>
    o.row .binds (binds.map .bind) ++ o.row .assertions (assertions.map .assertion)
  | .expr (.objComp _ _ binds assertions _ _) =>
    o.row .binds (binds.map .bind) ++ o.row .asserts (assertions.map .assertion)
  | _ => []

/-- The site lies in the value of a field, a local bind or an assertion of the object or
    comprehension. -/
def LiesIn (s o : Site) : Prop :=
  ∃ part ∈ o.localSites ++ o.fieldSites.filterMap fieldValue?, s ∈ part.preorder

/-- The site lies in the key of a field of the object or comprehension. -/
def LiesInKey (s o : Site) : Prop :=
  ∃ key ∈ o.fieldSites.filterMap fieldKey?, s ∈ key.preorder

theorem parts_subset (o : Site) : o.localSites ++ o.fieldSites ⊆ o.children := by
  intro c member
  rw [children_eq]
  unfold localSites fieldSites at member
  split at member
  · rename_i node
    simp only [node, Node.parts, Expr.parts, inPart, List.flatMap_cons, List.mem_append] at member ⊢
    tauto
  · rename_i node
    simp only [node, Node.parts, Expr.parts, inPart, List.flatMap_cons, List.mem_append] at member ⊢
    tauto
  · simp_all

theorem IsObject.children_eq {o : Site} (object : o.IsObject) :
    o.children = o.localSites ++ o.fieldSites := by
  obtain ⟨range, binds, assertions, fields, node⟩ := object.exists_node
  rw [Site.children_eq]
  simp [node, Node.parts, Expr.parts, inPart, localSites, fieldSites]

/-- The children of a field are its key and its value. -/
theorem mem_children_of_fieldSites {o field : Site} (member : field ∈ o.fieldSites) :
    field.kind = .field ∧
      ∀ c, c ∈ field.children ↔ field.fieldKey? = some c ∨ field.fieldValue? = some c := by
  have isField : ∃ f, field.node = .field f := by
    unfold fieldSites at member
    split at member
    · obtain ⟨i, f, -, rfl⟩ := mem_row.mp member
      exact ⟨f, rfl⟩
    · exact ⟨_, by rw [List.mem_singleton.mp member]; rfl⟩
    · cases member
  obtain ⟨f, node⟩ := isField
  refine ⟨by rw [kind, node]; rfl, fun c => ?_⟩
  rw [children_eq, node]
  simp [Node.parts, inPart, fieldKey?, fieldValue?, node, eq_comm]

/-- What lies in a part of an object lies in the object. -/
theorem LiesIn.around {s o : Site} (lies : s.LiesIn o) : s ∈ o.preorder := by
  obtain ⟨part, listed, below⟩ := lies
  refine mem_preorder_trans ?_ below
  rcases List.mem_append.mp listed with inner | value
  · exact mem_preorder_of_child (parts_subset o (List.mem_append_left _ inner))
  · obtain ⟨field, member, found⟩ := List.mem_filterMap.mp value
    have inField := ((mem_children_of_fieldSites member).2 part).mpr (.inr found)
    have inObject := parts_subset o (List.mem_append_right _ member)
    exact mem_preorder_trans (mem_preorder_of_child inObject) (mem_preorder_of_child inField)

theorem LiesIn.kind {s o : Site} (lies : s.LiesIn o) : o.IsObject ∨ o.kind = .objComp := by
  obtain ⟨part, listed, -⟩ := lies
  unfold localSites fieldSites at listed
  split at listed
  · rename_i node
    exact .inl (by rw [IsObject, Site.kind, node]; rfl)
  · rename_i node
    exact .inr (by rw [Site.kind, node]; rfl)
  · simp at listed

theorem kind_of_localSites {o c : Site} (member : c ∈ o.localSites) :
    c.kind = .bind ∨ c.kind = .assertion := by
  have ofRow {α : Type} {role : Role} {f : α → Node} {xs : List α} {kind : Kind}
      (same : ∀ x, (f x).kind = kind) (inRow : c ∈ o.row role (xs.map f)) : c.kind = kind := by
    obtain ⟨i, x, -, rfl⟩ := mem_row.mp inRow
    exact same x
  unfold localSites at member
  split at member
  · exact (List.mem_append.mp member).imp (ofRow fun _ => rfl) (ofRow fun _ => rfl)
  · exact (List.mem_append.mp member).imp (ofRow fun _ => rfl) (ofRow fun _ => rfl)
  · cases member

theorem fieldKey_ne_fieldValue {field part : Site} (key : field.fieldKey? = some part) :
    field.fieldValue? ≠ some part := by
  unfold fieldKey? at key
  unfold fieldValue?
  split at key
  · rename_i f node
    cases key
    simp [node, Site.part, down]
  · cases key

/-- Where `self` stands in an object, it stands either in a part of the object or in a key. -/
theorem liesIn_iff_not_liesInKey {s o : Site} (object : o.IsObject) (around : s ∈ o.preorder)
    (isSelf : s.kind = .self) : s.LiesIn o ↔ ¬ s.LiesInKey o := by
  have inObject {field : Site} (member : field ∈ o.fieldSites) : field ∈ o.children :=
    parts_subset o (List.mem_append_right _ member)
  constructor
  · rintro ⟨part, listed, below⟩ ⟨key, isKey, below'⟩
    obtain ⟨field, member, found⟩ := List.mem_filterMap.mp isKey
    obtain ⟨isField, children⟩ := mem_children_of_fieldSites member
    have keyInField := (children key).mpr (.inl found)
    have inField := mem_preorder_trans (mem_preorder_of_child keyInField) below'
    rcases List.mem_append.mp listed with inner | value
    · have child := parts_subset o (List.mem_append_left _ inner)
      cases child_eq_of_path_eq child (inObject member) below inField rfl
      rcases kind_of_localSites inner with bind | assertion
      · cases bind.symm.trans isField
      · cases assertion.symm.trans isField
    · obtain ⟨field', member', found'⟩ := List.mem_filterMap.mp value
      have valueInField := ((mem_children_of_fieldSites member').2 part).mpr (.inr found')
      have inField' := mem_preorder_trans (mem_preorder_of_child valueInField) below
      cases child_eq_of_path_eq (inObject member') (inObject member) inField' inField rfl
      cases child_eq_of_path_eq valueInField keyInField below below' rfl
      exact fieldKey_ne_fieldValue found found'
  · intro outsideKeys
    rcases mem_preorder.mp around with rfl | ⟨c, child, below⟩
    · cases object.symm.trans isSelf
    rw [object.children_eq] at child
    rcases List.mem_append.mp child with inner | member
    · exact ⟨c, List.mem_append_left _ inner, below⟩
    obtain ⟨isField, children⟩ := mem_children_of_fieldSites member
    rcases mem_preorder.mp below with rfl | ⟨part, inField, below⟩
    · cases isField.symm.trans isSelf
    rcases (children part).mp inField with key | value
    · exact absurd ⟨part, List.mem_filterMap.mpr ⟨c, member, key⟩, below⟩ outsideKeys
    · exact ⟨part, List.mem_append_right _ (List.mem_filterMap.mpr ⟨c, member, value⟩), below⟩

end Site

/-! ## What `self` stands for -/

namespace Document

variable {d : Document} {s : Site}

/-- What `self` at a site stands for: the innermost object or comprehension that it lies in a
    part of, outside of computed keys. -/
def SelfAt (d : Document) (s o : Site) : Prop :=
  Site.Innermost d.site s.LiesIn s o

/-- The fields of what `self` stands for. None are known if it stands for a comprehension, or
    for nothing. -/
inductive SelfScopes (d : Document) (s : Site) : List FieldScope → Prop where
  | object {o : Site} {scope : FieldScope} (stands : d.SelfAt s o)
      (fields : d.fieldScope? o = some scope) : SelfScopes d s [scope]
  | unknown (none : ∀ o, d.SelfAt s o → o.kind = .objComp) : SelfScopes d s []

theorem fieldScope_of_isObject (resolved : d.isResolved) {o : Site} (object : o.IsObject) :
    ∃ scope, d.fieldScope? o = some scope := by
  obtain ⟨range, binds, assertions, fields, node⟩ := object.exists_node
  rw [fieldScope?, if_pos resolved, FieldScope.ofObject?, node]
  exact ⟨_, rfl⟩

theorem owner_of_fieldScope {o : Site} {scope : FieldScope}
    (fields : d.fieldScope? o = some scope) : o.IsObject ∧ scope.layer.owner = o := by
  unfold fieldScope? FieldScope.ofObject? at fields
  split at fields
  · split at fields
    · rename_i node
      cases fields
      exact ⟨by rw [Site.IsObject, Site.kind, node]; rfl, rfl⟩
    · cases fields
  · cases fields

theorem exists_selfScopes (resolved : d.isResolved) (s : Site) :
    ∃ scopes, d.SelfScopes s scopes := by
  by_cases objects : ∃ o, d.SelfAt s o ∧ o.IsObject
  · obtain ⟨o, stands, object⟩ := objects
    obtain ⟨scope, fields⟩ := fieldScope_of_isObject resolved object
    exact ⟨[scope], .object stands fields⟩
  · refine ⟨[], .unknown fun o stands => stands.holds.kind.resolve_left fun object => ?_⟩
    exact objects ⟨o, stands, object⟩

theorem SelfScopes.unique {scopes scopes' : List FieldScope} (first : d.SelfScopes s scopes)
    (second : d.SelfScopes s scopes') : scopes = scopes' := by
  have clash {o : Site} {scope : FieldScope} (stands : d.SelfAt s o)
      (fields : d.fieldScope? o = some scope) (none : ∀ o, d.SelfAt s o → o.kind = .objComp) :
      False := by
    cases (owner_of_fieldScope fields).1.symm.trans (none o stands)
  cases first with
  | object stands fields =>
      cases second with
      | object stands' fields' =>
          cases stands.unique stands'
          cases fields.symm.trans fields'
          rfl
      | unknown none => exact (clash stands fields none).elim
  | unknown none =>
      cases second with
      | object stands fields => exact (clash stands fields none).elim
      | unknown _ => rfl

/-- The innermost object around `self` is what `self` stands for, unless `self` is in one of
    its keys or in a comprehension inside of it. -/
theorem selfScopes_of_object_iff {n : Site} {scope : FieldScope} (inside : s ∈ d.sites)
    (nearest : Site.Innermost d.site Site.IsObject s n) (fields : d.fieldScope? n = some scope) :
    d.SelfScopes s [scope] ↔
      s.LiesIn n ∧ ∀ c ∈ n.preorder, c.kind = .objComp → ¬ s.LiesIn c := by
  constructor
  · intro meant
    cases meant with
    | @object o _ stands fields' =>
        obtain rfl : o = n := by
          rw [← (owner_of_fieldScope fields').2, (owner_of_fieldScope fields).2]
        refine ⟨stands.holds, fun c below isComp lies => ?_⟩
        have inRoot := Site.mem_preorder_trans stands.inside below
        have around := stands.innermost c inRoot lies.around lies
        cases Site.mem_preorder_antisymm below around
        cases nearest.holds.symm.trans isComp
  · rintro ⟨lies, clear⟩
    refine .object ⟨nearest.inside, nearest.around, lies, fun o inRoot around lies' => ?_⟩ fields
    rcases lies'.kind with object | isComp
    · exact nearest.innermost o inRoot around object
    · have nested := Site.nested_of_around rfl inside nearest.inside nearest.around inRoot around
      exact nested.resolve_right fun below => clear o below isComp lies'

theorem selfScopes_of_no_object (none : ∀ o, ¬ Site.Innermost d.site Site.IsObject s o)
    (inside : s ∈ d.sites) : d.SelfScopes s [] := by
  refine .unknown fun o stands => stands.holds.kind.resolve_left fun object => ?_
  obtain ⟨n, nearest⟩ := Site.exists_innermost rfl inside stands.inside stands.around object
  exact none n nearest

end Document

theorem Search.each_bind_each {α β : Type} (xs : List α) (g : α → List β) :
    (each xs >>= fun x => each (g x)) = each (xs.flatMap g) := by
  change Search.mk _ = Search.mk _
  congr 1
  funext γ step b
  exact (foldlM_flatMap xs g step b).symm

namespace Workspace

variable {w : Workspace} {d : Document} {s : Site}

/-- For `self` the fields of the nearest object around it are found, in one step. -/
theorem toList_fieldScopes_self {range : Range} (isSelf : s.node = .expr (.self range))
    (file : s.demandFile = .ok ()) (depth : Nat) (t : CallerTable) :
    (w.fieldScopes (depth + 1) s).toList t =
      .ok (((s.enclosing? (.only .object)).bind w.objectScope?).toList, t) := by
  have plan : w.plan (.scopes s) = .ofOption (s.enclosing? (.only .object)) fun object =>
      .found (w.objectScope? object).toList := by
    rw [Workspace.plan, scopePlan, isSelf]
  have searched : w.fieldScopes (depth + 1) s = (w.plan (.scopes s)).run (w.search depth) := by
    rw [fieldScopes, search, Question.site, file]
    rfl
  have found : (s.enclosing? (.only .object)).toList.flatMap (fun o => (w.objectScope? o).toList) =
      ((s.enclosing? (.only .object)).bind w.objectScope?).toList := by
    cases s.enclosing? (.only .object) <;> simp
  rw [searched, plan, Plan.ofOption, Plan.run]
  simp only [Plan.run]
  rw [Search.each_bind_each, found, Search.toList_each]

/-- In every resolved document, whatever calls are known already: for `self` nothing can be
    found if the document is no file. Otherwise the fields of the innermost object around it
    are found, and nothing if there is no object around it. This is right exactly if `self` is
    in no key of that object, and in no comprehension inside of that object. -/
theorem self_finds_nearest_object (resolved : d.isResolved) (known : w.document? d.uri = some d)
    {s : Site} (inside : s ∈ d.sites) {range : Range} (isSelf : s.node = .expr (.self range))
    (depth : Nat) (t : CallerTable) :
    (∃! meant, d.SelfScopes s meant) ∧
    (∀ e, s.demandFile = .error e → (w.fieldScopes (depth + 1) s).toList t = .error e) ∧
    (s.demandFile = .ok () → ∃ found, (w.fieldScopes (depth + 1) s).toList t = .ok (found, t) ∧
      (∀ n, Site.Innermost d.site Site.IsObject s n →
        ∃ scope, d.fieldScope? n = some scope ∧ found = [scope]) ∧
      ((∀ o ∈ d.sites, o.IsObject → s ∉ o.preorder) → found = []) ∧
      (d.SelfScopes s found ↔ ∀ n, Site.Innermost d.site Site.IsObject s n →
        ¬ s.LiesInKey n ∧ ∀ c ∈ n.preorder, c.kind = .objComp → ¬ s.LiesIn c)) := by
  have kind : s.kind = .self := by
    rw [Site.kind, isSelf]
    rfl
  have uri {o : Site} (member : o ∈ d.sites) : w.objectScope? o = d.fieldScope? o := by
    have same : o.uri = d.uri := (Site.above_of_mem_preorder member).1
    rw [objectScope?, documentOf?, same, known, Option.bind_some]
  refine ⟨?_, fun e noFile => ?_, fun file => ⟨_, toList_fieldScopes_self isSelf file depth t, ?_⟩⟩
  · obtain ⟨meant, scopes⟩ := Document.exists_selfScopes resolved s
    exact ⟨meant, scopes, fun other scopes' => scopes'.unique scopes⟩
  · rw [fieldScopes, search, Question.site, noFile]
    rfl
  cases found : s.enclosing? (.only .object) with
  | none =>
      have none (n : Site) : ¬ Site.Innermost d.site Site.IsObject s n := by
        intro nearest
        rw [(Site.enclosing_object_iff rfl inside n).mpr nearest] at found
        cases found
      refine ⟨fun n nearest => absurd nearest (none n), fun _ => rfl, ?_⟩
      exact ⟨fun _ n nearest => absurd nearest (none n),
        fun _ => Document.selfScopes_of_no_object none inside⟩
  | some n =>
      have nearest := (Site.enclosing_object_iff rfl inside n).mp found
      obtain ⟨scope, fields⟩ := Document.fieldScope_of_isObject resolved nearest.holds
      have only : ((some n).bind w.objectScope?).toList = [scope] := by
        rw [Option.bind_some, uri nearest.inside, fields]
        rfl
      rw [only, Document.selfScopes_of_object_iff inside nearest fields,
        Site.liesIn_iff_not_liesInKey nearest.holds nearest.around kind]
      refine ⟨fun n' nearest' => ?_, fun outside => ?_, fun right n' nearest' => ?_, fun right => ?_⟩
      · cases nearest.unique nearest'
        exact ⟨scope, fields, rfl⟩
      · exact absurd nearest.around (outside n nearest.inside nearest.holds)
      · cases nearest.unique nearest'
        exact right
      · exact right n nearest

def selfAt (column : Nat) : Expr :=
  .self (Range.ofNats 0 column 0 (column + 4))

def selfName (column : Nat) (name : String) : Ident :=
  ⟨Range.ofNats 0 column 0 (column + 1), .ofString name⟩

/-- The field `[self]: null`. -/
def selfKeyed : Field :=
  ⟨Range.ofNats 0 5 0 17, .computed (Range.ofNats 0 5 0 11) (selfAt 6),
    .null (Range.ofNats 0 13 0 17), .default, false⟩

def selfKeyedObject : Expr :=
  .object (Range.ofNats 0 4 0 18) [] [] [selfKeyed]

/-- The field `[k]: self`. -/
def selfRepeated : Field :=
  ⟨Range.ofNats 0 24 0 33, .computed (Range.ofNats 0 24 0 27) (.ref (selfName 25 "k")),
    selfAt 29, .default, false⟩

def selfComp : Expr :=
  .objComp (Range.ofNats 0 23 0 46) selfRepeated [] []
    ⟨Range.ofNats 0 34 0 45, selfName 38 "k", .array (Range.ofNats 0 43 0 45) []⟩ []

def selfField (column stop : Nat) (name : String) (value : Expr) : Field :=
  ⟨Range.ofNats 0 column 0 stop,
    .fixed (Range.ofNats 0 column 0 (column + 1)) (selfName column name), value, .default, false⟩

def selfFields : List Field :=
  [selfField 1 18 "a" selfKeyedObject, selfField 20 46 "b" selfComp,
    selfField 48 55 "c" (selfAt 51)]

def selfObject : Expr :=
  .object (Range.ofNats 0 0 0 56) [] [] selfFields

/-- The document of `{a: {[self]: null}, b: {[k]: self for k in []}, c: self}`. -/
def selfDocument : Document :=
  Document.resolve
    { uri := "file:///x", root := .expr (.document (Range.ofNats 0 0 0 56) selfObject) }

def selfWorkspace : Workspace :=
  alone selfDocument

def selfObjectSite : Site :=
  selfDocument.site.part .body (.expr selfObject)

/-- The value of a field of the object. -/
def selfValue (i : Nat) (f : Field) : Site :=
  (selfObjectSite.down ⟨.fields, i⟩ (.field f)).part .value (.expr f.value)

def selfInKey : Site :=
  (((selfValue 0 (selfField 1 18 "a" selfKeyedObject)).down ⟨.fields, 0⟩ (.field selfKeyed)).part
    .key (.key selfKeyed.key)).part .expr (.expr (selfAt 6))

def selfInComp : Site :=
  ((selfValue 1 (selfField 20 46 "b" selfComp)).part .field (.field selfRepeated)).part .value
    (.expr (selfAt 29))

def selfInField : Site :=
  selfValue 2 (selfField 48 55 "c" (selfAt 51))

theorem self_mem_value : selfInKey ∈ (selfValue 0 (selfField 1 18 "a" selfKeyedObject)).preorder ∧
    selfInComp ∈ (selfValue 1 (selfField 20 46 "b" selfComp)).preorder := by
  constructor
  · refine Site.mem_preorder_trans
      (Site.mem_preorder_of_part (.tail _ (.tail _ (.head _))) (.head _)) ?_
    exact Site.mem_preorder_trans (Site.mem_preorder_of_part (.head _) (.head _))
      (Site.mem_preorder_of_part (.head _) (.head _))
  · refine Site.mem_preorder_trans (Site.mem_preorder_of_part (.head _) (.head _)) ?_
    exact Site.mem_preorder_of_part (.tail _ (.head _)) (.head _)

/-- Each `self` is in a value of the whole object, and so in the document. -/
theorem self_liesIn_object : selfInKey.LiesIn selfObjectSite ∧ selfInComp.LiesIn selfObjectSite ∧
    selfInField.LiesIn selfObjectSite :=
  ⟨⟨_, .head _, self_mem_value.1⟩, ⟨_, .tail _ (.head _), self_mem_value.2⟩,
    ⟨_, .tail _ (.tail _ (.head _)), Site.mem_preorder_self _⟩⟩

theorem self_mem_sites {s : Site} (lies : s.LiesIn selfObjectSite) : s ∈ selfDocument.sites :=
  Site.mem_preorder_trans (Site.mem_preorder_of_part (.head _) (.head _)) lies.around

theorem self_not_liesIn {s o : Site} (object : o.kind ≠ .object) (isComp : o.kind ≠ .objComp) :
    ¬ s.LiesIn o :=
  fun lies => lies.kind.elim object isComp

/-- For the last `self` the whole object is found, and that is what it stands for. -/
theorem self_in_field_found :
    (selfDocument.isResolved ∧ selfWorkspace.document? selfDocument.uri = some selfDocument ∧
      selfInField ∈ selfDocument.sites ∧ selfInField.demandFile = .ok ()) ∧
    ∃ found, (selfWorkspace.fieldScopes 1 selfInField).toList {} = .ok (found, {}) ∧
      selfDocument.SelfScopes selfInField found ∧
      found.map (fun scope => scope.layer.owner) = [selfObjectSite] := by
  have inside := self_mem_sites self_liesIn_object.2.2
  have nearest : Site.Innermost selfDocument.site Site.IsObject selfInField selfObjectSite :=
    (Site.enclosing_object_iff rfl inside _).mp rfl
  refine ⟨⟨rfl, rfl, inside, rfl⟩, ?_⟩
  obtain ⟨found, listed, ofNearest, -, right⟩ :=
    (self_finds_nearest_object (w := selfWorkspace) rfl rfl inside rfl 0 {}).2.2 rfl
  refine ⟨found, listed, right.mpr fun n nearest' => ?_, ?_⟩
  · cases nearest.unique nearest'
    have inValue := self_liesIn_object.2.2
    refine ⟨(Site.liesIn_iff_not_liesInKey nearest.holds inValue.around rfl).mp inValue, ?_⟩
    -- None of the sites around is a comprehension.
    intro c below isComp lies
    have outward := (Site.mem_outward_iff rfl inside c).mpr
      ⟨Site.mem_preorder_trans nearest.inside below, lies.around⟩
    have kinds : ∀ o ∈ selfInField.outward, o.kind ≠ .objComp := by
      rw [show selfInField.outward = [selfInField, _, selfObjectSite, selfDocument.site] from rfl]
      simp only [List.forall_mem_cons]
      exact ⟨by decide, by decide, by decide, by decide, fun _ => List.not_mem_nil.elim⟩
    exact kinds c outward isComp
  · obtain ⟨scope, fields, rfl⟩ := ofNearest _ nearest
    rw [List.map_singleton, (Document.owner_of_fieldScope fields).2]

/-- In a key of an object the key's own object is found for `self`, but `self` stands for the
    object around. In a comprehension the object around is found. -/
theorem self_in_key_misread :
    ((selfWorkspace.fieldScopes depthLimit selfInKey).results.map
        (·.map fun scope => scope.layer.owner.range) = .ok [Range.ofNats 0 4 0 18] ∧
      ∀ meant, selfDocument.SelfScopes selfInKey meant →
        meant.map (fun scope => scope.layer.owner.range) = [Range.ofNats 0 0 0 56]) ∧
    ((selfWorkspace.fieldScopes depthLimit selfInComp).results.map
        (·.map fun scope => scope.layer.owner.range) = .ok [Range.ofNats 0 0 0 56] ∧
      selfDocument.SelfScopes selfInComp []) := by
  obtain ⟨inKey, inComp, -⟩ := self_liesIn_object
  let keyed := selfValue 0 (selfField 1 18 "a" selfKeyedObject)
  let repeated := selfValue 1 (selfField 20 46 "b" selfComp)
  have notKeyed : ¬ selfInKey.LiesIn keyed := by
    have object : keyed.IsObject := rfl
    rw [Site.liesIn_iff_not_liesInKey object self_mem_value.1 rfl, not_not]
    exact ⟨_, .head _, Site.mem_preorder_of_part (.head _) (.head _)⟩
  have standsKey : selfDocument.SelfAt selfInKey selfObjectSite := by
    have split : selfInKey.outward = [_, _, _, keyed, _] ++ selfObjectSite :: [_] := rfl
    refine Site.innermost_of_outward rfl (self_mem_sites inKey) split inKey ?_
    simp only [List.forall_mem_cons]
    exact ⟨self_not_liesIn (by decide) (by decide), self_not_liesIn (by decide) (by decide),
      self_not_liesIn (by decide) (by decide), notKeyed, self_not_liesIn (by decide) (by decide),
      fun _ => List.not_mem_nil.elim⟩
  have standsComp : selfDocument.SelfAt selfInComp repeated := by
    have split : selfInComp.outward = [_, _] ++ repeated :: [_, _, _] := rfl
    refine Site.innermost_of_outward rfl (self_mem_sites inComp) split
      ⟨_, .head _, Site.mem_preorder_self _⟩ ?_
    simp only [List.forall_mem_cons]
    exact ⟨self_not_liesIn (by decide) (by decide), self_not_liesIn (by decide) (by decide),
      fun _ => List.not_mem_nil.elim⟩
  refine ⟨⟨rfl, fun meant scopes => ?_⟩, rfl, .unknown fun o stands => ?_⟩
  · cases scopes with
    | object stands fields =>
        cases standsKey.unique stands
        rw [List.map_singleton, (Document.owner_of_fieldScope fields).2]
        rfl
    | unknown none => cases none _ standsKey
  · cases standsComp.unique stands
    rfl

end Workspace

end JsonnetNav
