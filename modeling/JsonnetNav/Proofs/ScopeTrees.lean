import JsonnetNav.Proofs.DocumentIndex
import Mathlib

/-! # The tree of scopes

While a document is resolved, scopes are opened inside of the open one and closed again, and
variables are bound in the open one. So the scopes form a tree, with one scope for each node that
has one, and each variable is bound once, in the scope that is open when the walk comes to it.
-/

namespace JsonnetNav

namespace Site

/-- The variable that a bind, a parameter or a clause binds, and what it stands for. -/
def binds? (s : Site) : Option (Ident × Site) :=
  match s.node with
  | .bind b => some (b.id, s.part .value (.expr b.value))
  | .param p => some (p.id, s)
  | .forSpec f => some (f.id, s)
  | _ => none

end Site

namespace ScopeTable

/-- A variable that is bound: who owns the scope that holds it, and what it stands for. -/
structure Posting where
  holder : Option Site
  name : Text
  id : Site
  target : Site

/-- A binding, with the owner of its scope in place of its number. -/
def posting (t : ScopeTable) (b : Binding) : Posting :=
  ⟨t.ownerOf? b, b.name, b.id, b.target⟩

/-- Everything that is bound, the oldest scopes first. -/
def postings (t : ScopeTable) : List Posting :=
  t.frames.toList.flatten.map t.posting

/-- The scopes around a scope depend on the scopes up to its number. -/
theorem chain_congr {t t' : ScopeTable} {i : Nat}
    (scopes : ∀ j ≤ i, t'.scopes[j]? = t.scopes[j]?) : t'.chain i = t.chain i := by
  induction i using Nat.strongRecOn with
  | ind i ih =>
      rw [chain, chain, scopes i (Nat.le_refl i)]
      cases t.scopes[i]? with
      | none => rfl
      | some s =>
          cases outer : s.parent with
          | none => simp [outer]
          | some p =>
              simp only [outer]
              split
              · rename_i older
                rw [ih p older fun j upTo => scopes j (Nat.le_trans upTo (Nat.le_of_lt older))]
              · rfl

/-- The number of the scope around a scope. -/
def parentOf? (t : ScopeTable) (i : ScopeId) : Option ScopeId :=
  t.scopes[i]?.bind Scope.parent

/-- The children of a scope by what the scopes say about their parents. -/
def childIds (t : ScopeTable) (p : ScopeId) : List ScopeId :=
  (List.range t.scopes.size).filter fun i => t.parentOf? i = some p

/-- Everything that is bound in any scope. -/
def allBindings (t : ScopeTable) : List Binding :=
  t.scopes.toList.flatMap t.bindings

/-- A scope is reached from another one by going to children. -/
def Reaches (t : ScopeTable) : ScopeId → ScopeId → Prop :=
  Relation.ReflTransGen fun p i => ∃ s, t.scopes[p]? = some s ∧ i ∈ t.childrenOf s

/-- The scopes form a tree with the first one at its root. -/
structure Treelike (t : ScopeTable) : Prop extends t.Stacked where
  rows : t.rows.size = t.scopes.size
  row : ∀ {i : Nat} {s : Scope}, t.scopes[i]? = some s → s.children = i
  root : ∀ {i : Nat} {s : Scope}, t.scopes[i]? = some s → (s.parent = none ↔ i = 0)
  children : ∀ p < t.scopes.size, t.rows[p]? = some (t.childIds p)
  scope : ∀ {i : Nat} {frame : List Binding}, t.frames[i]? = some frame → ∀ b ∈ frame, b.scope = i

section Treelike

variable {t : ScopeTable}

theorem rows_nest {i : Nat} {s : Scope} (found : t.scopes[i]? = some s) (owner : Site) :
    (t.nest i owner).1.rows =
      (t.rows.push []).modify s.children (· ++ [t.scopes.size]) := by
  have kept : (t.scopes.push ⟨owner, t.frames.size, some i, t.rows.size⟩)[i]? = some s := by
    have inTable := (Array.getElem?_eq_some_iff.mp found).1
    rw [Array.getElem?_push_lt inTable, ← Array.getElem?_eq_getElem inTable, found]
  simp only [nest, add, kept]

theorem parentOf_nest {i : Nat} (owner : Site) (j : Nat) :
    (t.nest i owner).1.parentOf? j = if j = t.scopes.size then some i else t.parentOf? j := by
  rw [parentOf?, scopes_nest, Array.getElem?_push]
  split <;> rfl

theorem childIds_nest (i : Nat) (owner : Site) (p : Nat) :
    (t.nest i owner).1.childIds p = t.childIds p ++ if i = p then [t.scopes.size] else [] := by
  have older : (List.range t.scopes.size).filter
      (fun j => (t.nest i owner).1.parentOf? j = some p) = t.childIds p := by
    refine List.filter_congr fun j member => ?_
    rw [parentOf_nest, if_neg (Nat.ne_of_lt (List.mem_range.mp member))]
  rw [childIds, scopes_nest, Array.size_push, List.range_succ, List.filter_append, older]
  simp [parentOf_nest, List.filter_singleton]

theorem Treelike.nest (tree : t.Treelike) {i : Nat} (inTable : i < t.scopes.size) (owner : Site) :
    (t.nest i owner).1.Treelike := by
  obtain ⟨s, found⟩ : ∃ s, t.scopes[i]? = some s := ⟨_, Array.getElem?_eq_getElem inTable⟩
  have rows := rows_nest found owner
  rw [tree.row found] at rows
  refine ⟨(tree.toStacked.nest inTable owner).stacked, ?_, ?_, ?_, ?_, ?_⟩
  · simp [rows, scopes_nest, tree.rows]
  · intro j u found'
    rw [scopes_nest, Array.getElem?_push] at found'
    split at found'
    · cases found'
      simp_all [tree.rows]
    · exact tree.row found'
  · intro j u found'
    rw [scopes_nest, Array.getElem?_push] at found'
    split at found'
    · cases found'
      simp
      omega
    · exact tree.root found'
  · intro p bound
    rw [scopes_nest, Array.size_push] at bound
    rw [rows, childIds_nest, Array.getElem?_modify, Array.getElem?_push, tree.rows]
    by_cases newest : p = t.scopes.size
    · -- no scope is inside of one that is younger than all of them
      have noChild : t.childIds p = [] := by
        refine List.filter_eq_nil_iff.mpr fun j member => ?_
        rw [decide_eq_true_eq]
        intro parent
        obtain ⟨u, here, outer⟩ := Option.bind_eq_some_iff.mp parent
        have older := tree.parent here outer
        have younger := List.mem_range.mp member
        omega
      rw [if_pos newest, if_neg (by omega), if_neg (by omega), noChild, List.append_nil]
    · rw [if_neg newest, tree.children p (by omega)]
      split <;> simp
  · intro j frame found'
    rw [frames_nest, Array.getElem?_push] at found'
    split at found'
    · cases found'
      simp
    · exact tree.scope found'

theorem bind_eq {i : Nat} {s : Scope} (found : t.scopes[i]? = some s) (tree : t.Treelike)
    (name : Text) (id target : Site) : t.bind i name id target =
      { t with frames := t.frames.modify i (⟨name, id, target, i⟩ :: ·) } := by
  simp only [ScopeTable.bind, found, tree.frame found]

theorem Treelike.bind (tree : t.Treelike) {i : Nat} (inTable : i < t.scopes.size) (name : Text)
    (id target : Site) : (t.bind i name id target).Treelike := by
  have stacked := (tree.toStacked.bind inTable name id target).stacked
  obtain ⟨s, found⟩ : ∃ s, t.scopes[i]? = some s := ⟨_, Array.getElem?_eq_getElem inTable⟩
  rw [bind_eq found tree] at stacked ⊢
  refine ⟨stacked, tree.rows, tree.row, tree.root, tree.children, ?_⟩
  intro j frame found'
  rw [Array.getElem?_modify] at found'
  split at found'
  · rename_i here
    obtain ⟨older, listed, rfl⟩ := Option.map_eq_some_iff.mp found'
    rw [List.forall_mem_cons]
    exact ⟨here, tree.scope listed⟩
  · exact tree.scope found'

theorem scope_lt_of_mem (tree : t.Treelike) {b : Binding} (member : b ∈ t.frames.toList.flatten) :
    b.scope < t.scopes.size := by
  obtain ⟨frame, inFrames, inFrame⟩ := List.mem_flatten.mp member
  obtain ⟨i, bound, rfl⟩ := List.mem_iff_getElem.mp inFrames
  have same := tree.scope (Array.getElem?_eq_getElem (by simpa using bound)) b inFrame
  rw [same, ← tree.frames]
  simpa using bound

theorem postings_nest (tree : t.Treelike) (i : Nat) (owner : Site) :
    (t.nest i owner).1.postings = t.postings := by
  rw [postings, postings, frames_nest]
  simp only [Array.toList_push, List.flatten_append, List.flatten_singleton, List.append_nil]
  refine List.map_congr_left fun b member => ?_
  have bound := scope_lt_of_mem tree member
  rw [posting, posting, ownerOf?, ownerOf?, scopes_nest, Array.getElem?_push_lt bound,
    Array.getElem?_eq_getElem bound]

theorem perm_flatten_modify {α : Type} (xss : List (List α)) {i : Nat} (bound : i < xss.length)
    (x : α) : (xss.modify i (x :: ·)).flatten.Perm (x :: xss.flatten) := by
  induction xss generalizing i with
  | nil => cases bound
  | cons xs xss ih =>
      cases i with
      | zero => rfl
      | succ i =>
          have rest := ih (i := i) (by simpa using bound)
          simp only [List.modify_succ_cons, List.flatten_cons]
          exact (rest.append_left xs).trans List.perm_middle

theorem postings_bind (tree : t.Treelike) {i : Nat} {s : Scope} (found : t.scopes[i]? = some s)
    (name : Text) (id target : Site) :
    (t.bind i name id target).postings.Perm (⟨some s.owner, name, id, target⟩ :: t.postings) := by
  rw [bind_eq found tree, postings, postings]
  have inTable := (Array.getElem?_eq_some_iff.mp found).1
  have bound : i < t.frames.toList.length := by simpa [tree.frames] using inTable
  have flat := perm_flatten_modify t.frames.toList bound ⟨name, id, target, i⟩
  have newest : t.posting ⟨name, id, target, i⟩ = ⟨some s.owner, name, id, target⟩ := by
    simp [posting, ownerOf?, found]
  rw [← newest]
  simp only [Array.toList_modify]
  exact flat.map t.posting

theorem Treelike.childrenOf (tree : t.Treelike) {p : Nat} {s : Scope}
    (found : t.scopes[p]? = some s) : t.childrenOf s = t.childIds p := by
  have inTable := (Array.getElem?_eq_some_iff.mp found).1
  rw [ScopeTable.childrenOf, tree.row found, Array.getD_eq_getD_getElem?,
    tree.children p inTable, Option.getD_some]

/-- No scope is out of reach. -/
theorem Treelike.reaches_iff (tree : t.Treelike) (root : 0 < t.scopes.size) {i : Nat} :
    t.Reaches 0 i ↔ i < t.scopes.size := by
  constructor
  · intro reached
    induction reached with
    | refl => exact root
    | tail _ child _ =>
        obtain ⟨s, found, member⟩ := child
        rw [tree.childrenOf found] at member
        exact List.mem_range.mp (List.mem_filter.mp member).1
  · induction i using Nat.strongRecOn with
    | ind i ih =>
        intro inTable
        have found := Array.getElem?_eq_getElem inTable
        cases outer : t.scopes[i].parent with
        | none =>
            rw [(tree.root found).mp outer]
            exact .refl
        | some p =>
            have older := tree.parent found outer
            have inTable' := Nat.lt_trans older inTable
            have found' := Array.getElem?_eq_getElem inTable'
            refine (ih p older inTable').tail ⟨_, found', ?_⟩
            rw [tree.childrenOf found', childIds, List.mem_filter, List.mem_range]
            exact ⟨inTable, by simp [parentOf?, inTable, outer]⟩

theorem Treelike.count_children (tree : t.Treelike) {p : Nat} {s : Scope}
    (found : t.scopes[p]? = some s) {i : Nat} (inTable : i < t.scopes.size) :
    (t.childrenOf s).count i = if t.parentOf? i = some p then 1 else 0 := by
  have nodup : (t.childIds p).Nodup := List.nodup_range.filter _
  rw [tree.childrenOf found, nodup.count]
  simp [childIds, inTable]

theorem Treelike.bindings (tree : t.Treelike) {i : Nat} {s : Scope}
    (found : t.scopes[i]? = some s) : t.frames[i]? = some (t.bindings s) := by
  have inTable := (Array.getElem?_eq_some_iff.mp found).1
  rw [← tree.frames] at inTable
  rw [ScopeTable.bindings, tree.frame found, Array.getElem?_eq_getElem inTable]
  simp [inTable]

theorem Treelike.allBindings (tree : t.Treelike) : t.allBindings = t.frames.toList.flatten := by
  rw [ScopeTable.allBindings, List.flatMap_def]
  congr 1
  refine List.ext_getElem (by simp [tree.frames]) fun i _ bound => ?_
  have inTable : i < t.scopes.size := by simpa [tree.frames] using bound
  have frame := tree.bindings (Array.getElem?_eq_getElem inTable)
  simpa [Array.getElem?_eq_some_iff, tree.frames, inTable] using frame.symm

theorem Treelike.postings (tree : t.Treelike) : t.postings = t.allBindings.map t.posting := by
  rw [ScopeTable.postings, tree.allBindings]

theorem Treelike.mem_allBindings (tree : t.Treelike) {b : Binding} (member : b ∈ t.allBindings) :
    ∃ s, t.scopes[b.scope]? = some s ∧ b ∈ t.bindings s := by
  obtain ⟨s, listed, bound⟩ := List.mem_flatMap.mp member
  obtain ⟨i, found⟩ := Array.mem_iff_getElem?.mp (Array.mem_toList_iff.mp listed)
  have scope := tree.scope (tree.bindings found) b bound
  exact ⟨s, scope ▸ found, bound⟩

theorem Treelike.bindingOf_eq (tree : t.Treelike) (v : Site) :
    t.bindingOf? v = (t.allBindings.filter (·.id.isAt v)).head? := by
  rw [tree.allBindings, List.head?_filter, List.find?_flatten]
  rfl

end Treelike
end ScopeTable

namespace Event

/-- The binds, parameters and clauses whose variables are bound at an event. -/
def binders : Event → List Site
  | .enter s =>
    match s.node with
    | .bind _ => [s]
    | _ => []
  | .opened s =>
    match s.node with
    | .expr (.fn _ params _) => s.paramRow params
    | .forSpec _ => [s]
    | _ => []
  | _ => []

/-- The owners of the scopes that are open after an event, innermost first. The outermost
    one stays open. -/
def shift (stack : List Site) : Event → List Site
  | .opened s => s :: stack
  | .closed _ =>
    match stack with
    | _ :: outer :: rest => outer :: rest
    | stack => stack
  | _ => stack

def opened? : Event → Option Site
  | .opened s => some s
  | _ => none

end Event

/-- The variable of a binder as it is held by the scope of the given owner. -/
def Site.posting? (holder : Option Site) (s : Site) : Option ScopeTable.Posting :=
  s.binds?.map fun (id, target) => ⟨holder, id.name, s.part .id (.var id), target⟩

namespace Resolution.State

/-- The owners of the open scopes, innermost first. -/
def owners (st : State) : List Site :=
  (st.table.chain st.current).map Scope.owner

/-- What is known of a state on the way: who owns the open scopes and all the scopes, and which
    variables are bound. -/
structure Charted (st : State) (stack owned : List Site) (posted : List ScopeTable.Posting) :
    Prop where
  tree : st.table.Treelike
  inTable : st.current < st.table.scopes.size
  stack : st.owners = stack
  owned : st.table.scopes.toList.map Scope.owner = owned
  posted : st.table.postings.Perm posted

variable {stack owned : List Site} {posted : List ScopeTable.Posting} {st st' : State}

theorem Charted.same (charted : st.Charted stack owned posted) (table : st'.table = st.table)
    (current : st'.current = st.current) : st'.Charted stack owned posted := by
  obtain ⟨tree, inTable, opened, owns, holds⟩ := charted
  rw [owners, ← table, ← current] at opened
  rw [← table] at tree owns holds
  rw [← table, ← current] at inTable
  exact ⟨tree, inTable, opened, owns, holds⟩

theorem Charted.openScope (charted : st.Charted stack owned posted) (s : Site) :
    (st.openScope s).Charted (s :: stack) (owned ++ [s]) posted := by
  obtain ⟨tree, inTable, opened, owns, holds⟩ := charted
  have nested := tree.toStacked.nest inTable s
  have newState : st.openScope s =
      ⟨{ st.resolution with scopes := (st.table.nest st.current s).1 },
        st.table.scopes.size⟩ := by
    simp only [State.openScope]
    rw [ScopeTable.snd_nest]
  have newest : (st.table.nest st.current s).1.scopes[st.table.scopes.size]? =
      some ⟨s, st.table.frames.size, some st.current, st.table.rows.size⟩ := by
    rw [ScopeTable.scopes_nest, Array.getElem?_push_size]
  have around : (st.table.nest st.current s).1.chain st.current = st.table.chain st.current :=
    ScopeTable.chain_congr fun j upTo => nested.kept j (Nat.lt_of_le_of_lt upTo inTable)
  rw [newState]
  refine ⟨tree.nest inTable s, ?_, ?_, ?_, ?_⟩
  · rw [nested.size]
    exact Nat.lt_succ_self _
  · rw [owners, ScopeTable.chain, newest]
    simp only [inTable, if_true, around, List.map_cons]
    rw [← opened, owners]
  · change (st.table.nest st.current s).1.scopes.toList.map Scope.owner = owned ++ [s]
    rw [ScopeTable.scopes_nest, Array.toList_push, List.map_append, owns]
    rfl
  · rw [ScopeTable.postings_nest tree]
    exact holds

theorem Charted.closeScope (charted : st.Charted stack owned posted) (s : Site) :
    st.closeScope.Charted (Event.shift stack (.closed s)) owned posted := by
  obtain ⟨u, found⟩ : ∃ u, st.table.scopes[st.current]? = some u :=
    ⟨_, Array.getElem?_eq_getElem charted.inTable⟩
  have opened := charted.stack
  rw [owners, ScopeTable.chain, found] at opened
  cases outer : u.parent with
  | none =>
      -- the scope of the document is never closed
      have stays : st.closeScope = st := by
        obtain ⟨owner, frame, parent, children⟩ := u
        cases outer
        simp only [State.closeScope, found]
      have alone : Event.shift stack (.closed s) = stack := by
        simp only [outer, List.map_cons, List.map_nil] at opened
        rw [← opened]
        rfl
      rw [stays, alone]
      exact charted
  | some p =>
      have older := charted.tree.parent found outer
      have leaves : st.closeScope = { st with current := p } := by
        obtain ⟨owner, frame, parent, children⟩ := u
        cases outer
        simp only [State.closeScope, found]
      obtain ⟨v, around⟩ : ∃ v, st.table.scopes[p]? = some v :=
        ⟨_, Array.getElem?_eq_getElem (Nat.lt_trans older charted.inTable)⟩
      have shifted : Event.shift stack (.closed s) = (st.table.chain p).map Scope.owner := by
        simp only [outer, older, if_true, List.map_cons] at opened
        rw [← opened, ScopeTable.chain, around]
        rfl
      rw [leaves, shifted]
      exact ⟨charted.tree, Nat.lt_trans older charted.inTable, rfl, charted.owned, charted.posted⟩

theorem Charted.bind (charted : st.Charted stack owned posted) {s : Site} {id : Ident}
    {target : Site} (binds : s.binds? = some (id, target)) :
    (st.bind s id target).Charted stack owned (posted ++ (s.posting? stack.head?).toList) := by
  obtain ⟨tree, inTable, opened, owns, holds⟩ := charted
  obtain ⟨u, found⟩ : ∃ u, st.table.scopes[st.current]? = some u :=
    ⟨_, Array.getElem?_eq_getElem inTable⟩
  have innermost : stack.head? = some u.owner := by
    rw [← opened, owners, ScopeTable.chain, found]
    rfl
  have scopes : (st.bind s id target).table.scopes = st.table.scopes :=
    (tree.toStacked.bind inTable _ _ _).scopes
  refine ⟨tree.bind inTable _ _ _, ?_, ?_, ?_, ?_⟩
  · rw [scopes]
    exact inTable
  · rw [← opened, owners, owners]
    exact congrArg _ (ScopeTable.chain_congr fun j _ => by rw [scopes])
  · rw [scopes, owns]
  · have added := ScopeTable.postings_bind tree found id.name (s.part .id (.var id)) target
    refine added.trans ?_
    rw [Site.posting?, binds, innermost]
    exact (holds.cons _).trans (List.perm_append_singleton _ _).symm

theorem Charted.bindRow {rows : List (Site × Param)}
    (params : ∀ row ∈ rows, row.1.node = .param row.2)
    (charted : st.Charted stack owned posted) :
    (rows.foldl (fun st row => st.bind row.1 row.2.id row.1) st).Charted stack owned
      (posted ++ (rows.map Prod.fst).filterMap (Site.posting? stack.head?)) := by
  induction rows generalizing st posted with
  | nil => simpa using charted
  | cons row rows ih =>
      have binds : row.1.binds? = some (row.2.id, row.1) := by
        simp [Site.binds?, params row (.head _)]
      have rest := ih (fun r later => params r (.tail _ later)) (charted.bind binds)
      have first : row.1.posting? stack.head? =
          some ⟨stack.head?, row.2.id.name, row.1.part .id (.var row.2.id), row.1⟩ := by
        simp [Site.posting?, binds]
      simpa [first] using rest

theorem Charted.opened (charted : st.Charted stack owned posted) (s : Site) :
    (st.opened s).Charted (s :: stack) (owned ++ [s])
      (posted ++ (Event.opened s).binders.filterMap (Site.posting? (some s))) := by
  have inside := charted.openScope s
  have unbound : (st.openScope s).Charted (s :: stack) (owned ++ [s]) (posted ++ []) := by
    simpa using inside
  obtain ⟨uri, node, above⟩ := s
  cases node with
  | expr e =>
      cases e with
      | fn range params body =>
          let s : Site := ⟨uri, .expr (.fn range params body), above⟩
          let rows := params.mapIdx fun i p => (s.down ⟨.params, i⟩ (.param p), p)
          have isParam : ∀ row ∈ rows, row.1.node = .param row.2 := by
            intro row member
            obtain ⟨i, bound, rfl⟩ := List.mem_mapIdx.mp member
            rfl
          have row : s.paramRow params = rows.map Prod.fst := by
            apply List.ext_getElem <;> simp [rows, Site.paramRow, Site.row]
          have bound := inside.bindRow isParam
          rw [← row] at bound
          exact bound
      | _ => exact unbound
  | forSpec f =>
      let s : Site := ⟨uri, .forSpec f, above⟩
      have binds : s.binds? = some (f.id, s) := rfl
      exact inside.bind binds
  | _ => exact unbound

theorem Charted.enter (charted : st.Charted stack owned posted) (s : Site) :
    (st.enter s).Charted stack owned
      (posted ++ (Event.enter s).binders.filterMap (Site.posting? stack.head?)) := by
  have plain {st' : State} (table : st'.table = st.table) (current : st'.current = st.current) :
      st'.Charted stack owned (posted ++ []) := by
    simpa using charted.same table current
  obtain ⟨uri, node, above⟩ := s
  cases node with
  | bind b =>
      let s : Site := ⟨uri, .bind b, above⟩
      have binds : s.binds? = some (b.id, s.part .value (.expr b.value)) := rfl
      exact charted.bind binds
  | expr e =>
      cases e with
      | ref id =>
          simp only [State.enter, lookUp]
          split
          · exact plain rfl rfl
          · exact plain rfl rfl
      | _ => exact plain rfl rfl
  | _ => exact plain rfl rfl

theorem Charted.leave (charted : st.Charted stack owned posted) (s : Site) :
    (st.leave s).Charted stack owned posted := by
  unfold State.leave
  split
  · exact charted.same rfl rfl
  · exact charted.same rfl rfl
  · exact charted

/-- What one step of the walk does to the scopes. -/
theorem Charted.step (charted : st.Charted stack owned posted) (event : Event) :
    (st.step event).Charted (event.shift stack) (owned ++ event.opened?.toList)
      (posted ++ event.binders.filterMap (Site.posting? (event.shift stack).head?)) := by
  cases event with
  | enter s => simpa [Event.opened?, Event.shift, State.step] using charted.enter s
  | leave s => simpa [Event.opened?, Event.shift, Event.binders, State.step] using charted.leave s
  | opened s => exact charted.opened s
  | closed s => simpa [Event.opened?, Event.binders, State.step] using charted.closeScope s

end Resolution.State

/-- The variables that are bound on a walk that starts with these scopes open. -/
def Walk.posted (stack : List Site) : List Event → List ScopeTable.Posting
  | [] => []
  | event :: events =>
    event.binders.filterMap (Site.posting? (event.shift stack).head?) ++
      posted (event.shift stack) events

theorem Resolution.State.Charted.foldl {stack owned : List Site}
    {posted : List ScopeTable.Posting} {st : State} (charted : st.Charted stack owned posted)
    (events : List Event) :
    (events.foldl State.step st).Charted (events.foldl Event.shift stack)
      (owned ++ events.filterMap Event.opened?) (posted ++ Walk.posted stack events) := by
  induction events generalizing stack owned posted st with
  | nil => simpa [Walk.posted] using charted
  | cons event events ih =>
      have rest := ih (charted.step event)
      rw [List.append_assoc, List.append_assoc] at rest
      rw [List.filterMap_cons]
      cases opens : event.opened? with
      | none => simpa [opens, Walk.posted] using rest
      | some s => simpa [opens, Walk.posted] using rest

theorem ScopeTable.treelike_empty (root : Site) : (ScopeTable.empty {} root).1.Treelike := by
  have only {i : Nat} {s : Scope} (found : (ScopeTable.empty {} root).1.scopes[i]? = some s) :
      i = 0 ∧ s = ⟨root, 0, none, 0⟩ := by
    cases i with
    | zero => exact ⟨rfl, (Option.some.inj found).symm⟩
    | succ i => cases found
  refine ⟨(Resolution.shows_start root).stacked, rfl, ?_, ?_, ?_, ?_⟩
  · intro i s found
    obtain ⟨rfl, rfl⟩ := only found
    rfl
  · intro i s found
    obtain ⟨rfl, rfl⟩ := only found
    simp
  · intro p bound
    cases Nat.lt_one_iff.mp bound
    rfl
  · intro i frame found b member
    cases i with
    | zero =>
        cases found
        cases member
    | succ i => cases found

theorem Resolution.charted_run (root : Site) : ∃ st : State, st.resolution = run root none ∧
    st.Charted ((Walk.events .keysFirst root).foldl Event.shift [root])
      (root :: (Walk.events .keysFirst root).filterMap Event.opened?)
      (Walk.posted [root] (Walk.events .keysFirst root)) := by
  let start : State := ⟨{ scopes := (ScopeTable.empty {} root).1 }, 0⟩
  have owners : start.owners = [root] := by
    rw [State.owners, ScopeTable.chain]
    rfl
  have charted : start.Charted [root] [root] [] :=
    ⟨ScopeTable.treelike_empty root, Nat.one_pos, owners, rfl, .nil⟩
  exact ⟨_, rfl, charted.foldl (Walk.events .keysFirst root)⟩

end JsonnetNav
