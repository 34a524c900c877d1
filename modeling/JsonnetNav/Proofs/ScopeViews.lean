import JsonnetNav.Proofs.Visibility
import JsonnetNav.Scope.Resolution
import Mathlib.Data.List.Basic

/-! # What an open scope shows

A scope shows its own bindings and then those of the scopes around it. While a document is
resolved every scope has a frame of its own and is younger than its parent. So opening a
scope leaves what the older ones show as it is, and binding a name puts one binding in
front of what the scope shows.
-/

namespace JsonnetNav

namespace ScopeTable

/-- The bindings of a scope and of the scopes around it, innermost first. -/
def view (t : ScopeTable) (i : Nat) : List Binding :=
  (t.chain i).flatMap t.bindings

theorem get?_eq_find? (t : ScopeTable) (i : Nat) (name : Text) :
    t.get? i name = (t.view i).find? (·.name = name) := by
  rw [get?, view, List.find?_flatMap]

/-- Every scope has the frame of its own number, and parents are older than their
    children. -/
structure Stacked (t : ScopeTable) : Prop where
  frames : t.frames.size = t.scopes.size
  frame : ∀ {i : Nat} {s : Scope}, t.scopes[i]? = some s → s.frame = i
  parent : ∀ {i p : Nat} {s : Scope}, t.scopes[i]? = some s → s.parent = some p → p < i

section Stacked

variable {t t' : ScopeTable}

theorem Stacked.view_eq (stacked : t.Stacked) {i : Nat} {s : Scope}
    (found : t.scopes[i]? = some s) :
    t.view i = t.frames.getD i [] ++ s.parent.elim [] t.view := by
  rw [view, chain, found]
  simp only [List.flatMap_cons, bindings, stacked.frame found]
  cases outer : s.parent with
  | none => simp
  | some p => simp [stacked.parent found outer, view]

/-- What a scope shows depends on the scopes and frames up to its number. -/
theorem Stacked.view_congr (stacked : t.Stacked) (stacked' : t'.Stacked) {i : Nat}
    (scopes : ∀ j ≤ i, t'.scopes[j]? = t.scopes[j]?)
    (frames : ∀ j ≤ i, t'.frames[j]? = t.frames[j]?) : t'.view i = t.view i := by
  induction i using Nat.strongRecOn with
  | ind i ih =>
      cases found : t.scopes[i]? with
      | none =>
          have missing : t'.scopes[i]? = none := (scopes i (Nat.le_refl i)).trans found
          rw [view, chain, missing, view, chain, found]
          rfl
      | some s =>
          rw [stacked.view_eq found, stacked'.view_eq ((scopes i (Nat.le_refl i)).trans found)]
          have frame : t'.frames.getD i [] = t.frames.getD i [] := by
            simp [Array.getD_eq_getD_getElem?, frames i (Nat.le_refl i)]
          rw [frame]
          cases outer : s.parent with
          | none => rfl
          | some p =>
              have older := stacked.parent found outer
              have same := ih p older (fun j bound => scopes j (by omega))
                (fun j bound => frames j (by omega))
              simp [same]

/-- A new scope inside of a scope shows the same as the scope around it. -/
structure Nested (t : ScopeTable) (i : Nat) (t' : ScopeTable) : Prop where
  stacked : t'.Stacked
  size : t'.scopes.size = t.scopes.size + 1
  parent : ∃ s, t'.scopes[t.scopes.size]? = some s ∧ s.parent = some i
  kept : ∀ j < t.scopes.size, t'.scopes[j]? = t.scopes[j]?
  older : ∀ j < t.scopes.size, t'.view j = t.view j
  inside : t'.view t.scopes.size = t.view i

theorem scopes_nest (t : ScopeTable) (i : Nat) (owner : Site) :
    (t.nest i owner).1.scopes =
      t.scopes.push ⟨owner, t.frames.size, some i, t.rows.size⟩ := by
  simp only [nest, add]
  split <;> rfl

theorem frames_nest (t : ScopeTable) (i : Nat) (owner : Site) :
    (t.nest i owner).1.frames = t.frames.push [] := by
  simp only [nest, add]
  split <;> rfl

theorem snd_nest (t : ScopeTable) (i : Nat) (owner : Site) :
    (t.nest i owner).2 = t.scopes.size := by
  simp only [nest, add]
  split <;> rfl

theorem Stacked.nest (stacked : t.Stacked) {i : Nat} (inTable : i < t.scopes.size)
    (owner : Site) : t.Nested i (t.nest i owner).1 := by
  have frames := stacked.frames
  have kept : ∀ j < t.scopes.size, (t.nest i owner).1.scopes[j]? = t.scopes[j]? := by
    intro j bound
    rw [scopes_nest, Array.getElem?_push_lt bound, Array.getElem?_eq_getElem bound]
  have newest : (t.nest i owner).1.scopes[t.scopes.size]? =
      some ⟨owner, t.frames.size, some i, t.rows.size⟩ := by
    rw [scopes_nest, Array.getElem?_push_size]
  have stacked' : (t.nest i owner).1.Stacked := by
    refine ⟨by simp [scopes_nest, frames_nest, frames], ?_, ?_⟩
    · intro j s found
      rw [scopes_nest, Array.getElem?_push] at found
      split at found
      · cases found
        simp_all
      · exact stacked.frame found
    · intro j p s found outer
      rw [scopes_nest, Array.getElem?_push] at found
      split at found
      · cases found
        cases outer
        simp_all
      · exact stacked.parent found outer
  have older : ∀ j < t.scopes.size, (t.nest i owner).1.view j = t.view j := by
    intro j bound
    refine stacked.view_congr stacked' (fun k below => kept k (by omega)) (fun k below => ?_)
    rw [frames_nest, Array.getElem?_push_lt (by omega), Array.getElem?_eq_getElem (by omega)]
  refine ⟨stacked', by simp [scopes_nest], ⟨_, newest, rfl⟩, kept, older, ?_⟩
  rw [stacked'.view_eq newest]
  simp [frames_nest, ← frames, older i inTable]

/-- Binding a name in a scope puts it in front of what the scope shows. -/
structure Bound (t : ScopeTable) (i : Nat) (name : Text) (id : Site) (t' : ScopeTable) :
    Prop where
  stacked : t'.Stacked
  scopes : t'.scopes = t.scopes
  older : ∀ j < i, t'.view j = t.view j
  here : ∃ target, t'.view i = ⟨name, id, target, i⟩ :: t.view i

theorem Stacked.bind (stacked : t.Stacked) {i : Nat} (inTable : i < t.scopes.size)
    (name : Text) (id target : Site) : t.Bound i name id (t.bind i name id target) := by
  obtain ⟨s, found⟩ : ∃ s, t.scopes[i]? = some s := ⟨_, Array.getElem?_eq_getElem inTable⟩
  have bound : t.bind i name id target =
      { t with frames := t.frames.modify i (⟨name, id, target, i⟩ :: ·) } := by
    simp only [ScopeTable.bind, found, stacked.frame found]
  rw [bound]
  have stacked' : ScopeTable.Stacked
      { t with frames := t.frames.modify i (⟨name, id, target, i⟩ :: ·) } :=
    ⟨by simp [stacked.frames], stacked.frame, stacked.parent⟩
  have older : ∀ j < i, ScopeTable.view
      { t with frames := t.frames.modify i (⟨name, id, target, i⟩ :: ·) } j = t.view j := by
    intro j below
    refine stacked.view_congr stacked' (fun _ _ => rfl) (fun k upTo => ?_)
    have other : i ≠ k := by omega
    simp [Array.getElem?_modify, other]
  refine ⟨stacked', rfl, older, target, ?_⟩
  have inFrames : i < t.frames.size := by rw [stacked.frames]; exact inTable
  rw [stacked'.view_eq found, stacked.view_eq found]
  cases outer : s.parent with
  | none => simp [Array.getElem_modify, inFrames]
  | some p =>
      have below := stacked.parent found outer
      simp [Array.getElem_modify, inFrames, older p below]

end Stacked

end ScopeTable

namespace Resolution

namespace State

abbrev table (st : State) : ScopeTable :=
  st.resolution.scopes

/-- The references that were found, with their variables. -/
def found (st : State) : List (Site × Site) :=
  st.resolution.uses.toList.map fun use => (use.ref, use.binding.id)

/-- The open scope shows these variables. -/
structure Shows (st : State) (env : Env) : Prop where
  stacked : st.table.Stacked
  inTable : st.current < st.table.scopes.size
  view : (st.table.view st.current).map (fun b => (b.name, b.id)) = env

/-- From one state the other is reached with the same scope open. -/
structure Reaches (st : State) (found : List (Site × Site)) (env : Env) (st' : State) : Prop where
  shows : st'.Shows env
  current : st'.current = st.current
  kept : ∀ {i : Nat} {s : Scope}, st.table.scopes[i]? = some s → st'.table.scopes[i]? = some s
  older : ∀ {j : Nat}, j < st.current → st'.table.view j = st.table.view j
  found : st'.found = st.found ++ found

/-- From one state the other is reached with a scope open inside of the first. -/
structure Within (st : State) (found : List (Site × Site)) (env : Env) (st' : State) : Prop where
  shows : st'.Shows env
  inner : st.current < st'.current
  parent : ∃ s, st'.table.scopes[st'.current]? = some s ∧ s.parent = some st.current
  kept : ∀ {i : Nat} {s : Scope}, st.table.scopes[i]? = some s → st'.table.scopes[i]? = some s
  older : ∀ {j : Nat}, j ≤ st.current → st'.table.view j = st.table.view j
  found : st'.found = st.found ++ found

section Reaches

variable {st st' st'' : State} {env env' : Env} {first second : List (Site × Site)}

theorem Shows.reaches (shows : st.Shows env) : st.Reaches [] env st :=
  ⟨shows, rfl, id, fun _ => rfl, by simp⟩

/-- Other lists than that of the uses do not matter. -/
theorem Shows.same (shows : st.Shows env) (table : st'.table = st.table)
    (current : st'.current = st.current) (uses : st'.resolution.uses = st.resolution.uses) :
    st.Reaches [] env st' := by
  refine ⟨⟨?_, ?_, ?_⟩, current, ?_, ?_, ?_⟩
  · exact table ▸ shows.stacked
  · rw [table, current]
    exact shows.inTable
  · rw [table, current]
    exact shows.view
  · intro i s listed
    exact table ▸ listed
  · intro j below
    rw [table]
  · simp [State.found, uses]

theorem Reaches.trans (one : st.Reaches first env st') (two : st'.Reaches second env' st'') :
    st.Reaches (first ++ second) env' st'' := by
  refine ⟨two.shows, two.current.trans one.current, fun listed => two.kept (one.kept listed), ?_, ?_⟩
  · intro j below
    rw [two.older (one.current ▸ below), one.older below]
  · rw [two.found, one.found, List.append_assoc]

theorem Within.trans (one : st.Within first env st') (two : st'.Reaches second env' st'') :
    st.Within (first ++ second) env' st'' := by
  obtain ⟨s, listed, parent⟩ := one.parent
  refine ⟨two.shows, two.current ▸ one.inner, ⟨s, two.current ▸ two.kept listed, parent⟩,
    fun listed => two.kept (one.kept listed), ?_, ?_⟩
  · intro j below
    rw [two.older (Nat.lt_of_le_of_lt below one.inner), one.older below]
  · rw [two.found, one.found, List.append_assoc]

theorem Within.close (shows : st.Shows env) (inside : st.Within first env' st') :
    st.Reaches first env st'.closeScope := by
  obtain ⟨s, listed, parent⟩ := inside.parent
  have closed : st'.closeScope = { st' with current := st.current } := by
    obtain ⟨owner, frame, outer, children⟩ := s
    cases parent
    simp only [closeScope, listed]
  rw [closed]
  obtain ⟨s', here⟩ : ∃ s', st.table.scopes[st.current]? = some s' :=
    ⟨_, Array.getElem?_eq_getElem shows.inTable⟩
  refine ⟨⟨inside.shows.stacked, ?_, ?_⟩, rfl, inside.kept, ?_, inside.found⟩
  · exact (Array.getElem?_eq_some_iff.mp (inside.kept here)).1
  · rw [← shows.view, ← inside.older (Nat.le_refl _)]
  · intro j below
    exact inside.older (Nat.le_of_lt below)

theorem Shows.bind (shows : st.Shows env) (s : Site) (id : Ident) (target : Site) :
    st.Reaches [] ((id.name, s.part .id (.var id)) :: env) (st.bind s id target) := by
  have bound := shows.stacked.bind shows.inTable id.name (s.part .id (.var id)) target
  obtain ⟨target', here⟩ := bound.here
  refine ⟨⟨bound.stacked, ?_, ?_⟩, rfl, ?_, fun below => bound.older _ below, ?_⟩
  · exact bound.scopes ▸ shows.inTable
  · rw [← shows.view]
    exact congrArg (List.map fun b => (b.name, b.id)) here
  · intro i s listed
    exact bound.scopes ▸ listed
  · exact (List.append_nil _).symm

theorem Shows.openScope (shows : st.Shows env) (owner : Site) :
    st.Within [] env (st.openScope owner) := by
  have nested := shows.stacked.nest shows.inTable owner
  have opened : st.openScope owner =
      ⟨{ st.resolution with scopes := (st.table.nest st.current owner).1 },
        st.table.scopes.size⟩ := by
    simp only [State.openScope]
    rw [ScopeTable.snd_nest]
  rw [opened]
  refine ⟨⟨nested.stacked, ?_, ?_⟩, shows.inTable, nested.parent, ?_, ?_, ?_⟩
  · rw [nested.size]
    exact Nat.lt_succ_self _
  · rw [← shows.view, ← nested.inside]
  · intro i s listed
    have bound := (Array.getElem?_eq_some_iff.mp listed).1
    exact (nested.kept i bound).trans listed
  · intro j below
    exact nested.older j (Nat.lt_of_le_of_lt below shows.inTable)
  · exact (List.append_nil _).symm

theorem find?_name_eq_lookup (bindings : List Binding) (name : Text) :
    (bindings.find? (·.name = name)).map Binding.id =
      (bindings.map fun b => (b.name, b.id)).lookup name := by
  induction bindings with
  | nil => rfl
  | cons b bindings ih =>
      by_cases same : b.name = name
      · simp [same]
      · have other : (name == b.name) = false := by simpa using fun h => same h.symm
        simp [same, other, List.lookup_cons, ih]

theorem Shows.lookUp (shows : st.Shows env) (ref : Site) (name : Text) :
    st.Reaches (((env.lookup name).map fun var => (ref, var)).toList) env
      (st.lookUp ref name) := by
  have looked : (st.table.get? st.current name).map Binding.id = env.lookup name := by
    rw [ScopeTable.get?_eq_find?, find?_name_eq_lookup, shows.view]
  cases answer : st.table.get? st.current name with
  | none =>
      rw [answer] at looked
      simp only [State.lookUp, answer, ← looked]
      exact shows.reaches
  | some binding =>
      rw [answer] at looked
      simp only [State.lookUp, answer, ← looked]
      refine ⟨⟨shows.stacked, shows.inTable, shows.view⟩, rfl, id, fun _ => rfl, ?_⟩
      simp [State.found]

theorem Shows.bindRow (shows : st.Shows env) (rows : List (Site × Param)) :
    st.Reaches [] ((rows.map fun (site, p) => (p.id.name, site.part .id (.var p.id))).reverse ++ env)
      (rows.foldl (fun st (site, p) => st.bind site p.id site) st) := by
  induction rows generalizing st env with
  | nil => exact shows.reaches
  | cons row rows ih =>
      have first := shows.bind row.1 row.2.id row.1
      have rest := first.trans (ih first.shows)
      simpa using rest

end Reaches

end State

/-- The variables that a scope starts with. -/
def starting (s : Site) : Env :=
  match s.node with
  | .expr (.fn _ params _) => Site.introduced (s.paramRow params)
  | .forSpec _ => Site.introduced [s]
  | _ => []

/-- A function binds its parameters together with the sites they are found at. -/
theorem introduced_paramRow (s : Site) (params : List Param) :
    Site.introduced (s.paramRow params) =
      ((params.mapIdx fun i p => (s.down ⟨.params, i⟩ (.param p), p)).map
        fun (site, p) => (p.id.name, site.part .id (.var p.id))).reverse := by
  have row : s.paramRow params =
      (params.mapIdx fun i p => (s.down ⟨.params, i⟩ (.param p), p)).map Prod.fst := by
    apply List.ext_getElem <;> simp [Site.paramRow, Site.row]
  rw [Site.introduced, row, List.filterMap_map, List.reverse_inj, ← List.filterMap_eq_map]
  apply List.filterMap_congr
  intro x member
  obtain ⟨i, bound, rfl⟩ := List.mem_mapIdx.mp member
  rfl

theorem State.Shows.opened {st : State} {env : Env} (shows : st.Shows env) (s : Site) :
    st.Within [] (starting s ++ env) (st.opened s) := by
  have inside := shows.openScope s
  obtain ⟨uri, node, above⟩ := s
  cases node with
  | expr e =>
      cases e with
      | fn range params body =>
          simp only [starting, introduced_paramRow]
          exact inside.trans (inside.shows.bindRow _)
      | _ => exact inside
  | forSpec f => exact inside.trans (inside.shows.bind _ f.id _)
  | _ => exact inside

end Resolution

end JsonnetNav
