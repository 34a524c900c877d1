import JsonnetNav.Proofs.Occurrences
import Mathlib

/-! # Asking before renaming

An editor first asks what there is to rename at a target, and then for the ranges to change.
Both answers are about the same name. They fit together wherever there is a variable or a
reference that stands for one, in a document whose names were resolved once or several times.
At a reference that stands for no variable the first answer offers a name, and the second one
has nothing to change.
-/

namespace JsonnetNav

namespace Resolution

/-- The resolution with what an earlier one has listed in front. -/
def behind (r earlier : Resolution) : Resolution where
  scopes := r.scopes
  uses := earlier.uses ++ r.uses
  calls := earlier.calls ++ r.calls
  fieldRefs := earlier.fieldRefs ++ r.fieldRefs
  importees := earlier.importees ++ r.importees

namespace State

def behind (st : State) (earlier : Resolution) : State :=
  { st with resolution := st.resolution.behind earlier }

variable (st : State) (earlier : Resolution)

theorem bind_behind (s : Site) (id : Ident) (target : Site) :
    (st.behind earlier).bind s id target = (st.bind s id target).behind earlier :=
  rfl

theorem closeScope_behind : (st.behind earlier).closeScope = st.closeScope.behind earlier := by
  have scopes : (st.behind earlier).resolution.scopes = st.resolution.scopes := rfl
  have current : (st.behind earlier).current = st.current := rfl
  unfold closeScope
  rw [scopes, current]
  split <;> rfl

theorem lookUp_behind (ref : Site) (name : Text) :
    (st.behind earlier).lookUp ref name = (st.lookUp ref name).behind earlier := by
  have found : (st.behind earlier).resolution.scopes.get? (st.behind earlier).current name =
      st.resolution.scopes.get? st.current name := rfl
  unfold lookUp
  rw [found]
  split
  · simp [behind, Resolution.behind]
  · rfl

theorem enter_behind (s : Site) : (st.behind earlier).enter s = (st.enter s).behind earlier := by
  unfold enter
  split
  · exact bind_behind ..
  · exact lookUp_behind ..
  · simp [behind, Resolution.behind]
  · rfl

theorem leave_behind (s : Site) : (st.behind earlier).leave s = (st.leave s).behind earlier := by
  unfold leave
  split
  · simp [behind, Resolution.behind]
  · simp [behind, Resolution.behind]
  · rfl

theorem opened_behind (s : Site) : (st.behind earlier).opened s = (st.opened s).behind earlier := by
  have params (sites : List (Site × Param)) (st : State) :
      sites.foldl (fun st entry => st.bind entry.1 entry.2.id entry.1) (st.behind earlier) =
        (sites.foldl (fun st entry => st.bind entry.1 entry.2.id entry.1) st).behind earlier := by
    induction sites generalizing st with
    | nil => rfl
    | cons entry sites ih =>
        rw [List.foldl_cons, List.foldl_cons, bind_behind]
        exact ih _
  unfold opened
  split
  · rename_i range ps body node
    exact params (ps.mapIdx fun i p => (s.down ⟨.params, i⟩ (.param p), p)) (st.openScope s)
  · rfl
  · rfl

/-- What was listed before makes no difference to a step. -/
theorem step_behind (event : Event) :
    (st.behind earlier).step event = (st.step event).behind earlier := by
  cases event with
  | enter s => exact enter_behind st earlier s
  | leave s => exact leave_behind st earlier s
  | opened s => exact opened_behind st earlier s
  | closed s => exact closeScope_behind st earlier

theorem foldl_behind (events : List Event) :
    events.foldl step (st.behind earlier) = (events.foldl step st).behind earlier := by
  induction events generalizing st with
  | nil => rfl
  | cons event events ih =>
      rw [List.foldl_cons, List.foldl_cons, step_behind]
      exact ih _

end State

theorem run_again (root : Site) (earlier : Resolution) :
    run root (some earlier) = (run root none).behind earlier := by
  have start : ({ earlier with scopes := (ScopeTable.empty {} root).1 } : Resolution) =
      Resolution.behind { scopes := (ScopeTable.empty {} root).1 } earlier := by
    simp [behind]
  simp only [run, start]
  exact congrArg State.resolution (State.foldl_behind ⟨_, _⟩ earlier _)

theorem bindingOfRef_behind (r earlier : Resolution) (ref : Site) :
    (r.behind earlier).bindingOfRef? ref =
      (earlier.bindingOfRef? ref).or (r.bindingOfRef? ref) := by
  simp only [bindingOfRef?, behind, Array.find?_append, Option.map_or]

theorem references_behind (r earlier : Resolution) (var : Site) :
    (r.behind earlier).references var = earlier.references var ++ r.references var := by
  simp only [references, behind, Array.toList_append, List.filter_append, List.map_append]

end Resolution

/-- The site holds a variable, or a reference to one, with this name. -/
def Site.Named (s : Site) (name : Text) : Prop :=
  ∃ id, (s.node = .var id ∨ s.node = .expr (.ref id)) ∧ id.name = name

theorem Site.Named.eq {s : Site} {name name' : Text} (named : s.Named name)
    (named' : s.Named name') : name = name' := by
  obtain ⟨id, node, rfl⟩ := named
  obtain ⟨id', node', rfl⟩ := named'
  rcases node with node | node <;> rcases node' with node' | node' <;>
    cases node.symm.trans node' <;> rfl

namespace Document

/-- The names of the first document are resolved in the second one, once or several times. -/
inductive ResolvedTo (d₀ : Document) : Document → Prop where
  | once : ResolvedTo d₀ d₀.resolve
  | again {d : Document} (before : ResolvedTo d₀ d) : ResolvedTo d₀ d.resolve

variable {d₀ d : Document} {uri : Uri} {s var ref : Site} {target : Range}

theorem ResolvedTo.site (resolved : d₀.ResolvedTo d) : d.site = d₀.site := by
  induction resolved with
  | once => rfl
  | again _ ih => exact ih

theorem ResolvedTo.nodeAt_eq (resolved : d₀.ResolvedTo d) (target : Range) :
    d.nodeAt? target = d₀.nodeAt? target := by
  rw [nodeAt?, resolved.site]
  rfl

/-- Resolving again lists the uses that a first resolution finds behind the earlier ones. -/
theorem ResolvedTo.resolve_again (resolved : d₀.ResolvedTo d) :
    ∃ earlier, d.resolution = some earlier ∧
      d.resolve.resolution = some ((Resolution.run d₀.site none).behind earlier) := by
  have known : ∃ earlier, d.resolution = some earlier := by
    cases resolved with
    | once => exact ⟨_, rfl⟩
    | again _ => exact ⟨_, rfl⟩
  obtain ⟨earlier, same⟩ := known
  refine ⟨earlier, same, ?_⟩
  rw [resolve, same, resolved.site, Resolution.run_again]

theorem ResolvedTo.bindingOfRef_eq (resolved : d₀.ResolvedTo d) (unresolved : d₀.resolution = none)
    (ref : Site) : d.bindingOfRef? ref = d₀.resolve.bindingOfRef? ref := by
  induction resolved with
  | once => rfl
  | @again d before ih =>
      obtain ⟨earlier, was, now⟩ := before.resolve_again
      rw [bindingOfRef?, was, Option.bind_some] at ih
      rw [bindingOfRef?, now, Option.bind_some, Resolution.bindingOfRef_behind, ih, bindingOfRef?,
        resolve, unresolved, Option.bind_some, Option.or_self]

theorem ResolvedTo.mem_references (resolved : d₀.ResolvedTo d) (unresolved : d₀.resolution = none) :
    ref ∈ d.references var ↔ ref ∈ d₀.resolve.references var := by
  induction resolved with
  | once => exact Iff.rfl
  | @again d before ih =>
      obtain ⟨earlier, was, now⟩ := before.resolve_again
      have fresh : d₀.resolve.references var = (Resolution.run d₀.site none).references var := by
        simp only [references, resolve, unresolved]
      simp only [references, was] at ih
      simp only [references, now, Resolution.references_behind, List.mem_append]
      rw [ih, ← fresh]
      exact or_self_iff

/-- Where a variable is renamed, the site itself is changed, and everything that is changed has
    the name of the variable. -/
theorem Built.renamed_at (built : d₀.Built uri) (resolved : d₀.ResolvedTo d) (inside : s ∈ d₀.sites)
    (renames : Rename.variableAt? d s = some var) :
    s ∈ d.references var ++ [var] ∧
      ∃ name, ∀ t ∈ d.references var ++ [var], t ∈ d₀.sites ∧ t.Named name := by
  have listed {ref : Site} (member : var ∈ d₀.sites) :
      ref ∈ d.references var ↔ (ref, var) ∈ d₀.found :=
    (resolved.mem_references built.unresolved).trans (built.mem_references member)
  have named {id : Ident} (member : var ∈ d₀.sites) (isVar : var.node = .var id) :
      ∀ t ∈ d.references var ++ [var], t ∈ d₀.sites ∧ t.Named id.name := by
    intro t edited
    rcases List.mem_append.mp edited with isRef | itself
    · have found := (listed member).mp isRef
      obtain ⟨-, id', id'', node, isVar', same⟩ := built.names_of_found found
      cases isVar.symm.trans isVar'
      exact ⟨(built.mem_found.mp found).1, id', .inr node, same.symm⟩
    · cases List.mem_singleton.mp itself
      exact ⟨member, id, .inl isVar, rfl⟩
  unfold Rename.variableAt? at renames
  split at renames
  · rename_i id isVar
    cases renames
    exact ⟨by simp, id.name, named inside isVar⟩
  · rename_i id isRef
    rw [resolved.bindingOfRef_eq built.unresolved] at renames
    have found := (built.bindingOfRef_eq_some inside).mp renames
    obtain ⟨member, id', id'', -, isVar, -⟩ := built.names_of_found found
    exact ⟨List.mem_append_left _ ((listed member).mpr found), id''.name, named member isVar⟩
  · cases renames

theorem ResolvedTo.offers (resolved : d₀.ResolvedTo d) (target : Range) :
    ∃ offered, d.renameTarget target = .ok offered ∧ ∀ range name,
      offered = some (range, name) ↔
        ∃ s, d.nodeAt? target = some s ∧ s.Named name ∧ s.range = range := by
  have isResolved : d.isResolved := by cases resolved <;> rfl
  refine ⟨_, by rw [renameTarget, demandResolved, if_pos isResolved]; rfl, fun range name => ?_⟩
  rw [Option.bind_eq_some_iff]
  refine exists_congr fun s => and_congr_right fun _ => ?_
  obtain ⟨uri, node, above⟩ := s
  constructor
  · intro offer
    split at offer
    · rename_i id isVar
      cases offer
      exact ⟨⟨id, .inl isVar, rfl⟩, by rw [Site.range, isVar]; rfl⟩
    · rename_i id isRef
      cases offer
      exact ⟨⟨id, .inr isRef, rfl⟩, by rw [Site.range, isRef]; rfl⟩
    · cases offer
  · rintro ⟨⟨id, isVar | isRef, rfl⟩, rfl⟩
    · cases isVar
      rfl
    · cases isRef
      rfl

theorem renameRanges_ne_nil :
    d.renameRanges target ≠ [] ↔
      ∃ s var, d.nodeAt? target = some s ∧ Rename.variableAt? d s = some var := by
  rw [renameRanges]
  split
  · rename_i var found
    obtain ⟨s, here, renames⟩ := Option.bind_eq_some_iff.mp found
    exact iff_of_true (by simp) ⟨s, var, here, renames⟩
  · rename_i nothing
    refine iff_of_false (by simp) ?_
    rintro ⟨s, var, here, renames⟩
    rw [here, Option.bind_some, renames] at nothing
    cases nothing

/-- The name at a target is offered exactly where the node there is a variable or a reference to
    one. There are ranges to change exactly where in addition a reference stands for a variable.
    Then the range that was offered is one of them, and every node that is changed had the name
    that was offered. -/
theorem rename_answers {tree : ParseTree} (done : ofParseTree uri tree = .ok d₀)
    (resolved : d₀.ResolvedTo d) (target : Range) :
    ∃ offered, d.renameTarget target = .ok offered ∧
      (∀ range name, offered = some (range, name) ↔
        ∃ s, d.nodeAt? target = some s ∧ s.Named name ∧ s.range = range) ∧
      (d.renameRanges target ≠ [] ↔ offered.isSome ∧
        ∀ ref id, d.nodeAt? target = some ref → ref.node = .expr (.ref id) →
          (d.bindingOfRef? ref).isSome) ∧
      ∀ range name, offered = some (range, name) → d.renameRanges target ≠ [] →
        range ∈ d.renameRanges target ∧
        ∃ edited : List Site, d.renameRanges target = edited.map Site.range ∧
          ∀ s ∈ edited, s ∈ d.sites ∧ s.Named name := by
  have built := built done
  have sites : d.sites = d₀.sites := by rw [Document.sites, resolved.site, Document.sites]
  have inside {s : Site} (here : d.nodeAt? target = some s) : s ∈ d₀.sites := by
    rw [resolved.nodeAt_eq] at here
    exact Site.mem_preorder_of_nodeAt here
  obtain ⟨offered, answered, offers⟩ := resolved.offers target
  refine ⟨offered, answered, offers, ?_, ?_⟩
  · rw [renameRanges_ne_nil]
    constructor
    · rintro ⟨s, var, here, renames⟩
      obtain ⟨itself, name, named⟩ := built.renamed_at resolved (inside here) renames
      have offer := (offers s.range name).mpr ⟨s, here, (named s itself).2, rfl⟩
      refine ⟨Option.isSome_of_eq_some offer, fun ref id atRef node => ?_⟩
      cases here.symm.trans atRef
      rw [Rename.variableAt?, node] at renames
      exact Option.isSome_map.symm.trans (Option.isSome_of_eq_some renames)
    · rintro ⟨some, stands⟩
      obtain ⟨⟨range, name⟩, offer⟩ := Option.isSome_iff_exists.mp some
      obtain ⟨s, here, ⟨id, isVar | isRef, -⟩, -⟩ := (offers range name).mp offer
      · exact ⟨s, s, here, by rw [Rename.variableAt?, isVar]⟩
      · obtain ⟨b, found⟩ := Option.isSome_iff_exists.mp (stands s id here isRef)
        exact ⟨s, b.id, here, by rw [Rename.variableAt?, isRef]; simp [found]⟩
  · intro range name offer ranges
    obtain ⟨s, here, isNamed, rfl⟩ := (offers range name).mp offer
    obtain ⟨s', var, here', renames⟩ := renameRanges_ne_nil.mp ranges
    cases here.symm.trans here'
    obtain ⟨itself, name', named⟩ := built.renamed_at resolved (inside here) renames
    cases isNamed.eq (named s itself).2
    have edits : d.renameRanges target = (d.references var ++ [var]).map Site.range := by
      rw [renameRanges, here, Option.bind_some, renames]
    rw [edits, sites]
    exact ⟨List.mem_map_of_mem itself, _, rfl, named⟩

open Workspace in
/-- At the last reference of `local a = a; a.f` both answers fit together, also after the names
    were resolved a second time. -/
theorem loop_rename_answers :
    ofParseTree "file:///x" loopTree = .ok loopDocument ∧
    loopDocument.ResolvedTo loopDocument.resolve.resolve ∧
    loopDocument.resolve.resolve.renameTarget (Range.ofNats 0 13 0 13) =
      .ok (some (Range.ofNats 0 13 0 14, .ofString "a")) ∧
    Range.ofNats 0 13 0 14 ∈
      loopDocument.resolve.resolve.renameRanges (Range.ofNats 0 13 0 13) := by
  have done : ofParseTree "file:///x" loopTree = .ok loopDocument := by cbv
  have resolved : loopDocument.ResolvedTo loopDocument.resolve.resolve := .again .once
  have offer : loopDocument.resolve.resolve.renameTarget (Range.ofNats 0 13 0 13) =
      .ok (some (Range.ofNats 0 13 0 14, .ofString "a")) := by cbv
  have stands : ((loopDocument.resolve.resolve.nodeAt? (Range.ofNats 0 13 0 13)).bind
      loopDocument.resolve.resolve.bindingOfRef?).isSome := by cbv
  obtain ⟨offered, answered, -, ranges, edits⟩ :=
    rename_answers done resolved (Range.ofNats 0 13 0 13)
  cases offer.symm.trans answered
  refine ⟨done, resolved, offer, (edits _ _ rfl (ranges.mpr ⟨rfl, fun ref id here _ => ?_⟩)).1⟩
  rw [here] at stands
  exact stands

/-- A document that consists of a reference to no variable. -/
def freeTree : ParseTree :=
  { type := "document", range := Range.ofNats 0 0 0 1, children :=
    [{ type := "id", range := Range.ofNats 0 0 0 1, text := some "x" }] }

def freeDocument : Document :=
  { uri := "file:///x"
    root := .expr (.document (Range.ofNats 0 0 0 1) (.ref ⟨Range.ofNats 0 0 0 1, .ofString "x"⟩)) }

/-- The name of the reference is offered, but there is nothing to change. -/
theorem free_rename_answers :
    ofParseTree "file:///x" freeTree = .ok freeDocument ∧
    freeDocument.resolve.renameTarget (Range.ofNats 0 0 0 0) =
      .ok (some (Range.ofNats 0 0 0 1, .ofString "x")) ∧
    freeDocument.resolve.renameRanges (Range.ofNats 0 0 0 0) = [] := by
  have done : ofParseTree "file:///x" freeTree = .ok freeDocument := by cbv
  exact ⟨done, by cbv, by cbv⟩

end Document

end JsonnetNav
