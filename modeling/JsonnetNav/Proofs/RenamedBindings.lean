import JsonnetNav.Proofs.FoundInside
import JsonnetNav.Proofs.RenamedSites
import JsonnetNav.Proofs.Renaming
import JsonnetNav.Proofs.WellFormedScopes
import Mathlib

/-! # Bindings under other names

Let the variables of a document get other names such that every reference still stands for the
variable it stood for, and every name of an argument is still the name of the same parameters.
Then references lead to the same places as before, the same calls are listed, and a call gives
its arguments to the same parameters.
-/

namespace JsonnetNav

/-! ## What variables stand for -/

theorem Site.binds_rename (f : Renaming) (s : Site) : (s.rename f).binds? =
    s.binds?.map fun entry => (entry.1.rename f (⟨.id, 0⟩ :: s.path), entry.2.rename f) := by
  obtain ⟨uri, node, above⟩ := s
  cases node with
  | bind x | param x | forSpec x =>
      cases x
      rfl
  | _ => rfl

/-- The variable is bound to what its binder says. -/
def Binding.Stands (b : Binding) : Prop :=
  ∃ (s : Site) (id : Ident), b.id = s.part .id (.var id) ∧ s.binds? = some (id, b.target)

/-- What a variable stands for depends on its place only. -/
theorem Binding.Stands.target_rename {f : Renaming} {b b' : Binding} (stands : b.Stands)
    (stands' : b'.Stands) (same : b'.id = b.id.rename f) : b'.target = b.target.rename f := by
  obtain ⟨s, id, place, binds⟩ := stands
  obtain ⟨s', id', place', binds'⟩ := stands'
  have parents : (s'.part .id (.var id')).parent? = ((s.part .id (.var id)).rename f).parent? := by
    rw [← place', same, place]
  have binder : s' = s.rename f := Option.some.inj parents
  rw [binder, Site.binds_rename, binds] at binds'
  exact (Prod.mk.inj (Option.some.inj binds')).2.symm

namespace Resolution.State

/-- All variables that are bound or referred to so far are bound to what their binders say. -/
structure Standing (st : State) : Prop where
  frames : ∀ frame ∈ st.resolution.scopes.frames, ∀ b ∈ frame, b.Stands
  uses : ∀ use ∈ st.resolution.uses, use.binding.Stands

namespace Standing

variable {st : State}

theorem bind (standing : st.Standing) {s : Site} {id : Ident} {target : Site}
    (binds : s.binds? = some (id, target)) : (st.bind s id target).Standing := by
  refine ⟨?_, standing.uses⟩
  intro frame inTable b member
  rcases ScopeTable.mem_frames_bind inTable member with ⟨place, stands⟩ | ⟨older, was, before⟩
  · exact ⟨s, id, place, by rw [binds, stands]⟩
  · exact standing.frames older was b before

theorem openScope (standing : st.Standing) (owner : Site) : (st.openScope owner).Standing := by
  refine ⟨?_, standing.uses⟩
  intro frame inTable b member
  obtain ⟨older, was, before⟩ := ScopeTable.mem_frames_nest inTable member
  exact standing.frames older was b before

theorem lookUp (standing : st.Standing) (ref : Site) (name : Text) :
    (st.lookUp ref name).Standing := by
  unfold State.lookUp
  split
  · rename_i binding found
    obtain ⟨frame, inTable, member⟩ := ScopeTable.mem_frames_of_get found
    refine ⟨standing.frames, fun use listed => ?_⟩
    rcases Array.mem_push.mp listed with older | rfl
    · exact standing.uses use older
    · exact standing.frames frame inTable binding member
  · exact standing

theorem params (standing : st.Standing) (rows : List (Site × Param))
    (each : ∀ entry ∈ rows, entry.1.node = .param entry.2) :
    (rows.foldl (fun st entry => st.bind entry.1 entry.2.id entry.1) st).Standing := by
  induction rows generalizing st with
  | nil => exact standing
  | cons entry rows ih =>
      have binds : entry.1.binds? = some (entry.2.id, entry.1) := by
        rw [Site.binds?, each entry (.head _)]
      exact ih (standing.bind binds) fun later member => each later (.tail _ member)

theorem step (standing : st.Standing) (event : Event) : (st.step event).Standing := by
  cases event with
  | enter s =>
      simp only [State.step, State.enter]
      cases node : s.node with
      | bind b => exact standing.bind (by rw [Site.binds?, node])
      | expr e =>
          cases e with
          | ref id => exact standing.lookUp s id.name
          | importFile range kind importee => exact ⟨standing.frames, standing.uses⟩
          | _ => exact standing
      | _ => exact standing
  | leave s =>
      simp only [State.step, State.leave]
      split
      · exact ⟨standing.frames, standing.uses⟩
      · exact ⟨standing.frames, standing.uses⟩
      · exact standing
  | opened s =>
      have inner := standing.openScope s
      simp only [State.step, State.opened]
      cases node : s.node with
      | expr e =>
          cases e with
          | fn range params body =>
              refine inner.params _ fun entry member => ?_
              obtain ⟨i, bound, rfl⟩ := List.mem_mapIdx.mp member
              rfl
          | _ => exact inner
      | forSpec clause => exact inner.bind (by rw [Site.binds?, node])
      | _ => exact inner
  | closed s =>
      simp only [State.step, State.closeScope]
      split
      · exact ⟨standing.frames, standing.uses⟩
      · exact standing

theorem foldl (standing : st.Standing) (events : List Event) :
    (events.foldl State.step st).Standing := by
  induction events generalizing st with
  | nil => exact standing
  | cons event events ih => exact ih (standing.step event)

end Standing

end Resolution.State

namespace Document

variable {d : Document} {uri : Uri}

theorem Built.stands (built : d.Built uri) {ref : Site} {b : Binding}
    (found : d.resolve.bindingOfRef? ref = some b) : b.Stands := by
  let start : Resolution.State :=
    ⟨{ scopes := (ScopeTable.empty {} d.site).1 }, (ScopeTable.empty {} d.site).2⟩
  have empty : start.Standing := by
    refine ⟨?_, fun use member => by simp [start] at member⟩
    intro frame inTable b member
    have only : frame = [] := by simpa [start, ScopeTable.empty, ScopeTable.add] using inTable
    simp [only] at member
  have standing := empty.foldl (Walk.events .keysFirst d.site)
  obtain ⟨r, resolved, inUses⟩ := Option.bind_eq_some_iff.mp found
  simp only [resolve, built.unresolved] at resolved
  cases resolved
  obtain ⟨use, first, rfl⟩ := Option.map_eq_some_iff.mp inUses
  exact standing.uses use (Array.mem_of_find?_eq_some first)

/-- The variable of a parameter is bound, and its binding is found at the variable. -/
theorem Built.bindingOf_param (built : d.Built uri) {param : Site} (member : param ∈ d.sites)
    {p : Param} (node : param.node = .param p) :
    ∃ b, d.resolve.bindingOf? (param.part .id (.var p.id)) = some b ∧
      b.id = param.part .id (.var p.id) := by
  have binds : param.binds? = some (p.id, param) := by rw [Site.binds?, node]
  have fits := built.scopedBy
  obtain ⟨i, -, -, -, -, -, only⟩ := fits.bound_once member binds
  refine ⟨⟨p.id.name, param.part .id (.var p.id), param, i⟩, ?_, rfl⟩
  have resolved : d.resolve.resolution = some (Resolution.run d.site none) := by
    rw [resolve, built.unresolved]
  rw [bindingOf?, resolved, Option.bind_some, fits.tree.bindingOf_eq, only]
  rfl

/-! ## Faithful names -/

/-- No two functions, no two parameters and no two variables of the document have the same
    range. -/
def ToldApart (d : Document) : Prop :=
  ∀ s ∈ d.sites, ∀ t ∈ d.sites, s.kind = t.kind →
    s.kind = .fn ∨ s.kind = .param ∨ s.kind = .var → s.range = t.range → s = t

theorem toldApart_of_nodup
    (nodup : ((d.sites.filter fun s => s.kind = .fn ∨ s.kind = .param ∨ s.kind = .var).map
      fun s => (s.kind, s.range)).Nodup) : d.ToldApart := by
  intro s inside t inside' sameKind which sameRange
  refine List.inj_on_of_nodup_map nodup ?_ ?_ (Prod.ext sameKind sameRange)
  · exact List.mem_filter.mpr ⟨inside, decide_eq_true which⟩
  · exact List.mem_filter.mpr ⟨inside', decide_eq_true (sameKind ▸ which)⟩

/-- Under their new names, references stand for the same variables as before. -/
def Faithful (d : Document) (f : Renaming) : Prop :=
  ∀ ref ∈ d.sites, ∀ id, ref.node = .expr (.ref id) →
    (ref.rename f).visible.lookup (f ref.path id.name) =
      (ref.visible.lookup id.name).map (Site.rename f)

variable {f : Renaming}

theorem mem_sites_renamed {s : Site} (member : s ∈ d.sites) : s.rename f ∈ (d.renamed f).sites := by
  rw [sites_renamed]
  exact List.mem_map_of_mem member

theorem ToldApart.renamed (apart : d.ToldApart) : (d.renamed f).ToldApart := by
  intro s member t member' kinds which ranges
  rw [sites_renamed] at member member'
  obtain ⟨s, inside, rfl⟩ := List.mem_map.mp member
  obtain ⟨t, inside', rfl⟩ := List.mem_map.mp member'
  rw [Site.kind_rename, Site.kind_rename] at kinds
  rw [Site.kind_rename] at which
  rw [Site.range_rename, Site.range_rename] at ranges
  rw [apart s inside t inside' kinds which ranges]

theorem ToldApart.same_iff (apart : d.ToldApart) {s t : Site} (member : s ∈ d.sites)
    (member' : t ∈ d.sites) (which : t.kind = .fn ∨ t.kind = .param ∨ t.kind = .var) :
    s.same t = true ↔ s = t := by
  constructor
  · intro same
    simp only [Site.same, Bool.and_eq_true, Bool.or_eq_true, decide_eq_true_eq] at same
    rcases same.2 with path | alike
    · exact Site.eq_of_path_eq member member' path
    · rw [Node.same] at alike
      simp only [Bool.and_eq_true, decide_eq_true_eq] at alike
      obtain ⟨⟨⟨kinds, ranges⟩, -⟩, -⟩ := alike
      change s.kind = t.kind at kinds
      rw [← kinds] at which
      exact apart s member t member' kinds which ranges
  · rintro rfl
    simp [Site.same]

/-- Functions and parameters look the same under other names only if they did before. -/
theorem ToldApart.same_rename (apart : d.ToldApart) {s t : Site} (member : s ∈ d.sites)
    (member' : t ∈ d.sites) (which : t.kind = .fn ∨ t.kind = .param ∨ t.kind = .var) :
    (s.rename f).same (t.rename f) = s.same t := by
  rw [Bool.eq_iff_iff, apart.same_iff member member' which,
    (apart.renamed (f := f)).same_iff (mem_sites_renamed member) (mem_sites_renamed member')
      (by rwa [Site.kind_rename])]
  constructor
  · intro same
    have paths := congrArg Site.path same
    rw [Site.path_rename, Site.path_rename] at paths
    exact Site.eq_of_path_eq member member' paths
  · intro same
    rw [same]

theorem Built.binding_rename (built : d.Built uri) (faithful : d.Faithful f) {ref : Site}
    (member : ref ∈ d.sites) {id : Ident} (node : ref.node = .expr (.ref id)) :
    ((d.renamed f).resolve.bindingOfRef? (ref.rename f)).map (fun b => (b.id, b.target)) =
      (d.resolve.bindingOfRef? ref).map fun b => (b.id.rename f, b.target.rename f) := by
  have nodeNew : (ref.rename f).node = .expr (.ref (id.rename f ref.path)) := by
    rw [Site.rename, node]
    rfl
  have ids : ((d.renamed f).resolve.bindingOfRef? (ref.rename f)).map Binding.id =
      ((d.resolve.bindingOfRef? ref).map Binding.id).map (Site.rename f) := by
    rw [(built.renamed f).bindingOfRef_lookup (mem_sites_renamed member) nodeNew,
      built.bindingOfRef_lookup member node]
    exact faithful ref member id node
  cases before : d.resolve.bindingOfRef? ref with
  | none =>
      rw [before] at ids
      rw [Option.map_eq_none_iff.mp ids]
      rfl
  | some b =>
      rw [before] at ids
      obtain ⟨b', after, same⟩ := Option.map_eq_some_iff.mp ids
      rw [after]
      have targets := (built.stands before).target_rename ((built.renamed f).stands after) same
      simp [same, targets]

theorem Built.calls_rename (built : d.Built uri) :
    (d.renamed f).resolve.calls = d.resolve.calls.map (Site.rename f) := by
  have call (event : Event) : (event.rename f).call? = event.call?.map (Site.rename f) := by
    cases event with
    | leave s =>
        obtain ⟨uri, node, above⟩ := s
        cases node with
        | expr e => cases e <;> rfl
        | _ => rfl
    | _ => rfl
  rw [(Prod.mk.inj (built.renamed f).listed).1, (Prod.mk.inj built.listed).1, List.map_filterMap]
  have events : Walk.events .keysFirst (d.renamed f).site =
      (Walk.events .keysFirst d.site).map (Event.rename f) := Walk.events_rename f d.site
  rw [events, List.filterMap_map]
  exact List.filterMap_congr fun event _ => call event

theorem param_of_mem {fn : Site} (inside : fn ∈ d.sites) {entry : Site × Param}
    (member : entry ∈ fn.parameters) : entry.1 ∈ d.sites ∧ entry.1.node = .param entry.2 := by
  unfold Site.parameters at member
  split at member
  · rename_i range params body node
    obtain ⟨i, bound, rfl⟩ := List.mem_mapIdx.mp member
    refine ⟨child_mem_sites inside ?_, rfl⟩
    exact Site.mem_children_of_row (by simp [node, Node.parts, Expr.parts]) bound
  · cases member

theorem ToldApart.findIdx_rename (apart : d.ToldApart) {fn param : Site} (isFn : fn ∈ d.sites)
    (isParam : param ∈ d.sites) {p : Param} (node : param.node = .param p) :
    ((fn.rename f).parameters.findIdx? fun entry => entry.1.same (param.rename f)) =
      fn.parameters.findIdx? fun entry => entry.1.same param := by
  rw [Site.parameters_rename, List.findIdx?_map, List.findIdx?_eq_fst_find?_zipIdx,
    List.findIdx?_eq_fst_find?_zipIdx]
  refine congrArg _ (List.find?_congr fun entry member => ?_)
  obtain ⟨inside, -⟩ := param_of_mem isFn (List.fst_mem_of_mem_zipIdx member)
  exact apart.same_rename inside isParam (.inr (.inl (by rw [Site.kind, node]; rfl)))

theorem ref_of_argument {call : Site} (inside : call ∈ d.sites) {entry : Site × Arg}
    (member : entry ∈ call.arguments) {id : Ident} (named : entry.2.name = some id) :
    ∃ ref ∈ d.sites, ref.node = .paramRef id ∧
      ref.enclosing? (.only .call) (some 2) = some call := by
  unfold Site.arguments at member
  split at member
  · rename_i range callee args node
    obtain ⟨i, bound, rfl⟩ := List.mem_mapIdx.mp member
    let arg := call.down ⟨.args, i⟩ (.arg args[i])
    have child : arg ∈ call.children :=
      Site.mem_children_of_row (by simp [node, Node.parts, Expr.parts]) bound
    have name : arg.part .id (.paramRef id) ∈ arg.children := by
      refine Site.mem_children_of_part (p := .child .id (.paramRef id)) ?_ (.head _)
      simp_all [arg, Site.down, Node.parts, Part.ofOption]
    refine ⟨_, child_mem_sites (child_mem_sites inside child) name, rfl, ?_⟩
    have isCall : call.node.isA (.only .call) = true := by
      rw [node]
      rfl
    have noName : (Node.paramRef id).isA (.only .call) = false := rfl
    have noArg : (Node.arg args[i]).isA (.only .call) = false := rfl
    simp [arg, Site.enclosing?, Site.outward, Site.around, Site.part, Site.down, Site.enclosingIn,
      isCall, noName, noArg]
  · cases member

end Document

namespace Site

variable {f : Renaming} {call param : Site} {p : Param}

/-- An argument is given to a parameter by its name as before, if that was the name of the
    parameter before. -/
theorem argByName_rename
    (named : ∀ entry ∈ call.arguments, ∀ id, entry.2.name = some id →
      (f (⟨.id, 0⟩ :: param.path) p.id.name = id.name ↔ p.id.name = id.name)) :
    (call.rename f).argByName? (f (⟨.id, 0⟩ :: param.path) p.id.name) =
      (call.argByName? p.id.name).map (rename f) := by
  have found : (call.rename f).arguments.find?
      (·.2.name.any (·.name = f (⟨.id, 0⟩ :: param.path) p.id.name)) =
        (call.arguments.find? (·.2.name.any (·.name = p.id.name))).map
          fun entry => (entry.1.rename f, entry.2.rename f entry.1.path.tail) := by
    rw [arguments_rename, List.find?_map]
    refine congrArg _ (List.find?_congr fun entry member => ?_)
    rw [Function.comp_apply, Arg.name_rename]
    cases given : entry.2.name with
    | none => rfl
    | some id =>
        rw [Option.any_some, Option.any_some, decide_eq_decide, eq_comm,
          named entry member id given, eq_comm]
  rw [argByName?, found, Option.map_map, argByName?, Option.map_map]
  rfl

end Site

/-- A call gives the same argument to a parameter. -/
theorem Document.ToldApart.argOfParam_rename {d : Document} {f : Renaming} (apart : d.ToldApart)
    {call param : Site} (isParam : param ∈ d.sites) {p : Param} (node : param.node = .param p)
    (named : ∀ entry ∈ call.arguments, ∀ id, entry.2.name = some id →
      (f (⟨.id, 0⟩ :: param.path) p.id.name = id.name ↔ p.id.name = id.name)) :
    (call.rename f).argOfParam? (param.rename f) =
      (call.argOfParam? param).map (Site.rename f) := by
  have nodeNew : (param.rename f).node = .param (p.rename f param.path) := by
    rw [Site.rename, node]
    rfl
  have byName : (call.rename f).argByName? (p.rename f param.path).id.name =
      (call.argByName? p.id.name).map (Site.rename f) := by
    rw [Param.id_rename]
    exact Site.argByName_rename named
  simp only [Site.argOfParam?, nodeNew, node, byName, Site.enclosing_rename]
  cases call.argByName? p.id.name with
  | some value => rfl
  | none =>
      cases around : param.enclosing? (.only .fn) (some 1) with
      | none => rfl
      | some fn =>
          have isFn := mem_sites_of_outward isParam (Site.mem_outward_of_enclosing around)
          change ((fn.rename f).parameters.findIdx? fun entry => entry.1.same (param.rename f)).bind
              (fun index => (call.rename f).argByPosition? index) =
            ((fn.parameters.findIdx? fun entry => entry.1.same param).bind
              fun index => call.argByPosition? index).map (Site.rename f)
          rw [apart.findIdx_rename isFn isParam node, Option.map_bind]
          simp only [Function.comp_def, Site.argByPosition_rename]

end JsonnetNav
