import JsonnetNav.Proofs.References
import Mathlib

/-! # What resolution lists

Every node that a walk has to do with is entered and left. So the calls and the names of
fields that resolution lists are those of the document, and whatever a name is bound to is
a node of the document, too.
-/

namespace JsonnetNav

/-- The node that an event is about. -/
def Event.site : Event → Site
  | .enter s => s
  | .leave s => s
  | .opened s => s
  | .closed s => s

namespace Walk

def Action.emitted? : Action → Option Event
  | .emit event => some event
  | .visit _ => none

/-- What happens in the steps of a plan themselves. -/
def emitted (actions : List Action) : List Event :=
  actions.filterMap Action.emitted?

section emitted

variable (actions more : List Action)

@[simp]
theorem emitted_nil : emitted [] = [] :=
  rfl

@[simp]
theorem emitted_emit (event : Event) :
    emitted (.emit event :: actions) = event :: emitted actions :=
  rfl

@[simp]
theorem emitted_visit (t : Site) : emitted (.visit t :: actions) = emitted actions :=
  rfl

@[simp]
theorem emitted_append : emitted (actions ++ more) = emitted actions ++ emitted more :=
  List.filterMap_append

theorem emitted_map_visit {α : Type} (site : α → Site) (xs : List α) :
    emitted (xs.map fun x => .visit (site x)) = [] := by
  induction xs with
  | nil => rfl
  | cons x xs ih => exact ih

@[simp]
theorem emitted_visitAll (sites : List Site) : emitted (visitAll sites) = [] :=
  emitted_map_visit id sites

@[simp]
theorem emitted_visitOption (s : Site) (role : Role) (node : Option Node) :
    emitted (visitOption s role node) = [] := by
  cases node <;> rfl

@[simp]
theorem emitted_fields (sites : List (Site × Field)) :
    emitted (fields .keysFirst sites actions) = emitted actions := by
  simp [fields, emitted_map_visit]

end emitted

/-- All events are about the given node, or about nodes that are entered and left. -/
def Bracketed (s : Site) (events : List Event) : Prop :=
  ∀ event ∈ events,
    event.site = s ∨ (.enter event.site ∈ events ∧ .leave event.site ∈ events)

theorem Bracketed.of_own {s : Site} {events : List Event}
    (own : ∀ event ∈ events, event.site = s) : Bracketed s events :=
  fun event member => .inl (own event member)

theorem Bracketed.with_node {s c : Site} {events inside : List Event}
    (bracketed : Bracketed s inside) (own : List Event) (about : ∀ event ∈ own, event.site = c)
    (enters : .enter c ∈ own) (leaves : .leave c ∈ own)
    (all : ∀ event, event ∈ events ↔ event ∈ own ∨ event ∈ inside) : Bracketed s events := by
  intro event member
  rcases (all event).mp member with isOwn | within
  · rw [about event isOwn]
    exact .inr ⟨(all _).mpr (.inl enters), (all _).mpr (.inl leaves)⟩
  · rcases bracketed event within with same | ⟨entered, left⟩
    · exact .inl same
    · exact .inr ⟨(all _).mpr (.inr entered), (all _).mpr (.inr left)⟩

theorem bracketed_clauses {s : Site} {inside : List Action} (sites : List Site)
    (bracketed : Bracketed s (emitted inside)) : Bracketed s (emitted (clauses inside sites)) := by
  induction sites with
  | nil => exact bracketed
  | cons c sites ih =>
      unfold clauses
      split
      · apply ih.with_node (c := c) [.enter c, .opened c, .closed c, .leave c]
        · simp [Event.site]
        · simp
        · simp
        · intro event
          simp only [emitted_append, emitted_emit, emitted_visit, emitted_nil, List.mem_append,
            List.mem_cons]
          tauto
      · apply ih.with_node (c := c) [.enter c, .leave c]
        · simp [Event.site]
        · simp
        · simp
        · intro event
          simp [or_assoc]
      · exact ih

theorem bracketed_inner (s : Site) : Bracketed s (emitted (inner .keysFirst s)) := by
  obtain ⟨uri, node, above⟩ := s
  cases node with
  | expr e =>
      cases e with
      | listComp range element clause rest => exact bracketed_clauses _ (.of_own (by simp))
      | objComp range field binds assertions clause rest =>
          exact bracketed_clauses _ (.of_own (by simp [Event.site]))
      | _ =>
          apply Bracketed.of_own
          simp [inner, Event.site]
  | key k => cases k <;> exact .of_own (by simp [inner])
  | _ =>
      apply Bracketed.of_own
      simp [inner, Event.site]

/-- What a walk has to do with is entered and left on the way. -/
theorem enter_and_leave {s : Site} {event : Event} (member : event ∈ events .keysFirst s) :
    .enter event.site ∈ events .keysFirst s ∧ .leave event.site ∈ events .keysFirst s := by
  have inPlan (action : Action) {e : Event} (step : action ∈ plan .keysFirst s)
      (happens : e ∈ action.events) : e ∈ events .keysFirst s := by
    rw [events_eq]
    exact List.mem_flatMap.mpr ⟨action, step, happens⟩
  have emits {e : Event} (inner : e ∈ emitted (inner .keysFirst s)) : e ∈ events .keysFirst s := by
    obtain ⟨action, step, same⟩ := List.mem_filterMap.mp inner
    cases action with
    | visit t => cases same
    | emit e' =>
        cases same
        exact inPlan (.emit e) (by simp [plan, step]) (.head _)
  have own : .enter s ∈ events .keysFirst s ∧ .leave s ∈ events .keysFirst s :=
    ⟨inPlan (.emit (.enter s)) (by simp [plan]) (.head _),
      inPlan (.emit (.leave s)) (by simp [plan]) (.head _)⟩
  rw [events_eq] at member
  obtain ⟨action, step, happens⟩ := List.mem_flatMap.mp member
  have place : action = .emit (.enter s) ∨ action ∈ inner .keysFirst s ∨
      action = .emit (.leave s) := by simpa [plan] using step
  rcases place with rfl | inside | rfl
  · cases List.mem_singleton.mp happens
    exact own
  · cases action with
    | emit e =>
        cases List.mem_singleton.mp happens
        have listed : event ∈ emitted (inner .keysFirst s) :=
          List.mem_filterMap.mpr ⟨.emit event, inside, rfl⟩
        rcases bracketed_inner s event listed with same | ⟨entered, left⟩
        · rw [same]
          exact own
        · exact ⟨emits entered, emits left⟩
    | visit t =>
        have smaller := visitsBelow_inner .keysFirst s t inside
        obtain ⟨entered, left⟩ := enter_and_leave happens
        exact ⟨inPlan _ step entered, inPlan _ step left⟩
  · cases List.mem_singleton.mp happens
    exact own
termination_by sizeOf s.node

end Walk

namespace Event

/-- The call that is listed at an event. -/
def call? : Event → Option Site
  | .leave s =>
    match s.node with
    | .expr (.call _ _ _) => some s
    | _ => none
  | _ => none

/-- The name of a field that is listed at an event. -/
def fieldRef? : Event → Option Site
  | .leave s =>
    match s.node with
    | .expr (.fieldAccess _ _ field) => some (s.part .field (.fieldRef field))
    | _ => none
  | _ => none

end Event

namespace ScopeTable

variable {t : ScopeTable} {i : ScopeId} {frame : List Binding} {b : Binding}

theorem mem_frames_bind {name : Text} {id target : Site}
    (inTable : frame ∈ (t.bind i name id target).frames) (member : b ∈ frame) :
    b.id = id ∧ b.target = target ∨ ∃ older ∈ t.frames, b ∈ older := by
  unfold bind at inTable
  split at inTable
  · obtain ⟨j, bound, rfl⟩ := Array.mem_iff_getElem.mp inTable
    have inOlder : j < t.frames.size := by simpa using bound
    have was : t.frames[j] ∈ t.frames := Array.getElem_mem inOlder
    rw [Array.getElem_modify] at member
    split at member
    · rcases List.mem_cons.mp member with rfl | before
      · exact .inl ⟨rfl, rfl⟩
      · exact .inr ⟨_, was, before⟩
    · exact .inr ⟨_, was, member⟩
  · exact .inr ⟨frame, inTable, member⟩

theorem mem_frames_nest {owner : Site} (inTable : frame ∈ (t.nest i owner).1.frames)
    (member : b ∈ frame) : ∃ older ∈ t.frames, b ∈ older := by
  rw [frames_nest] at inTable
  rcases Array.mem_push.mp inTable with older | rfl
  · exact ⟨frame, older, member⟩
  · cases member

theorem mem_frames_of_get {name : Text} (found : t.get? i name = some b) :
    ∃ frame ∈ t.frames, b ∈ frame := by
  obtain ⟨scope, -, inScope⟩ := List.exists_of_findSome?_eq_some found
  have member := List.mem_of_find?_eq_some inScope
  rw [bindings, Array.getD_eq_getD_getElem?] at member
  cases here : t.frames[scope.frame]? with
  | none => simp [here] at member
  | some frame =>
      rw [here] at member
      exact ⟨frame, Array.mem_of_getElem? here, member⟩

end ScopeTable

namespace Resolution.State

/-- The calls and the names of fields that are listed so far. -/
def listed (st : State) : List Site × List Site :=
  (st.resolution.calls.toList, st.resolution.fieldRefs.toList)

theorem listed_enter (st : State) (s : Site) : (st.enter s).listed = st.listed := by
  unfold enter
  split
  · rfl
  · unfold lookUp
    split <;> rfl
  · rfl
  · rfl

theorem listed_opened (st : State) (s : Site) : (st.opened s).listed = st.listed := by
  have params (sites : List (Site × Param)) (st : State) :
      (sites.foldl (fun st entry => st.bind entry.1 entry.2.id entry.1) st).listed = st.listed := by
    induction sites generalizing st with
    | nil => rfl
    | cons entry sites ih =>
        rw [List.foldl_cons, ih]
        rfl
  unfold opened
  split
  · exact (params _ _).trans rfl
  · rfl
  · rfl

theorem listed_step (st : State) (event : Event) :
    (st.step event).listed =
      (st.listed.1 ++ event.call?.toList, st.listed.2 ++ event.fieldRef?.toList) := by
  have same : st.listed = (st.listed.1 ++ [], st.listed.2 ++ []) := by simp
  cases event with
  | enter s => exact (listed_enter st s).trans same
  | opened s => exact (listed_opened st s).trans same
  | closed s =>
      refine Eq.trans ?_ same
      simp only [step, closeScope]
      split <;> rfl
  | leave s =>
      simp only [step, leave, Event.call?, Event.fieldRef?]
      split
      · simp_all [listed]
      · simp_all [listed]
      · simp_all [listed]

theorem listed_foldl (events : List Event) (st : State) :
    (events.foldl step st).listed =
      (st.listed.1 ++ events.filterMap Event.call?,
        st.listed.2 ++ events.filterMap Event.fieldRef?) := by
  induction events generalizing st with
  | nil => simp
  | cons event events ih =>
      rw [List.foldl_cons, ih, listed_step]
      cases call : event.call? <;> cases ref : event.fieldRef? <;>
        simp [call, ref]

/-- The variables that are bound so far, and whatever they are bound to, are good. -/
structure Grounded (good : Site → Prop) (st : State) : Prop where
  frames : ∀ frame ∈ st.resolution.scopes.frames, ∀ b ∈ frame, good b.id ∧ good b.target
  uses : ∀ use ∈ st.resolution.uses, good use.binding.target

namespace Grounded

variable {good : Site → Prop} {st : State}

theorem bind (grounded : Grounded good st) (s : Site) (id : Ident) {target : Site}
    (isGood : good (s.part .id (.var id)) ∧ good target) :
    Grounded good (st.bind s id target) := by
  refine ⟨?_, grounded.uses⟩
  intro frame inTable b member
  rcases ScopeTable.mem_frames_bind inTable member with ⟨id, target⟩ | ⟨older, was, before⟩
  · rwa [id, target]
  · exact grounded.frames older was b before

theorem openScope (grounded : Grounded good st) (owner : Site) :
    Grounded good (st.openScope owner) := by
  refine ⟨?_, grounded.uses⟩
  intro frame inTable b member
  obtain ⟨older, was, before⟩ := ScopeTable.mem_frames_nest inTable member
  exact grounded.frames older was b before

theorem closeScope (grounded : Grounded good st) : Grounded good st.closeScope := by
  unfold State.closeScope
  split
  · exact ⟨grounded.frames, grounded.uses⟩
  · exact grounded

theorem lookUp (grounded : Grounded good st) (ref : Site) (name : Text) :
    Grounded good (st.lookUp ref name) := by
  unfold State.lookUp
  split
  · rename_i binding found
    obtain ⟨frame, inTable, member⟩ := ScopeTable.mem_frames_of_get found
    refine ⟨grounded.frames, fun use listed => ?_⟩
    rcases Array.mem_push.mp listed with older | rfl
    · exact grounded.uses use older
    · exact (grounded.frames frame inTable binding member).2
  · exact grounded

theorem params (grounded : Grounded good st) (sites : List (Site × Param))
    (isGood : ∀ entry ∈ sites, good (entry.1.part .id (.var entry.2.id)) ∧ good entry.1) :
    Grounded good (sites.foldl (fun st entry => st.bind entry.1 entry.2.id entry.1) st) := by
  induction sites generalizing st with
  | nil => exact grounded
  | cons entry sites ih =>
      have first := grounded.bind entry.1 entry.2.id (isGood entry (.head _))
      exact ih first fun later member => isGood later (.tail _ member)

/-- What is bound at an event is the node that the event is about, or a child of it. -/
theorem step (grounded : Grounded good st) {event : Event} (isGood : good event.site)
    (closed : ∀ s, good s → ∀ c ∈ s.children, good c) : Grounded good (st.step event) := by
  have child {s : Site} (around : good s) {role : Role} {node : Node}
      (part : .child role node ∈ s.node.parts) : good (s.part role node) :=
    closed s around _ (Site.mem_children_of_part part (.head _))
  cases event with
  | enter s =>
      simp only [State.step, State.enter]
      cases node : s.node with
      | bind b =>
          apply grounded.bind s b.id
          constructor <;> exact child isGood (by simp [Event.site, node, Node.parts])
      | expr e =>
          cases e with
          | ref id => exact grounded.lookUp s id.name
          | importFile range kind importee => exact ⟨grounded.frames, grounded.uses⟩
          | _ => exact grounded
      | _ => exact grounded
  | leave s =>
      simp only [State.step, State.leave]
      split
      · exact ⟨grounded.frames, grounded.uses⟩
      · exact ⟨grounded.frames, grounded.uses⟩
      · exact grounded
  | opened s =>
      have inner := grounded.openScope s
      simp only [State.step, State.opened]
      cases node : s.node with
      | expr e =>
          cases e with
          | fn range params body =>
              refine inner.params _ fun entry member => ?_
              obtain ⟨i, bound, rfl⟩ := List.mem_mapIdx.mp member
              have param : good (s.down ⟨.params, i⟩ (.param params[i])) := closed s isGood _
                (Site.mem_children_of_row (by simp [node, Node.parts, Expr.parts]) bound)
              exact ⟨child param (by simp [Site.down, Node.parts]), param⟩
          | _ => exact inner
      | forSpec f =>
          apply inner.bind s f.id
          exact ⟨child isGood (by simp [Event.site, node, Node.parts]), isGood⟩
      | _ => exact inner
  | closed s => exact grounded.closeScope

theorem foldl (grounded : Grounded good st) {events : List Event}
    (isGood : ∀ event ∈ events, good event.site)
    (closed : ∀ s, good s → ∀ c ∈ s.children, good c) :
    Grounded good (events.foldl State.step st) := by
  induction events generalizing st with
  | nil => exact grounded
  | cons event events ih =>
      have first := grounded.step (isGood event (.head _)) closed
      exact ih first fun later member => isGood later (.tail _ member)

end Grounded

end Resolution.State

/-- Only a field access has the name of a field that is read as a part. -/
theorem Node.access_of_fieldRef {n : Node} {id : Ident}
    (part : .fieldRef id ∈ n.parts.flatMap Part.nodes) :
    ∃ range obj, n = .expr (.fieldAccess range obj id) := by
  have noClause (c : CompSpec) : c.node ≠ .fieldRef id := by
    cases c <;> simp [CompSpec.node]
  cases n with
  | expr e =>
      cases e with
      | fieldAccess range obj field =>
          have same : id = field := by simpa [parts, Expr.parts, Part.nodes] using part
          exact ⟨range, obj, by rw [same]⟩
      | slice range array start stop step =>
          cases stop <;> cases step <;>
            simp [parts, Expr.parts, Part.ofOption, Part.nodes] at part
      | cond range condition consequence alternative =>
          cases alternative <;> simp [parts, Expr.parts, Part.ofOption, Part.nodes] at part
      | _ => simp [parts, Expr.parts, Part.ofString, Part.nodes, noClause] at part
  | param p => cases given : p.default <;> simp [parts, Part.ofOption, Part.nodes, given] at part
  | arg a => cases given : a.name <;> simp [parts, Part.ofOption, Part.nodes, given] at part
  | assertion a =>
      cases given : a.message <;> simp [parts, Part.ofOption, Part.nodes, given] at part
  | key k => cases k <;> simp [parts, Part.nodes] at part
  | _ => simp [parts, Part.nodes] at part

theorem Site.access_of_fieldRef {s c : Site} {id : Ident} (child : c ∈ s.children)
    (node : c.node = .fieldRef id) :
    ∃ range obj, s.node = .expr (.fieldAccess range obj id) ∧ c = s.part .field (.fieldRef id) := by
  obtain ⟨edge, member, rfl⟩ := mem_children.mp child
  obtain ⟨p, listed, inPart⟩ := List.mem_flatMap.mp member
  have inNodes := Node.mem_nodes_of_mem_edges inPart
  rw [show edge.2 = .fieldRef id from node] at inNodes
  obtain ⟨range, obj, access⟩ :=
    Node.access_of_fieldRef (List.mem_flatMap.mpr ⟨p, listed, inNodes⟩)
  refine ⟨range, obj, access, ?_⟩
  have edges : edge = (⟨.obj, 0⟩, .expr obj) ∨ edge = (⟨.field, 0⟩, .fieldRef id) := by
    simpa [Node.children, Node.parts, Expr.parts, Part.edges, access] using member
  rcases edges with rfl | rfl
  · cases node
  · rfl

namespace Document

variable {d : Document} {uri : Uri}

theorem child_mem_sites {s c : Site} (inside : s ∈ d.sites) (child : c ∈ s.children) :
    c ∈ d.sites :=
  Site.mem_preorder_trans inside (Site.mem_preorder_of_child child)

theorem Built.site_of_event (built : d.Built uri) {event : Event}
    (happens : event ∈ Walk.events .keysFirst d.site) : event.site ∈ d.sites :=
  (built.enter_iff.mp (Walk.enter_and_leave happens).1).1

theorem Built.listed (built : d.Built uri) :
    (d.resolve.calls, d.resolve.fieldRefs) =
      ((Walk.events .keysFirst d.site).filterMap Event.call?,
        (Walk.events .keysFirst d.site).filterMap Event.fieldRef?) := by
  simp only [calls, fieldRefs, resolve, built.unresolved]
  exact Resolution.State.listed_foldl _ _

/-- The calls that are listed are calls of the document. -/
theorem Built.call_mem_sites (built : d.Built uri) {call : Site} (listed : call ∈ d.resolve.calls) :
    call ∈ d.sites := by
  rw [(Prod.mk.inj built.listed).1] at listed
  obtain ⟨event, happens, same⟩ := List.mem_filterMap.mp listed
  unfold Event.call? at same
  split at same
  · split at same
    · cases same
      exact built.site_of_event happens
    · cases same
  · cases same

/-- Every name of a field that is read in the document is listed. -/
theorem Built.mem_fieldRefs (built : d.Built uri) {ref : Site} :
    ref ∈ d.resolve.fieldRefs ↔ ref ∈ d.sites ∧ ∃ id, ref.node = .fieldRef id := by
  rw [(Prod.mk.inj built.listed).2, List.mem_filterMap]
  constructor
  · intro listed
    obtain ⟨event, happens, same⟩ := listed
    unfold Event.fieldRef? at same
    split at same
    · split at same
      · rename_i s range obj field node
        cases same
        refine ⟨child_mem_sites (built.site_of_event happens) ?_, field, rfl⟩
        refine Site.mem_children_of_part (p := .child .field (.fieldRef field)) ?_ (.head _)
        simp [Event.site, node, Node.parts, Expr.parts]
      · cases same
    · cases same
  · intro reads
    obtain ⟨inside, id, node⟩ := reads
    rcases Site.parent_of_mem_preorder inside with rfl | ⟨s, around, child⟩
    · obtain ⟨range, body, root⟩ := built.root
      rw [site, root] at node
      cases node
    · obtain ⟨range, obj, access, rfl⟩ := Site.access_of_fieldRef child node
      have enters := built.enter_iff.mpr ⟨around, by simp [Walk.isWalked, access]⟩
      refine ⟨.leave s, (Walk.enter_and_leave enters).2, ?_⟩
      simp [Event.fieldRef?, access]

theorem Built.grounded (built : d.Built uri) {r : Resolution}
    (resolved : d.resolve.resolution = some r) :
    (∀ frame ∈ r.scopes.frames, ∀ b ∈ frame, b.id ∈ d.sites ∧ b.target ∈ d.sites) ∧
      ∀ use ∈ r.uses, use.binding.target ∈ d.sites := by
  let start : Resolution.State :=
    ⟨{ scopes := (ScopeTable.empty {} d.site).1 }, (ScopeTable.empty {} d.site).2⟩
  have empty : start.Grounded (· ∈ d.sites) := by
    refine ⟨?_, fun use member => by simp [start] at member⟩
    intro frame inTable b member
    have only : frame = [] := by simpa [start, ScopeTable.empty, ScopeTable.add] using inTable
    simp [only] at member
  have grounded := empty.foldl (fun event => built.site_of_event)
    fun s inside c => child_mem_sites inside
  simp only [resolve, built.unresolved] at resolved
  cases resolved
  exact ⟨grounded.frames, grounded.uses⟩

/-- A variable stands for a node of its document. -/
theorem Built.target_mem_sites (built : d.Built uri) {ref : Site} {b : Binding}
    (found : d.resolve.bindingOfRef? ref = some b) : b.target ∈ d.sites := by
  obtain ⟨r, resolved, inUses⟩ := Option.bind_eq_some_iff.mp found
  obtain ⟨use, first, same⟩ := Option.map_eq_some_iff.mp inUses
  rw [← same]
  exact (built.grounded resolved).2 use (Array.mem_of_find?_eq_some first)

/-- The binding of a variable is that of a variable of its document. -/
theorem Built.id_mem_sites (built : d.Built uri) {var : Site} {b : Binding}
    (found : d.resolve.bindingOf? var = some b) : b.id ∈ d.sites ∧ b.id.isAt var := by
  obtain ⟨r, resolved, inFrames⟩ := Option.bind_eq_some_iff.mp found
  obtain ⟨frame, inTable, first⟩ := List.exists_of_findSome?_eq_some inFrames
  have bound := (built.grounded resolved).1 frame (Array.mem_toList_iff.mp inTable) b
    (List.mem_of_find?_eq_some first)
  have isAt := List.find?_some first
  exact ⟨bound.1, isAt⟩

end Document

end JsonnetNav
