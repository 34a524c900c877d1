import JsonnetNav.Scope.Table
import JsonnetNav.Walk

/-! # Resolving names

Resolution follows a walk through the document. The current scope changes where scopes
are opened and closed, names are bound in it, and a reference is looked up in it at the
moment it is met. On the way the calls, field references and imports are listed.
-/

namespace JsonnetNav

/-- A reference to a variable and the binding it was found under. -/
structure Use where
  ref : Site
  binding : Binding

/-- What is known about the names in a document. -/
structure Resolution where
  /-- The scopes; the first one belongs to the document. -/
  scopes : ScopeTable
  /-- The references that were found, in the order of the walk. -/
  uses : Array Use := #[]
  /-- Calls, each after the calls inside of it. -/
  calls : Array Site := #[]
  /-- The names of the fields that are read, each after the ones in its object. -/
  fieldRefs : Array Site := #[]
  /-- The paths of the files that are imported. -/
  importees : Array Site := #[]

namespace Resolution

/-- A resolution on its way, with the scope that is open. -/
structure State where
  resolution : Resolution
  current : ScopeId

namespace State

/-- Binds the variable of the node at a site in the open scope. -/
def bind (st : State) (s : Site) (id : Ident) (target : Site) : State :=
  { st with resolution.scopes :=
      st.resolution.scopes.bind st.current id.name (s.part .id (.var id)) target }

/-- Opens a scope inside of the open one. -/
def openScope (st : State) (owner : Site) : State :=
  let (scopes, current) := st.resolution.scopes.nest st.current owner
  { resolution := { st.resolution with scopes := scopes }, current := current }

/-- Returns to the scope around the open one. -/
def closeScope (st : State) : State :=
  match st.resolution.scopes.scopes[st.current]? with
  | some { parent := some p, .. } => { st with current := p }
  | _ => st

/-- Looks a reference up in the open scope. -/
def lookUp (st : State) (ref : Site) (name : Text) : State :=
  match st.resolution.scopes.get? st.current name with
  | some binding => { st with resolution.uses := st.resolution.uses.push ⟨ref, binding⟩ }
  | none => st

/-- Entering a bind binds its variable, entering a reference looks it up. -/
def enter (st : State) (s : Site) : State :=
  match s.node with
  | .bind b => st.bind s b.id (s.part .value (.expr b.value))
  | .expr (.ref id) => st.lookUp s id.name
  | .expr (.importFile _ _ importee) =>
    { st with resolution.importees :=
        st.resolution.importees.push (s.part .importee (.importee importee)) }
  | _ => st

/-- Calls and field accesses are listed when they are left. -/
def leave (st : State) (s : Site) : State :=
  match s.node with
  | .expr (.call _ _ _) => { st with resolution.calls := st.resolution.calls.push s }
  | .expr (.fieldAccess _ _ field) =>
    { st with resolution.fieldRefs :=
        st.resolution.fieldRefs.push (s.part .field (.fieldRef field)) }
  | _ => st

/-- The scope of a function starts with all its parameters, the scope of a clause with
    its variable. -/
def opened (st : State) (s : Site) : State :=
  let st := st.openScope s
  match s.node with
  | .expr (.fn _ params _) =>
    (params.mapIdx fun i p => (s.down ⟨.params, i⟩ (.param p), p)).foldl
      (fun st (site, p) => st.bind site p.id site) st
  | .forSpec f => st.bind s f.id s
  | _ => st

/-- Follows one step of the walk. -/
def step (st : State) : Event → State
  | .enter s => st.enter s
  | .leave s => st.leave s
  | .opened s => st.opened s
  | .closed _ => st.closeScope

end State

/-- Resolves the names in the document at a site. Uses, calls, field references and
    imports of an earlier resolution are kept in front of the new ones. -/
def run (root : Site) (earlier : Option Resolution) : Resolution :=
  let (scopes, top) := ScopeTable.empty {} root
  let start := match earlier with
    | some r => { r with scopes := scopes }
    | none => { scopes := scopes }
  ((Walk.events .keysFirst root).foldl State.step ⟨start, top⟩).resolution

/-- The binding that a reference was found under. -/
def bindingOfRef? (r : Resolution) (ref : Site) : Option Binding :=
  (r.uses.find? (·.ref.isAt ref)).map Use.binding

/-- The references to a variable. -/
def references (r : Resolution) (var : Site) : List Site :=
  (r.uses.toList.filter (·.binding.id.isAt var)).map Use.ref

end Resolution

end JsonnetNav
