import JsonnetNav.Walk

/-! # Visible variables

Which variables can be seen at a place is a matter of the edges that lead to it. Nothing
can be seen at the root, and each edge adds what the node it leaves shows to that part of
it:

* a bind sees the binds before it, and its value sees the bind itself as well;
* the body of a local expression sees all its binds;
* all parts of a function see all its parameters;
* a clause of a comprehension sees the variables of the clauses before it, and what the
  comprehension is made of sees them all;
* the assertions of an object and the values of its fields see all its locals, but the keys
  of its fields see none of them.
-/

namespace JsonnetNav

/-- Variables by name, the newest first. It hides the older ones of its name. -/
abbrev Env := List (Text × Site)

namespace Site

/-- The variable that a bind, a parameter or a clause introduces. -/
def introduces? (s : Site) : Option (Text × Site) :=
  match s.node with
  | .bind b => some (b.id.name, s.part .id (.var b.id))
  | .param p => some (p.id.name, s.part .id (.var p.id))
  | .forSpec f => some (f.id.name, s.part .id (.var f.id))
  | _ => none

/-- The variables that the sites introduce one after the other. -/
def introduced (sites : List Site) : Env :=
  (sites.filterMap introduces?).reverse

def bindRow (s : Site) (binds : List LocalBind) : List Site :=
  s.row .binds (binds.map .bind)

def paramRow (s : Site) (params : List Param) : List Site :=
  s.row .params (params.map .param)

/-- The locals of an object. -/
def locals (s : Site) : Env :=
  match s.node with
  | .expr (.object _ binds _ _) => introduced (s.bindRow binds)
  | .expr (.objComp _ _ binds _ _ _) => introduced (s.bindRow binds)
  | _ => []

/-- What a node shows to one of its parts in addition to what it sees itself. -/
def shows (s : Site) (step : Step) : Env :=
  match s.node, step.role with
  | .expr (.localIn _ binds _), .binds => introduced ((s.bindRow binds).take step.index)
  | .expr (.localIn _ binds _), .body => introduced (s.bindRow binds)
  | .bind _, .value => introduced [s]
  | .expr (.fn _ params _), _ => introduced (s.paramRow params)
  | .expr (.listComp _ _ clause rest), .compSpec =>
    introduced ((Walk.clauseSites s clause rest).take (step.index + 1))
  | .expr (.listComp _ _ clause rest), .expr => introduced (Walk.clauseSites s clause rest)
  | .expr (.object _ binds _ _), .binds => introduced ((s.bindRow binds).take step.index)
  | .expr (.object _ _ _ _), .assertions => s.locals
  | .expr (.objComp _ _ _ _ clause rest), .compSpec =>
    introduced ((Walk.clauseSites s clause rest).take (step.index + 1))
  | .expr (.objComp _ _ binds _ clause rest), .binds =>
    introduced ((s.bindRow binds).take step.index) ++ introduced (Walk.clauseSites s clause rest)
  | .expr (.objComp _ _ _ _ clause rest), .asserts =>
    s.locals ++ introduced (Walk.clauseSites s clause rest)
  | .expr (.objComp _ _ _ _ clause rest), .field => introduced (Walk.clauseSites s clause rest)
  | .field _, .value => s.parent?.elim [] locals
  | _, _ => []

/-- The variables that can be seen behind the edges. -/
def visibleBehind (uri : Uri) : List (Step × Node) → Env
  | [] => []
  | (step, node) :: above => shows ⟨uri, node, above⟩ step ++ visibleBehind uri above

/-- The variables that can be seen at a site. -/
def visible (s : Site) : Env :=
  visibleBehind s.uri s.above

theorem visible_part (s : Site) (role : Role) (node : Node) :
    (s.part role node).visible = s.shows ⟨role, 0⟩ ++ s.visible :=
  rfl

theorem introduced_cons (s : Site) (sites : List Site) :
    introduced (s :: sites) = introduced sites ++ introduced [s] := by
  simp only [introduced, ← List.reverse_append, ← List.filterMap_append, List.singleton_append]

end Site

end JsonnetNav
