import JsonnetNav.Ast.Site

/-! # Tails

The tails of an expression decide its value. The body of a document, of local binds
and behind an assertion is in tail position, and so are the branches of a conditional.
Tails are followed through such positions, and every other expression is its own tail.
-/

namespace JsonnetNav

namespace Site

/-- The tails of an expression. -/
def tails (s : Site) : List Site :=
  match _h : s.node with
  | .expr (.document _ body) | .expr (.localIn _ _ body) | .expr (.assertIn _ _ body) =>
    (s.part .body (.expr body)).tails
  | .expr (.cond _ _ consequence alternative) =>
    (s.part .consequence (.expr consequence)).tails ++
      match alternative with
      | some alternative => (s.part .alternative (.expr alternative)).tails
      | none => []
  | _ => [s]
termination_by sizeOf s.node
decreasing_by all_goals simp [_h, part, down] <;> omega

/-- The edge leads into a tail position. -/
def isTailEdge (node : Node) (step : Step) : Bool :=
  match node with
  | .expr (.document _ _) | .expr (.localIn _ _ _) | .expr (.assertIn _ _ _) => step.role = .body
  | .expr (.cond _ _ _ _) => step.role = .consequence || step.role = .alternative
  | _ => false

/-- Expressions with a part in tail position hand their tails on. -/
def hasTailPosition (node : Node) : Bool :=
  match node with
  | .expr (.document _ _) | .expr (.localIn _ _ _) | .expr (.assertIn _ _ _)
  | .expr (.cond _ _ _ _) => true
  | _ => false

/-- The sites reached by leaving tail positions outwards. -/
def outOfTail (uri : Uri) : List (Step × Node) → List Site
  | [] => []
  | (step, node) :: above =>
    if isTailEdge node step then ⟨uri, node, above⟩ :: outOfTail uri above else []

/-- The expressions around the site that it is a tail of, innermost first. -/
def tailOf (s : Site) : List Site :=
  if hasTailPosition s.node then [] else outOfTail s.uri s.above

end Site

end JsonnetNav
