import JsonnetNav.Ast.Tails

/-! # Arguments and parameters

Which argument of a call goes to which parameter of a function, and where the value of
a function comes from.
-/

namespace JsonnetNav

namespace Site

/-- The sites of the values of the arguments of a call, with the arguments. -/
def arguments (call : Site) : List (Site × Arg) :=
  match call.node with
  | .expr (.call _ _ args) => args.mapIdx fun i a =>
    ((call.down ⟨.args, i⟩ (.arg a)).part .value (.expr a.value), a)
  | _ => []

/-- The value of the first argument with a name. -/
def argByName? (call : Site) (name : Text) : Option Site :=
  (call.arguments.find? fun (_, a) => a.name.any (·.name = name)).map Prod.fst

/-- The value of the argument at an index, counted from zero. -/
def argByPosition? (call : Site) (index : Int) : Option Site :=
  if index < 0 then none else (call.arguments[index.toNat]?).map Prod.fst

/-- The sites of the parameters of a function. -/
def parameters (fn : Site) : List (Site × Param) :=
  match fn.node with
  | .expr (.fn _ params _) => params.mapIdx fun i p => (fn.down ⟨.params, i⟩ (.param p), p)
  | _ => []

/-- The value that a call gives to the parameter at a site: the argument with its name,
    or else the argument at its place in the function. -/
def argOfParam? (call param : Site) : Option Site :=
  match param.node with
  | .param p =>
    match call.argByName? p.id.name with
    | some value => some value
    | none => do
      let fn ← param.enclosing? (.only .fn) (some 1)
      let index ← fn.parameters.findIdx? fun (q, _) => q.same param
      call.argByPosition? index
  | _ => none

/-- The tails of the body of the function at a site. -/
def bodyTails (fn : Site) : List Site :=
  match fn.node with
  | .expr (.fn _ _ body) => (fn.part .body (.expr body)).tails
  | _ => []

/-- The branches of a conditional. -/
def branches (s : Site) : List Site :=
  match s.node with
  | .expr (.cond _ _ consequence alternative) =>
    s.part .consequence (.expr consequence) ::
      (alternative.map fun e => s.part .alternative (.expr e)).toList
  | _ => []

end Site

end JsonnetNav
