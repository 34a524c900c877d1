import JsonnetNav.Proofs.Sites
import JsonnetNav.Proofs.Documents
import JsonnetNav.Ast.Arguments
import Mathlib

/-! # Arguments and the parameters they go to

An argument with a name is meant for the parameter of that name, and one without a name for the
parameter at its place. A parameter that is not named in a call gets the argument at its place,
but nothing makes sure that this one has no name: it can be an argument for another parameter.
-/

namespace JsonnetNav

theorem Node.name_of_same_var {id id' : Ident} (same : (Node.var id).same (.var id') = true) :
    id.name = id'.name := by
  rw [Node.same] at same
  simp only [parts, Bool.and_eq_true, List.all_eq_true] at same
  have name := same.2 _ (.head _)
  simpa [Leaf.same] using name

/-- Parameters that look the same have the same name. -/
theorem Node.name_of_same_param {p q : Param} (same : (Node.param q).same (.param p) = true) :
    q.id.name = p.id.name := by
  rw [Node.same] at same
  simp only [parts, Bool.and_eq_true, List.all_eq_true] at same
  have ids := same.2 _ (.head _)
  simp only [Bool.and_eq_true] at ids
  exact name_of_same_var ids.2

namespace Param

/-- The index of the first parameter that looks like this one, which is at the given index. -/
def firstAlike (p : Param) (params : List Param) (i : Nat) : Nat :=
  (params.take i).findIdx fun q => (Node.param q).same (.param p)

theorem firstAlike_le (p : Param) (params : List Param) (i : Nat) :
    p.firstAlike params i ≤ i :=
  Nat.le_trans List.findIdx_le_length (List.length_take_le i params)

theorem same_firstAlike {p : Param} {params : List Param} {i : Nat} (bound : i < params.length)
    (earlier : p.firstAlike params i < i) :
    (Node.param params[p.firstAlike params i]).same (.param p) = true := by
  unfold firstAlike at *
  have within : (params.take i).findIdx (fun q => (Node.param q).same (.param p)) <
      (params.take i).length := by
    rw [List.length_take]
    omega
  have found := List.findIdx_getElem (w := within)
  rwa [List.getElem_take] at found

theorem not_same_before {p : Param} {params : List Param} {i k : Nat} (bound : k < params.length)
    (before : k < p.firstAlike params i) : ¬ (Node.param params[k]).same (.param p) = true := by
  have missed := List.not_of_lt_findIdx before
  rw [List.getElem_take] at missed
  simpa using missed

section

variable {params : List Param} {i j : Nat} {p q : Param}

theorem index_of_name (names : (params.map (·.id.name)).Nodup) (first : params[i]? = some p)
    (second : params[j]? = some q) (same : p.id.name = q.id.name) : i = j := by
  obtain ⟨bound, -⟩ := List.getElem?_eq_some_iff.mp first
  apply (List.getElem?_inj (by simpa using bound) names).mp
  simp [first, second, same]

/-- Where parameters have different names, no two of them look the same. -/
theorem firstAlike_eq (names : (params.map (·.id.name)).Nodup) (here : params[i]? = some p) :
    p.firstAlike params i = i := by
  obtain ⟨bound, -⟩ := List.getElem?_eq_some_iff.mp here
  rcases Nat.eq_or_lt_of_le (p.firstAlike_le params i) with itself | earlier
  · exact itself
  · have same := Node.name_of_same_param (same_firstAlike bound earlier)
    exact index_of_name names (List.getElem?_eq_getElem (by omega)) here same

end

end Param

namespace Site

/-- What a parameter should get: the value of the first argument with its name, or else that of
    the argument at its place, if this one has no name. -/
def dueArg? (call : Site) (name : Text) (index : Nat) : Option Site :=
  (call.argByName? name).or
    ((call.arguments[index]?.filter (·.2.name.isNone)).map Prod.fst)

/-- The call names the parameter, or there is no argument at its place, or this one has no name. -/
def Matches (call : Site) (params : List Param) (i : Nat) (p : Param) : Prop :=
  (call.argByName? p.id.name).isSome ∨ call.arguments.length ≤ p.firstAlike params i ∨
    (p.firstAlike params i = i ∧ ∃ entry, call.arguments[i]? = some entry ∧ entry.2.name = none)

section

variable {call fn : Site} {range : Range} {params : List Param} {body : Expr} {i j : Nat}
  {p : Param}

theorem exists_arguments (call : Site) : ∃ args : List Arg, call.arguments = args.mapIdx fun i a =>
    ((call.down ⟨.args, i⟩ (.arg a)).part .value (.expr a.value), a) := by
  unfold arguments
  split
  · exact ⟨_, rfl⟩
  · exact ⟨[], rfl⟩

/-- Every argument has a place of its own. -/
theorem index_of_argument {entry entry' : Site × Arg} (first : call.arguments[i]? = some entry)
    (second : call.arguments[j]? = some entry') (same : entry.1 = entry'.1) : i = j := by
  obtain ⟨args, listed⟩ := call.exists_arguments
  rw [listed, List.getElem?_mapIdx] at first second
  obtain ⟨a, -, rfl⟩ := Option.map_eq_some_iff.mp first
  obtain ⟨a', -, rfl⟩ := Option.map_eq_some_iff.mp second
  have paths := congrArg path same
  simp only [path, part, down, List.map_cons, List.cons.injEq, Step.mk.injEq, true_and] at paths
  exact paths.1

theorem argByName_eq_some {name : Text} {value : Site} (found : call.argByName? name = some value) :
    ∃ (i : Nat) (a : Arg) (id : Ident),
      call.arguments[i]? = some (value, a) ∧ a.name = some id ∧ id.name = name := by
  obtain ⟨⟨value, a⟩, first, rfl⟩ := Option.map_eq_some_iff.mp found
  obtain ⟨i, here⟩ := List.mem_iff_getElem?.mp (List.mem_of_find?_eq_some first)
  have named := List.find?_some first
  simp only [Option.any_eq_true, decide_eq_true_eq] at named
  obtain ⟨id, given, same⟩ := named
  exact ⟨i, a, id, here, given, same⟩

theorem argByName_eq_none {name : Text} :
    call.argByName? name = none ↔
      ∀ entry ∈ call.arguments, ∀ id, entry.2.name = some id → id.name ≠ name := by
  simp [argByName?, Option.any_eq_false]

theorem enclosing_param (isFn : fn.node = .expr (.fn range params body)) :
    (fn.down ⟨.params, i⟩ (.param p)).enclosing? (.only .fn) (some 1) = some fn := by
  have isA : fn.node.isA (.only .fn) = true := by
    rw [isFn]
    rfl
  have other : (Node.param p).isA (.only .fn) = false := rfl
  simp [enclosing?, outward, around, down, enclosingIn, isA, other]

theorem findIdx_parameters (isFn : fn.node = .expr (.fn range params body))
    (here : params[i]? = some p) :
    (fn.parameters.findIdx? fun entry => entry.1.same (fn.down ⟨.params, i⟩ (.param p))) =
      some (p.firstAlike params i) := by
  have listed : fn.parameters =
      params.mapIdx fun k q => (fn.down ⟨.params, k⟩ (.param q), q) := by
    rw [parameters, isFn]
  obtain ⟨bound, rfl⟩ := List.getElem?_eq_some_iff.mp here
  have alike (k : Nat) (q : Param) : (fn.down ⟨.params, k⟩ (.param q)).same
      (fn.down ⟨.params, i⟩ (.param params[i])) =
        (decide (k = i) || (Node.param q).same (.param params[i])) := by
    simp [same, path, down]
  have atMost := params[i].firstAlike_le params i
  rw [listed, List.findIdx?_eq_some_iff_getElem]
  refine ⟨by simp; omega, ?_, ?_⟩
  · simp only [List.getElem_mapIdx, alike, Bool.or_eq_true, decide_eq_true_eq]
    rcases Nat.eq_or_lt_of_le atMost with itself | earlier
    · exact .inl itself
    · exact .inr (Param.same_firstAlike bound earlier)
  · intro k before
    simp only [List.getElem_mapIdx, alike, Bool.or_eq_true, decide_eq_true_eq, not_or]
    exact ⟨by omega, Param.not_same_before (by omega) before⟩

/-- A parameter gets the first argument with its name, or else the argument at its place. -/
theorem argOfParam_eq (isFn : fn.node = .expr (.fn range params body))
    (here : params[i]? = some p) (call : Site) :
    call.argOfParam? (fn.down ⟨.params, i⟩ (.param p)) =
      (call.argByName? p.id.name).or
        (call.arguments[p.firstAlike params i]?.map Prod.fst) := by
  have position (k : Nat) : call.argByPosition? k = call.arguments[k]?.map Prod.fst := by
    simp [argByPosition?]
  unfold argOfParam?
  simp only [down]
  cases call.argByName? p.id.name with
  | some value => rfl
  | none =>
      have fnOf := enclosing_param (i := i) (p := p) isFn
      have index := findIdx_parameters isFn here
      simp only [down] at fnOf index
      simp [fnOf, index, position]

/-- A parameter gets what it should exactly if the call matches it. -/
theorem argOfParam_eq_due_iff (isFn : fn.node = .expr (.fn range params body))
    (here : params[i]? = some p) (call : Site) :
    call.argOfParam? (fn.down ⟨.params, i⟩ (.param p)) = call.dueArg? p.id.name i ↔
      call.Matches params i p := by
  rw [argOfParam_eq isFn here, dueArg?, Matches]
  have atMost := p.firstAlike_le params i
  cases call.argByName? p.id.name with
  | some value => simp
  | none =>
      simp only [Option.none_or, Option.isSome_none, Bool.false_eq_true, false_or]
      cases atPlace : call.arguments[p.firstAlike params i]? with
      | none =>
          have past := List.getElem?_eq_none_iff.mp atPlace
          have missing : call.arguments[i]? = none :=
            List.getElem?_eq_none_iff.mpr (Nat.le_trans past atMost)
          simp [missing, past]
      | some entry =>
          have within : ¬ call.arguments.length ≤ p.firstAlike params i := by
            obtain ⟨bound, -⟩ := List.getElem?_eq_some_iff.mp atPlace
            omega
          simp only [within, false_or]
          constructor
          · intro same
            obtain ⟨entry', kept, site⟩ := Option.map_eq_some_iff.mp same.symm
            obtain ⟨found, unnamed⟩ := Option.filter_eq_some_iff.mp kept
            have index := index_of_argument atPlace found site.symm
            exact ⟨index, entry', found, by simpa using unnamed⟩
          · rintro ⟨index, entry', found, unnamed⟩
            rw [index, found] at atPlace
            cases atPlace
            simp [found, Option.filter, unnamed]

/-- An argument with another name goes to a parameter exactly if the call does not name the
    parameter, and the argument at its place has a name. -/
theorem misnamed_iff (isFn : fn.node = .expr (.fn range params body))
    (here : params[i]? = some p) (call : Site) :
    (∃ entry ∈ call.arguments,
      call.argOfParam? (fn.down ⟨.params, i⟩ (.param p)) = some entry.1 ∧
        ∃ id, entry.2.name = some id ∧ id.name ≠ p.id.name) ↔
    call.argByName? p.id.name = none ∧ ∃ entry id,
      call.arguments[p.firstAlike params i]? = some entry ∧ entry.2.name = some id := by
  rw [argOfParam_eq isFn here]
  constructor
  · rintro ⟨entry, member, given, id, named, other⟩
    obtain ⟨k, atK⟩ := List.mem_iff_getElem?.mp member
    cases byName : call.argByName? p.id.name with
    | some value =>
        obtain ⟨j, a, id', atJ, named', same⟩ := argByName_eq_some byName
        rw [byName, Option.some_or, Option.some.injEq] at given
        cases index_of_argument atJ atK given
        rw [atJ] at atK
        cases atK
        rw [named'] at named
        cases named
        exact absurd same other
    | none =>
        rw [byName, Option.none_or] at given
        obtain ⟨entry', atPlace, site⟩ := Option.map_eq_some_iff.mp given
        have index := index_of_argument atPlace atK site
        rw [index, atK] at atPlace
        cases atPlace
        exact ⟨rfl, entry, id, index ▸ atK, named⟩
  · rintro ⟨unnamed, entry, id, atPlace, named⟩
    have member := List.mem_of_getElem? atPlace
    refine ⟨entry, member, ?_, id, named, argByName_eq_none.mp unnamed entry member id named⟩
    simp [unnamed, atPlace]

/-- Where the call matches a parameter, what it gets is an argument with its name, or the argument
    at its place, without a name. -/
theorem argument_of_matches (isFn : fn.node = .expr (.fn range params body))
    (here : params[i]? = some p) (matched : call.Matches params i p) {value : Site}
    (given : call.argOfParam? (fn.down ⟨.params, i⟩ (.param p)) = some value) :
    ∃ (k : Nat) (a : Arg), call.arguments[k]? = some (value, a) ∧
      ((∃ id, a.name = some id ∧ id.name = p.id.name) ∨ (a.name = none ∧ k = i)) := by
  rw [(argOfParam_eq_due_iff isFn here call).mpr matched, dueArg?] at given
  cases byName : call.argByName? p.id.name with
  | some value' =>
      rw [byName, Option.some_or] at given
      cases given
      obtain ⟨k, a, id, atK, named, same⟩ := argByName_eq_some byName
      exact ⟨k, a, atK, .inl ⟨id, named, same⟩⟩
  | none =>
      rw [byName, Option.none_or] at given
      obtain ⟨⟨value, a⟩, kept, rfl⟩ := Option.map_eq_some_iff.mp given
      obtain ⟨found, unnamed⟩ := Option.filter_eq_some_iff.mp kept
      exact ⟨i, a, found, .inr ⟨by simpa using unnamed, rfl⟩⟩

/-- No argument goes to two parameters of different names that the call matches. -/
theorem argument_goes_once (isFn : fn.node = .expr (.fn range params body))
    (names : (params.map (·.id.name)).Nodup) {q : Param} (first : params[i]? = some p)
    (second : params[j]? = some q) (different : i ≠ j) (matched : call.Matches params i p)
    (matched' : call.Matches params j q) {value : Site}
    (given : call.argOfParam? (fn.down ⟨.params, i⟩ (.param p)) = some value) :
    call.argOfParam? (fn.down ⟨.params, j⟩ (.param q)) ≠ some value := by
  intro given'
  obtain ⟨k, a, atK, fits⟩ := argument_of_matches isFn first matched given
  obtain ⟨k', a', atK', fits'⟩ := argument_of_matches isFn second matched' given'
  cases index_of_argument atK atK' rfl
  rw [atK] at atK'
  cases atK'
  rcases fits with ⟨id, named, same⟩ | ⟨unnamed, place⟩
  · rcases fits' with ⟨id', named', same'⟩ | ⟨unnamed', -⟩
    · rw [named] at named'
      cases named'
      exact different (Param.index_of_name names first second (same.symm.trans same'))
    · rw [named] at unnamed'
      cases unnamed'
  · rcases fits' with ⟨id', named', -⟩ | ⟨-, place'⟩
    · rw [unnamed] at named'
      cases named'
    · exact different (place.symm.trans place')

/-- A parameter gets the first argument with its name, or else the argument at its place. This is
    what it should get exactly if the call matches it, and otherwise it may be an argument with
    another name. Where names differ, no argument goes to two parameters that the call matches. -/
theorem arguments_go_to_params (isFn : fn.node = .expr (.fn range params body)) (call : Site) :
    (∀ i p, params[i]? = some p →
      call.argOfParam? (fn.down ⟨.params, i⟩ (.param p)) =
        (call.argByName? p.id.name).or (call.arguments[p.firstAlike params i]?.map Prod.fst) ∧
      (call.argOfParam? (fn.down ⟨.params, i⟩ (.param p)) = call.dueArg? p.id.name i ↔
        call.Matches params i p) ∧
      ((∃ entry ∈ call.arguments,
        call.argOfParam? (fn.down ⟨.params, i⟩ (.param p)) = some entry.1 ∧
          ∃ id, entry.2.name = some id ∧ id.name ≠ p.id.name) ↔
        call.argByName? p.id.name = none ∧ ∃ entry id,
          call.arguments[p.firstAlike params i]? = some entry ∧ entry.2.name = some id)) ∧
    ((params.map (·.id.name)).Nodup →
      (∀ (i : Nat) (p : Param), params[i]? = some p → p.firstAlike params i = i) ∧
      ∀ i j p q, params[i]? = some p → params[j]? = some q → i ≠ j →
        call.Matches params i p → call.Matches params j q → ∀ value,
          call.argOfParam? (fn.down ⟨.params, i⟩ (.param p)) = some value →
          call.argOfParam? (fn.down ⟨.params, j⟩ (.param q)) ≠ some value) := by
  refine ⟨?_, ?_⟩
  · intro i p here
    exact ⟨argOfParam_eq isFn here call, argOfParam_eq_due_iff isFn here call,
      misnamed_iff isFn here call⟩
  · intro names
    refine ⟨fun i p here => Param.firstAlike_eq names here, ?_⟩
    intro i j p q first second different matched matched' value given
    exact argument_goes_once isFn names first second different matched matched' given

end

/-! ## A call that names its second parameter only -/

/-- The tree of `local f = function(x, y) x; [f(null, y=null), f(y=null)]`. -/
def namingTree : ParseTree :=
  let node (type : String) (start stop : Nat) (children : List ParseTree) : ParseTree :=
    { type := type, range := Range.ofNats 0 start 0 stop, children := children }
  let leaf (type : String) (start : Nat) (text : String) : ParseTree :=
    { type := type, range := Range.ofNats 0 start 0 (start + text.length), text := some text }
  let param (start : Nat) (name : String) := node "param" start (start + 1) [leaf "id" start name]
  let named (start : Nat) :=
    node "named_argument" start (start + 6) [leaf "id" start "y", leaf "null" (start + 2) "null"]
  let fn := node "anonymous_function" 10 26
    [node "params" 19 23 [param 19 "x", param 22 "y"], leaf "id" 25 "x"]
  let full := node "functioncall" 29 44
    [leaf "id" 29 "f", node "args" 31 43 [leaf "null" 31 "null", named 37]]
  let bare := node "functioncall" 46 55 [leaf "id" 46 "f", node "args" 48 54 [named 48]]
  node "document" 0 56
    [node "local_bind" 0 56
      [leaf "local" 0 "local", node "bind" 6 26 [leaf "id" 6 "f", fn],
        node "array" 28 56 [full, bare]]]

def namingIdent (start : Nat) (name : String) : Ident :=
  ⟨Range.ofNats 0 start 0 (start + 1), .ofString name⟩

def namingParam (start : Nat) (name : String) : Param :=
  ⟨Range.ofNats 0 start 0 (start + 1), namingIdent start name, none⟩

def namingFn : Expr :=
  .fn (Range.ofNats 0 10 0 26) [namingParam 19 "x", namingParam 22 "y"] (.ref (namingIdent 25 "x"))

def namedArg (start : Nat) : Arg :=
  ⟨Range.ofNats 0 start 0 (start + 6), .null (Range.ofNats 0 (start + 2) 0 (start + 6)),
    some (namingIdent start "y")⟩

def namingFull : Expr :=
  .call (Range.ofNats 0 29 0 44) (.ref (namingIdent 29 "f"))
    [⟨Range.ofNats 0 31 0 35, .null (Range.ofNats 0 31 0 35), none⟩, namedArg 37]

def namingBare : Expr :=
  .call (Range.ofNats 0 46 0 55) (.ref (namingIdent 46 "f")) [namedArg 48]

def namingBind : LocalBind :=
  ⟨Range.ofNats 0 6 0 26, namingIdent 6 "f", namingFn⟩

def namingArray : Expr :=
  .array (Range.ofNats 0 28 0 56) [namingFull, namingBare]

def namingLocal : Expr :=
  .localIn (Range.ofNats 0 0 0 56) [namingBind] namingArray

def namingDocument : Document :=
  { uri := "file:///x", root := .expr (.document (Range.ofNats 0 0 0 56) namingLocal) }

theorem naming_built : Document.ofParseTree "file:///x" namingTree = .ok namingDocument := by
  cbv

def namingFnSite : Site :=
  ((namingDocument.site.part .body (.expr namingLocal)).down ⟨.binds, 0⟩ (.bind namingBind)).part
    .value (.expr namingFn)

/-- The site of a call of the function. -/
def namingCallSite (i : Nat) (call : Expr) : Site :=
  ((namingDocument.site.part .body (.expr namingLocal)).part .body (.expr namingArray)).down
    ⟨.values, i⟩ (.expr call)

def namingParamSite (i start : Nat) (name : String) : Site :=
  namingFnSite.down ⟨.params, i⟩ (.param (namingParam start name))

/-- The site of the value of an argument. -/
def valueSite (call : Site) (i : Nat) (a : Arg) : Site :=
  (call.down ⟨.args, i⟩ (.arg a)).part .value (.expr a.value)

theorem naming_mem_sites : namingFnSite ∈ namingDocument.sites ∧
    namingCallSite 0 namingFull ∈ namingDocument.sites ∧
    namingCallSite 1 namingBare ∈ namingDocument.sites := by
  let inside := namingDocument.site.part .body (.expr namingLocal)
  have body : inside ∈ namingDocument.sites := mem_preorder_of_part (.head _) (.head _)
  have bind : inside.down ⟨.binds, 0⟩ (.bind namingBind) ∈ namingDocument.sites :=
    mem_preorder_trans body (mem_preorder_of_part (.head _) (.head _))
  have array : inside.part .body (.expr namingArray) ∈ namingDocument.sites :=
    mem_preorder_trans body (mem_preorder_of_part (.tail _ (.head _)) (.head _))
  refine ⟨?_, ?_, ?_⟩
  · exact mem_preorder_trans bind (mem_preorder_of_part (.tail _ (.head _)) (.head _))
  · exact mem_preorder_trans array (mem_preorder_of_part (.head _) (.head _))
  · exact mem_preorder_trans array (mem_preorder_of_part (.head _) (.tail _ (.head _)))

/-- With one argument by place and one by name, each parameter gets its own. -/
theorem named_and_placed :
    let call := namingCallSite 0 namingFull
    let params := [namingParam 19 "x", namingParam 22 "y"]
    Document.ofParseTree "file:///x" namingTree = .ok namingDocument ∧
    (namingFnSite ∈ namingDocument.sites ∧ call ∈ namingDocument.sites) ∧
    (call.Matches params 0 (namingParam 19 "x") ∧ call.Matches params 1 (namingParam 22 "y")) ∧
    call.argOfParam? (namingParamSite 1 22 "y") = some (valueSite call 1 (namedArg 37)) ∧
    call.argOfParam? (namingParamSite 0 19 "x") ≠ some (valueSite call 1 (namedArg 37)) := by
  intro call params
  have named : call.Matches params 1 (namingParam 22 "y") := .inl (by decide +kernel)
  have placed : call.Matches params 0 (namingParam 19 "x") := .inr (.inr ⟨rfl, _, rfl, rfl⟩)
  have given : call.argOfParam? (namingParamSite 1 22 "y") =
      some (valueSite call 1 (namedArg 37)) := by cbv
  refine ⟨naming_built, ⟨naming_mem_sites.1, naming_mem_sites.2.1⟩, ⟨placed, named⟩, given, ?_⟩
  have isFn : namingFnSite.node =
      .expr (.fn (Range.ofNats 0 10 0 26) params (.ref (namingIdent 25 "x"))) := rfl
  obtain ⟨-, once⟩ := (arguments_go_to_params isFn call).2 (by decide)
  exact once 1 0 _ _ rfl rfl (by decide) named placed _ given

/-- The argument for the second parameter goes to the first one, too. -/
theorem named_argument_misplaced :
    let call := namingCallSite 1 namingBare
    Document.ofParseTree "file:///x" namingTree = .ok namingDocument ∧
    (namingFnSite ∈ namingDocument.sites ∧ call ∈ namingDocument.sites) ∧
    call.argOfParam? (namingParamSite 0 19 "x") = some (valueSite call 0 (namedArg 48)) ∧
    call.argOfParam? (namingParamSite 1 22 "y") = some (valueSite call 0 (namedArg 48)) ∧
    call.dueArg? (.ofString "x") 0 = none := by
  intro call
  refine ⟨naming_built, ⟨naming_mem_sites.1, naming_mem_sites.2.2⟩, ?_, ?_, ?_⟩
  · cbv
  · cbv
  · cbv

end Site

end JsonnetNav
