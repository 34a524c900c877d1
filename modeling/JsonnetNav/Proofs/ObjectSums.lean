import JsonnetNav.Proofs.DefinitionEnds
import Mathlib

/-! # Fields of sums of objects

In a sum the fields of the right operand hide those of the left one. Putting one scope on top
of another keeps all layers of the parent, but only the innermost layer of the child. So a
sum without brackets is looked up from right to left, whatever the number of its operands,
while in `a + (b + c)` the fields of `b` are lost.
-/

namespace JsonnetNav

/-- The field of a single object under a name. -/
def Layer.get? (l : Layer) (name : Text) : Option FieldBinding :=
  l.bindings.find? (·.name = name)

namespace FieldScope

theorem get?_eq_findSome (s : FieldScope) (name : Text) :
    s.get? name = (s.layer :: s.outer).findSome? (·.get? name) :=
  rfl

theorem get?_eq (s : FieldScope) (name : Text) :
    s.get? name = (s.layer.get? name).or (s.outer.findSome? (·.get? name)) := by
  rw [get?_eq_findSome, List.findSome?_cons]
  cases s.layer.get? name <;> rfl

/-- The innermost layer of the parent keeps its fields under the child. -/
theorem get?_extend (p c : FieldScope) (name : Text) :
    (p.extend c).get? name = (c.layer.get? name).or (p.get? name) := by
  have below : (p.extend c).outer.findSome? (·.get? name) = p.get? name := by
    rw [get?_eq_findSome, extend, List.findSome?_cons, List.findSome?_cons]
    rfl
  rw [get?_eq, below]
  rfl

/-- The child is looked up before the parent exactly for the names that its innermost layer
    answers as the whole child does, or that stand for the same field in both. -/
theorem get?_extend_eq_iff (p c : FieldScope) (name : Text) :
    (p.extend c).get? name = (c.get? name).or (p.get? name) ↔
      c.layer.get? name = c.get? name ∨ p.get? name = c.get? name := by
  rw [get?_extend, get?_eq c]
  cases c.layer.get? name with
  | some b => simp
  | none =>
      cases c.outer.findSome? (·.get? name) with
      | none => simp
      | some b => simp

/-- The fields are those of a single object. -/
def OfObject (s : FieldScope) : Prop :=
  ∃ object, ofObject? object = some s

theorem OfObject.get?_eq_layer {s : FieldScope} (ofObject : s.OfObject) (name : Text) :
    s.get? name = s.layer.get? name := by
  obtain ⟨object, found⟩ := ofObject
  unfold ofObject? at found
  split at found
  · cases found
    rw [get?_eq, List.findSome?_nil, Option.or_none]
  · cases found

end FieldScope

/-- The scopes of the operands of a sum, bracketed as the sum is. -/
inductive ScopeSum where
  | operand (scope : FieldScope)
  | plus (lhs rhs : ScopeSum)

namespace ScopeSum

/-- The operands put on top of each other. -/
def scope : ScopeSum → FieldScope
  | operand scope => scope
  | plus lhs rhs => lhs.scope.extend rhs.scope

/-- The field under a name, from the last operand to the first. -/
def rightFirst? (name : Text) : ScopeSum → Option FieldBinding
  | operand scope => scope.get? name
  | plus lhs rhs => (rhs.rightFirst? name).or (lhs.rightFirst? name)

/-- Every operand but the first is an object, and there are no brackets on the right. -/
def Unbracketed : ScopeSum → Prop
  | operand _ => True
  | plus lhs (operand scope) => lhs.Unbracketed ∧ scope.OfObject
  | plus _ (plus _ _) => False

theorem get?_scope {sum : ScopeSum} (unbracketed : sum.Unbracketed) (name : Text) :
    sum.scope.get? name = sum.rightFirst? name := by
  induction sum with
  | operand scope => rfl
  | plus lhs rhs ihl ihr =>
      cases rhs with
      | plus _ _ => exact unbracketed.elim
      | operand child =>
          obtain ⟨before, object⟩ := unbracketed
          rw [scope, FieldScope.get?_extend, rightFirst?, ihl before, ← ihr trivial, scope,
            object.get?_eq_layer]

/-- Where the two ways to bracket a sum of three operands make no difference. -/
theorem get?_assoc_iff (a b c : FieldScope) (name : Text) :
    ((a.extend b).extend c).get? name = (a.extend (b.extend c)).get? name ↔
      (c.layer.get? name).isSome ∨ b.layer.get? name = none ∨
        b.layer.get? name = a.get? name := by
  have innermost : (b.extend c).layer = c.layer := rfl
  simp only [FieldScope.get?_extend, innermost]
  cases c.layer.get? name with
  | some field => simp
  | none =>
      cases b.layer.get? name with
      | some field => simp [eq_comm]
      | none => simp

end ScopeSum

namespace Search

variable {α β : Type}

theorem toList_each (xs : List α) (t : CallerTable) : (each xs).toList t = .ok (xs, t) := by
  have collected : (each xs).fold (fun found x => pure (found.push x)) #[] =
      (pure xs.toArray : Run _) := by
    have pushed := foldlM_push xs #[]
    rw [Array.empty_append] at pushed
    exact pushed
  rw [toList, collected]
  rfl

theorem toList_gather {search : Search α} {xs : List α} {t t' : CallerTable}
    (found : search.toList t = .ok (xs, t')) (next : List α → Search β) :
    (ofRun search.toList >>= next).toList t = (next xs).toList t' := by
  have inTurn : (ofRun search.toList >>= next).toList =
      search.toList >>= fun xs => (next xs).toList :=
    bind_assoc search.toList _ _
  have first : (search.toList >>= fun xs => (next xs).toList) t =
      search.toList t >>= fun out => (next out.1).toList out.2 :=
    rfl
  rw [inTurn, first, found]
  rfl

end Search

namespace Workspace

variable {w : Workspace}

/-- With some calls known already, exactly one object is found. -/
def FindsOne (w : Workspace) (depth : Nat) (s : Site) (scope : FieldScope)
    (t t' : CallerTable) : Prop :=
  (w.fieldScopes depth s).toList t = .ok ([scope], t')

/-- The expression is a sum, and exactly one object is found for each of its operands, one
    after the other. -/
inductive Adds (w : Workspace) : Nat → Site → ScopeSum → CallerTable → CallerTable → Prop where
  | operand {depth : Nat} {s : Site} {scope : FieldScope} {t t' : CallerTable}
      (finds : w.FindsOne depth s scope t t') : Adds w depth s (.operand scope) t t'
  | plus {depth : Nat} {s : Site} {range : Range} {lhs rhs : Expr} {l r : ScopeSum}
      {t t₁ t₂ : CallerTable} (isSum : s.node = .expr (.binary range .plus lhs rhs))
      (left : Adds w depth (s.part .lhs (.expr lhs)) l t t₁)
      (right : Adds w depth (s.part .rhs (.expr rhs)) r t₁ t₂) :
      Adds w (depth + 1) s (.plus l r) t t₂

/-- Whatever is found is found in a file. -/
theorem FindsOne.demandFile {depth : Nat} {s : Site} {scope : FieldScope} {t t' : CallerTable}
    (finds : w.FindsOne depth s scope t t') : s.demandFile = .ok () := by
  unfold FindsOne fieldScopes at finds
  cases depth with
  | zero => cases finds
  | succ depth =>
      cases file : s.demandFile with
      | ok done => rfl
      | error e =>
          rw [search, Question.site, file] at finds
          cases finds

theorem FindsOne.plus {depth : Nat} {s : Site} {range : Range} {lhs rhs : Expr}
    {parent child : FieldScope} {t t₁ t₂ : CallerTable}
    (isSum : s.node = .expr (.binary range .plus lhs rhs))
    (left : w.FindsOne depth (s.part .lhs (.expr lhs)) parent t t₁)
    (right : w.FindsOne depth (s.part .rhs (.expr rhs)) child t₁ t₂) :
    w.FindsOne (depth + 1) s (parent.extend child) t t₂ := by
  have file : s.demandFile = .ok () := left.demandFile
  have plan : w.plan (.scopes s) = .gather (.scopes (s.part .lhs (.expr lhs))) fun parents =>
      .gather (.scopes (s.part .rhs (.expr rhs))) fun children =>
        .found (extended parents children) := by
    rw [Workspace.plan, scopePlan, isSum]
  have searched : w.fieldScopes (depth + 1) s = (w.plan (.scopes s)).run (w.search depth) := by
    rw [fieldScopes, search, Question.site, file]
    rfl
  have parents : (w.search depth (.scopes (s.part .lhs (.expr lhs)))).toList t =
      .ok ([parent], t₁) := left
  have children : (w.search depth (.scopes (s.part .rhs (.expr rhs)))).toList t₁ =
      .ok ([child], t₂) := right
  rw [FindsOne, searched, plan, Plan.run, Search.toList_gather parents, Plan.run,
    Search.toList_gather children]
  exact Search.toList_each [parent.extend child] t₂

/-- A sum has the one scope that its operands give in their brackets. -/
theorem Adds.findsOne {depth : Nat} {s : Site} {sum : ScopeSum} {t t' : CallerTable}
    (adds : w.Adds depth s sum t t') : w.FindsOne depth s sum.scope t t' := by
  induction adds with
  | operand finds => exact finds
  | plus isSum _ _ ihl ihr => exact ihl.plus isSum ihr

/-- A parent is looked up after the innermost layer of its child, and the other layers of the
    child are not looked up at all. So in a sum without brackets on the right the last operand
    comes first, and a sum of three operands can be bracketed in both ways exactly for
    the names that the last operand has, that the middle one does not have, or that stand for
    the same field in the first and in the middle one. -/
theorem fields_of_sums (w : Workspace) :
    (∀ (p c : FieldScope) (name : Text),
      (p.extend c).get? name = (c.layer.get? name).or (p.get? name) ∧
      ((p.extend c).get? name = (c.get? name).or (p.get? name) ↔
        c.layer.get? name = c.get? name ∨ p.get? name = c.get? name)) ∧
    (∀ {depth : Nat} {s : Site} {sum : ScopeSum} {t t' : CallerTable},
      w.Adds depth s sum t t' →
        w.FindsOne depth s sum.scope t t' ∧
        (sum.Unbracketed → ∀ name, sum.scope.get? name = sum.rightFirst? name)) ∧
    (∀ {depth depth' : Nat} {left right : Site} {a b c : FieldScope} {t t' u u' : CallerTable},
      w.Adds depth left (.plus (.plus (.operand a) (.operand b)) (.operand c)) t t' →
      w.Adds depth' right (.plus (.operand a) (.plus (.operand b) (.operand c))) u u' →
        ∃ l r, w.FindsOne depth left l t t' ∧ w.FindsOne depth' right r u u' ∧
          ∀ name, l.get? name = r.get? name ↔
            (c.layer.get? name).isSome ∨ b.layer.get? name = none ∨
              b.layer.get? name = a.get? name) := by
  refine ⟨?_, ?_, ?_⟩
  · intro p c name
    exact ⟨p.get?_extend c name, p.get?_extend_eq_iff c name⟩
  · intro depth s sum t t' adds
    exact ⟨adds.findsOne, fun unbracketed name => ScopeSum.get?_scope unbracketed name⟩
  · intro depth depth' left right a b c t t' u u' inLeft inRight
    exact ⟨_, _, inLeft.findsOne, inRight.findsOne, ScopeSum.get?_assoc_iff a b c⟩

def summandIdent (column : Nat) (name : String) : Ident :=
  ⟨Range.ofNats 0 column 0 (column + 1), .ofString name⟩

/-- An object such as `{x: null}`. -/
def summand (column : Nat) (name : String) : Expr :=
  .object (Range.ofNats 0 column 0 (column + 9)) [] []
    [⟨Range.ofNats 0 (column + 1) 0 (column + 8),
      .fixed (Range.ofNats 0 (column + 1) 0 (column + 2)) (summandIdent (column + 1) name),
      .null (Range.ofNats 0 (column + 4) 0 (column + 8)), .default, false⟩]

def summandBind (column : Nat) (name field : String) : LocalBind :=
  ⟨Range.ofNats 0 column 0 (column + 13), summandIdent column name, summand (column + 4) field⟩

def summandBinds : List LocalBind :=
  [summandBind 6 "a" "x", summandBind 21 "b" "y", summandBind 36 "c" "z"]

def summandRef (column : Nat) (name : String) : Expr :=
  .ref (summandIdent column name)

def sumInLeft : Expr :=
  .binary (Range.ofNats 0 53 0 58) .plus (summandRef 53 "a") (summandRef 57 "b")

def sumInRight : Expr :=
  .binary (Range.ofNats 0 70 0 75) .plus (summandRef 70 "b") (summandRef 74 "c")

def sumRow : List Expr :=
  [.binary (Range.ofNats 0 52 0 63) .plus sumInLeft (summandRef 62 "c"),
    .binary (Range.ofNats 0 65 0 76) .plus (summandRef 65 "a") sumInRight]

def sumLocal : Expr :=
  .localIn (Range.ofNats 0 0 0 77) summandBinds (.array (Range.ofNats 0 51 0 77) sumRow)

/-- The document of
    `local a = {x: null}, b = {y: null}, c = {z: null}; [(a + b) + c, a + (b + c)]`. -/
def sumDocument : Document :=
  { uri := "file:///x", root := .expr (.document (Range.ofNats 0 0 0 77) sumLocal) }

def sumWorkspace : Workspace :=
  alone sumDocument.resolve

def sumSite : Site :=
  sumDocument.site.part .body (.expr sumLocal)

/-- The sum at an index of the array. -/
def sumAt (index : Nat) (sum : Expr) : Site :=
  (sumSite.part .body (.expr (.array (Range.ofNats 0 51 0 77) sumRow))).down ⟨.values, index⟩
    (.expr sum)

def leftSum : Site :=
  sumAt 0 (.binary (Range.ofNats 0 52 0 63) .plus sumInLeft (summandRef 62 "c"))

def rightSum : Site :=
  sumAt 1 (.binary (Range.ofNats 0 65 0 76) .plus (summandRef 65 "a") sumInRight)

/-- The fields of the value of a variable. -/
def summandScope (index column : Nat) (name field : String) : FieldScope :=
  let bind := sumSite.down ⟨.binds, index⟩ (.bind (summandBind column name field))
  let object := bind.part .value (.expr (summand (column + 4) field))
  (FieldScope.ofObject? object).getD ⟨⟨object, [], 0⟩, []⟩

def firstScope : FieldScope :=
  summandScope 0 6 "a" "x"

def middleScope : FieldScope :=
  summandScope 1 21 "b" "y"

def lastScope : FieldScope :=
  summandScope 2 36 "c" "z"

def leftScopes : ScopeSum :=
  .plus (.plus (.operand firstScope) (.operand middleScope)) (.operand lastScope)

def rightScopes : ScopeSum :=
  .plus (.operand firstScope) (.plus (.operand middleScope) (.operand lastScope))

theorem leftSum_adds : sumWorkspace.Adds 4 leftSum leftScopes [] [] := by
  let inner := leftSum.part .lhs (.expr sumInLeft)
  have first : sumWorkspace.FindsOne 2 (inner.part .lhs (.expr (summandRef 53 "a")))
      firstScope [] [] := by cbv
  have middle : sumWorkspace.FindsOne 2 (inner.part .rhs (.expr (summandRef 57 "b")))
      middleScope [] [] := by cbv
  have last : sumWorkspace.FindsOne 3 (leftSum.part .rhs (.expr (summandRef 62 "c")))
      lastScope [] [] := by cbv
  exact .plus rfl (.plus rfl (.operand first) (.operand middle)) (.operand last)

theorem rightSum_adds : sumWorkspace.Adds 4 rightSum rightScopes [] [] := by
  let inner := rightSum.part .rhs (.expr sumInRight)
  have first : sumWorkspace.FindsOne 3 (rightSum.part .lhs (.expr (summandRef 65 "a")))
      firstScope [] [] := by cbv
  have middle : sumWorkspace.FindsOne 2 (inner.part .lhs (.expr (summandRef 70 "b")))
      middleScope [] [] := by cbv
  have last : sumWorkspace.FindsOne 2 (inner.part .rhs (.expr (summandRef 74 "c")))
      lastScope [] [] := by cbv
  exact .plus rfl (.operand first) (.plus rfl (.operand middle) (.operand last))

/-- The sum without brackets on the right is looked up from right to left, and brackets make a
    difference for the field of the operand in the middle only. -/
theorem bracketed_sums_differ :
    (leftScopes.Unbracketed ∧ sumWorkspace.FindsOne 4 leftSum leftScopes.scope [] [] ∧
      ∀ name, leftScopes.scope.get? name = leftScopes.rightFirst? name) ∧
    ∃ l r, sumWorkspace.FindsOne 4 leftSum l [] [] ∧ sumWorkspace.FindsOne 4 rightSum r [] [] ∧
      l.get? (.ofString "x") = r.get? (.ofString "x") ∧
      l.get? (.ofString "y") ≠ r.get? (.ofString "y") ∧
      l.get? (.ofString "z") = r.get? (.ofString "z") := by
  obtain ⟨-, inOrder, brackets⟩ := fields_of_sums sumWorkspace
  have unbracketed : leftScopes.Unbracketed :=
    ⟨⟨trivial, middleScope.layer.owner, rfl⟩, lastScope.layer.owner, rfl⟩
  obtain ⟨finds, looksUp⟩ := inOrder leftSum_adds
  refine ⟨⟨unbracketed, finds, looksUp unbracketed⟩, ?_⟩
  obtain ⟨l, r, inLeft, inRight, same⟩ := brackets leftSum_adds rightSum_adds
  refine ⟨l, r, inLeft, inRight, (same _).mpr ?_, (same _).not.mpr ?_, (same _).mpr ?_⟩
  · exact .inr (.inl rfl)
  · have first : firstScope.get? (.ofString "y") = none := rfl
    have middle : (middleScope.layer.get? (.ofString "y")).isSome := rfl
    have last : (lastScope.layer.get? (.ofString "y")).isSome = false := rfl
    rw [first, last]
    cases found : middleScope.layer.get? (.ofString "y") with
    | none =>
        rw [found] at middle
        cases middle
    | some field => simp
  · exact .inl rfl

/-- The field of `b` is found in `(a + b) + c`, and not in `a + (b + c)`. -/
theorem bracketed_field_lost :
    (sumWorkspace.fieldScopes depthLimit leftSum).results.map
      (·.map fun scope => (scope.get? (.ofString "y")).map (·.id.location)) =
        .ok [some ⟨"file:///x", Range.ofNats 0 26 0 27⟩] ∧
    (sumWorkspace.fieldScopes depthLimit rightSum).results.map
      (·.map fun scope => (scope.get? (.ofString "y")).map (·.id.location)) = .ok [none] := by
  constructor
  · cbv
  · cbv

end Workspace

end JsonnetNav
