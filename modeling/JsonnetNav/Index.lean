/-! # Indices

A place in a list, counted from zero, or from the end if the number is negative: minus
one is the last place.
-/

namespace JsonnetNav

/-- A place in a list, counted from either end. -/
abbrev Index := Int

namespace Index

/-- The member of a list at an index. -/
def member? {α : Type} (i : Index) (xs : List α) : Option α :=
  match i with
  | .ofNat n => xs[n]?
  | .negSucc n => xs.reverse[n]?

theorem mem_of_member {α : Type} {i : Index} {xs : List α} {x : α}
    (found : i.member? xs = some x) : x ∈ xs := by
  cases i with
  | ofNat n => exact List.mem_of_getElem? found
  | negSucc n => exact List.mem_reverse.mp (List.mem_of_getElem? found)

/-- How many members of a list come before an index. -/
def countBefore {α : Type} (i : Index) (xs : List α) : Nat :=
  match i with
  | .ofNat n => min n xs.length
  | .negSucc n => xs.length - (n + 1)

end Index

end JsonnetNav
