import JsonnetNav.Document

/-! # Folding

Functions, objects, arrays and comprehensions that span several lines can be folded.
-/

namespace JsonnetNav

/-- The kinds of nodes that can be folded. -/
def Kind.isFoldable : Kind → Bool
  | .fn | .object | .objComp | .array | .listComp => true
  | _ => false

/-- The ranges to fold, each after the ones inside of it. -/
def Document.folds (d : Document) : List Range :=
  (Walk.events .keysFirst d.site).filterMap fun
    | .leave s => if s.kind.isFoldable && s.range.isMultiline then some s.range else none
    | _ => none

end JsonnetNav
