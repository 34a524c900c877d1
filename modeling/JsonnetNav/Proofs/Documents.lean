import JsonnetNav.Document

/-! # Documents from parse trees

What can be said of every document that a parse tree stands for: it has the uri it was
asked for, its root is a document node, and its names are not resolved yet.
-/

namespace JsonnetNav

/-- If two steps in turn succeed, then each of them does. -/
theorem Except.bind_eq_ok {ε α β : Type} {x : Except ε α} {f : α → Except ε β} {b : β} :
    (x >>= f) = .ok b ↔ ∃ a, x = .ok a ∧ f a = .ok b := by
  cases x with
  | error e =>
      constructor
      · intro failed
        cases failed
      · rintro ⟨_, failed, -⟩
        cases failed
  | ok a =>
      constructor
      · exact fun done => ⟨a, rfl, done⟩
      · rintro ⟨_, first, rest⟩
        cases first
        exact rest

theorem Except.mapError_eq_ok {ε ε' α : Type} {x : Except ε α} {f : ε → ε'} {a : α} :
    x.mapError f = .ok a ↔ x = .ok a := by
  cases x with
  | error e =>
      constructor
      · intro failed
        cases failed
      · intro failed
        cases failed
  | ok b =>
      constructor
      · intro done
        cases done
        rfl
      · intro done
        cases done
        rfl

theorem mapM_congr_mem {α β ε : Type} {f g : α → Except ε β} {xs : List α}
    (same : ∀ x ∈ xs, f x = g x) : xs.mapM f = xs.mapM g := by
  induction xs with
  | nil => rfl
  | cons x xs ih =>
      rw [List.mapM_cons, List.mapM_cons, same x (.head xs)]
      rw [ih fun y member => same y (.tail x member)]

namespace Document

theorem asKind_document {c : Cursor} {n : Node} (done : Build.asKind .document c = .ok n) :
    ∃ range body, n = .expr (.document range body) := by
  rw [Build.asKind] at done
  obtain ⟨_, -, done⟩ := Except.bind_eq_ok.mp done
  split at done
  · cases done
    exact ⟨_, _, rfl⟩
  · cases done

/-- A document as it comes from a parse tree. -/
structure Built (d : Document) (uri : Uri) : Prop where
  uri : d.uri = uri
  root : ∃ range body, d.root = .expr (.document range body)
  unresolved : d.resolution = none

theorem built {uri : Uri} {tree : ParseTree} {d : Document}
    (done : ofParseTree uri tree = .ok d) : d.Built uri := by
  obtain ⟨n, root, done⟩ := Except.bind_eq_ok.mp done
  cases done
  exact ⟨rfl, asKind_document root, rfl⟩

end Document

end JsonnetNav
