import JsonnetNav.Proofs.Importers
import Mathlib

/-! # All importers of a document

A recursive search would go from a document to its importers, from each of them to its own, and
pass over the ones that any part of the search has already come to. It may stop at a document
that an outer search has only begun with, and still nothing is missed: the outer search goes on
with it. The list of documents to go to is the same search written as a loop, so the importers
of a document are all documents that lead to it by one or more imports.
-/

namespace JsonnetNav

namespace LinkMap

theorem length_erase_lt {unseen : List Uri} {uri : Uri} (here : uri ∈ unseen) :
    (unseen.erase uri).length < unseen.length := by
  have some := List.length_pos_of_mem here
  rw [List.length_erase_of_mem here]
  omega

/-- The recursive search from a row of uris: what a uri leads to comes before the next one in the
    row. The answer has the uris in the order in which they are found, and those that are still
    unseen. -/
def explore (m : LinkMap) (unseen : List Uri) :
    List Uri → { search : List Uri × List Uri // search.2.length ≤ unseen.length }
  | [] => ⟨([], unseen), Nat.le_refl _⟩
  | uri :: todo =>
    if _h : uri ∈ unseen then
      let inner := m.explore (unseen.erase uri) (m.get uri)
      let outer := m.explore inner.1.2 todo
      ⟨(uri :: (inner.1.1 ++ outer.1.1), outer.1.2),
        Nat.le_trans outer.2 (Nat.le_trans inner.2 List.length_erase_le)⟩
    else m.explore unseen todo
termination_by todo => (unseen.length, todo.length)
decreasing_by
  · exact .left _ _ (length_erase_lt _h)
  · exact .left _ _ (Nat.lt_of_le_of_lt inner.2 (length_erase_lt _h))
  · exact .right _ (Nat.lt_succ_self _)

/-- The loop does the work of the recursive search on the first part of its list and then goes on
    with the rest. -/
theorem reach_append (m : LinkMap) (unseen todo rest : List Uri) :
    m.reach unseen (todo ++ rest) =
      (m.explore unseen todo).1.1 ++ m.reach (m.explore unseen todo).1.2 rest := by
  induction unseen, todo using LinkMap.explore.induct m generalizing rest with
  | case1 unseen => simp [explore]
  | case2 unseen uri todo here inner ihInner ihOuter =>
      have outer := ihOuter rest
      rw [explore, dif_pos here, List.cons_append, reach, dif_pos here, ihInner, outer]
      simp [inner]
  | case3 unseen uri todo seen ih =>
      rw [explore, dif_neg seen, List.cons_append, reach, dif_neg seen, ih]

theorem reach_eq_explore (m : LinkMap) (unseen todo : List Uri) :
    m.reach unseen todo = (m.explore unseen todo).1.1 := by
  have whole := m.reach_append unseen todo []
  simpa [reach] using whole

end LinkMap

namespace ImportGraph

open Relation

/-- The first document imports the second. -/
def ImportStep (g : ImportGraph) (importer importee : Uri) : Prop :=
  importer ∈ g.importedBy.get importee

theorem transGen_importStep {g : ImportGraph} {importer uri : Uri} :
    TransGen g.ImportStep importer uri ↔ TransGen g.importedBy.Leads uri importer :=
  transGen_swap

/-- Imports lead from one document to another exactly if they make up a chain between them. -/
theorem transGen_iff_chain {g : ImportGraph} {importer uri : Uri} :
    TransGen g.ImportStep importer uri ↔
      ∃ way, (importer :: (way ++ [uri])).IsChain g.ImportStep := by
  constructor
  · intro reaches
    induction reaches using TransGen.head_induction_on with
    | single step => exact ⟨[], List.isChain_pair.mpr step⟩
    | @head first next step _ ih =>
        obtain ⟨way, chain⟩ := ih
        exact ⟨next :: way, .cons_cons step chain⟩
  · rintro ⟨way, chain⟩
    induction way generalizing importer with
    | nil => exact .single (List.isChain_pair.mp chain)
    | cons next way ih =>
        obtain ⟨step, rest⟩ := List.isChain_cons_cons.mp chain
        exact .head step (ih rest)

/-- The importers of a document are, once each, the documents that reach it by one or more
    imports, itself among them exactly if it lies on a cycle of imports. They are what the
    recursive search finds, in whatever order they come. -/
theorem importers_transitive (g : ImportGraph) (uri : Uri) (order : ImporterOrder) :
    (∀ importer, importer ∈ g.importers uri order ↔ TransGen g.ImportStep importer uri) ∧
    (uri ∈ g.importers uri order ↔ ∃ way, (uri :: (way ++ [uri])).IsChain g.ImportStep) ∧
    (g.importers uri order).Nodup ∧
    (g.importers uri order).Perm
      (g.importedBy.explore g.importedBy.members (g.importedBy.get uri)).1.1 := by
  have closure (importer : Uri) :
      importer ∈ g.importers uri order ↔ TransGen g.ImportStep importer uri := by
    rw [mem_importers, transGen_importStep]
  refine ⟨closure, ?_, g.nodup_importers uri order, ?_⟩
  · rw [closure, transGen_iff_chain]
  · rw [← LinkMap.reach_eq_explore]
    exact order.perm _ _

end ImportGraph

end JsonnetNav
