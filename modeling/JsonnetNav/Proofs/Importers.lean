import JsonnetNav.Proofs.ImportGraph
import Mathlib.Data.List.Perm.Basic
import Mathlib.Logic.Relation

/-! # Importers through others

The links of a map lead from a uri to the members of its set. Going on from the set of a
uri through uris that are still unseen reaches every uri that one or more links lead to,
each of them once. In which order they come is left open. Where smaller uris come first, it
depends on the links alone and not on the order in which these were noted.
-/

namespace JsonnetNav

theorem nodup_eraseDups {α : Type} [BEq α] [LawfulBEq α] (xs : List α) : xs.eraseDups.Nodup := by
  match xs with
  | [] => simp
  | x :: xs =>
      rw [List.eraseDups_cons, List.nodup_cons]
      exact ⟨by simp [List.mem_eraseDups], nodup_eraseDups _⟩
termination_by xs.length
decreasing_by
  have := List.length_filter_le (fun y => !y == x) xs
  simp only [List.length_cons]
  omega

namespace LinkMap

/-- A link leads from the first uri to the second. -/
def Leads (m : LinkMap) (u v : Uri) : Prop :=
  v ∈ m.get u

/-- A link leads from the first uri to the second, which is in the list. -/
def LeadsIn (m : LinkMap) (within : List Uri) (u v : Uri) : Prop :=
  m.Leads u v ∧ v ∈ within

open Relation

/-- A way can be cut behind the last time it comes through a uri. -/
theorem leadsIn_cut {m : LinkMap} {within : List Uri} (uri : Uri) {u v : Uri}
    (way : ReflTransGen (m.LeadsIn within) u v) :
    v = uri ∨ (u ≠ uri ∧ ReflTransGen (m.LeadsIn (within.erase uri)) u v) ∨
      ∃ w ∈ m.get uri, w ∈ within.erase uri ∧
        ReflTransGen (m.LeadsIn (within.erase uri)) w v := by
  induction way with
  | refl =>
      by_cases same : u = uri
      · exact .inl same
      · exact .inr (.inl ⟨same, .refl⟩)
  | @tail b c _ step ih =>
      by_cases back : c = uri
      · exact .inl back
      have kept : c ∈ within.erase uri := (List.mem_erase_of_ne back).mpr step.2
      rcases ih with rfl | ⟨other, way⟩ | ⟨w, first, inside, way⟩
      · exact .inr (.inr ⟨c, step.1, kept, .refl⟩)
      · exact .inr (.inl ⟨other, way.tail ⟨step.1, kept⟩⟩)
      · exact .inr (.inr ⟨w, first, inside, way.tail ⟨step.1, kept⟩⟩)

theorem leadsIn_mono {m : LinkMap} {within : List Uri} {uri u v : Uri}
    (way : ReflTransGen (m.LeadsIn (within.erase uri)) u v) :
    ReflTransGen (m.LeadsIn within) u v :=
  ReflTransGen.mono (fun _ _ step => ⟨step.1, List.mem_of_mem_erase step.2⟩) u v way

/-- What is reached are the unseen uris to which a way of unseen uris leads. -/
theorem mem_reach {m : LinkMap} {unseen todo : List Uri} (distinct : unseen.Nodup) {v : Uri} :
    v ∈ m.reach unseen todo ↔
      ∃ u ∈ todo, u ∈ unseen ∧ ReflTransGen (m.LeadsIn unseen) u v := by
  induction unseen, todo using LinkMap.reach.induct m with
  | case1 unseen => simp [reach]
  | case2 unseen uri todo here ih =>
      rw [reach, dif_pos here, List.mem_cons, ih (distinct.erase uri)]
      constructor
      · rintro (rfl | ⟨u, member, inside, way⟩)
        · exact ⟨v, List.mem_cons_self .., here, .refl⟩
        · have inside' := List.mem_of_mem_erase inside
          rcases List.mem_append.mp member with next | waiting
          · exact ⟨uri, List.mem_cons_self .., here,
              .head ⟨next, inside'⟩ (leadsIn_mono way)⟩
          · exact ⟨u, List.mem_cons_of_mem _ waiting, inside', leadsIn_mono way⟩
      · rintro ⟨u, member, inside, way⟩
        -- a way that passes `uri` is taken up after its last visit there
        rcases leadsIn_cut uri way with rfl | ⟨other, way⟩ | ⟨w, next, inside, way⟩
        · exact .inl rfl
        · have waiting : u ∈ todo := (List.mem_cons.mp member).resolve_left other
          have stays := (List.mem_erase_of_ne other).mpr inside
          exact .inr ⟨u, List.mem_append_right _ waiting, stays, way⟩
        · exact .inr ⟨w, List.mem_append_left _ next, inside, way⟩
  | case3 unseen uri todo seen ih =>
      rw [reach, dif_neg seen, ih distinct]
      constructor
      · rintro ⟨u, member, inside, way⟩
        exact ⟨u, List.mem_cons_of_mem _ member, inside, way⟩
      · rintro ⟨u, member, inside, way⟩
        rcases List.mem_cons.mp member with rfl | member
        · exact absurd inside seen
        · exact ⟨u, member, inside, way⟩

theorem nodup_reach {m : LinkMap} {unseen todo : List Uri} (distinct : unseen.Nodup) :
    (m.reach unseen todo).Nodup := by
  induction unseen, todo using LinkMap.reach.induct m with
  | case1 unseen => simp [reach]
  | case2 unseen uri todo here ih =>
      rw [reach, dif_pos here, List.nodup_cons]
      refine ⟨fun again => ?_, ih (distinct.erase uri)⟩
      obtain ⟨u, -, inside, way⟩ := (mem_reach (distinct.erase uri)).mp again
      rcases ReflTransGen.cases_tail way with rfl | ⟨_, _, last⟩
      · exact distinct.not_mem_erase inside
      · exact distinct.not_mem_erase last.2
  | case3 unseen uri todo seen ih =>
      rw [reach, dif_neg seen]
      exact ih distinct

theorem mem_members {m : LinkMap} {u v : Uri} (leads : m.Leads u v) : v ∈ m.members := by
  obtain ⟨values, found⟩ := Option.isSome_iff_exists.mp (known_of_mem_get leads)
  obtain ⟨before, after, split, -⟩ := List.lookup_eq_some_iff.mp found
  have inside : v ∈ values := by simpa [Leads, get, found] using leads
  rw [members, List.mem_eraseDups, List.mem_flatMap]
  exact ⟨(u, values), by simp [split], inside⟩

theorem nodup_members (m : LinkMap) : m.members.Nodup :=
  nodup_eraseDups _

/-- All members are unseen at first, so every way counts. -/
theorem mem_reach_members {m : LinkMap} {u v : Uri} :
    v ∈ m.reach m.members (m.get u) ↔ TransGen m.Leads u v := by
  rw [mem_reach m.nodup_members]
  constructor
  · rintro ⟨w, first, -, way⟩
    exact .head' first (ReflTransGen.mono (fun _ _ step => step.1) w v way)
  · intro way
    obtain ⟨w, first, rest⟩ := TransGen.head'_iff.mp way
    exact ⟨w, first, mem_members first,
      ReflTransGen.mono (fun _ _ step => ⟨step, mem_members step⟩) w v rest⟩

/-- Links never lead out of a part that is closed under them, so another map with the same links
    from there leads the same way. -/
theorem leads_within {m m' : LinkMap} {part : Uri → Prop}
    (same : ∀ u, part u → ∀ v, v ∈ m.get u ↔ v ∈ m'.get u)
    (closed : ∀ u, part u → ∀ v ∈ m.get u, part v) {u v : Uri} (inside : part u)
    (way : TransGen m.Leads u v) : part v ∧ TransGen m'.Leads u v := by
  induction way with
  | single first => exact ⟨closed u inside _ first, .single ((same u inside _).mp first)⟩
  | tail _ last ih => exact ⟨closed _ ih.1 _ last, ih.2.tail ((same _ ih.1 _).mp last)⟩

end LinkMap

namespace ImportGraph

open Relation

theorem mem_importers {g : ImportGraph} {uri importer : Uri} {order : ImporterOrder} :
    importer ∈ g.importers uri order ↔ TransGen g.importedBy.Leads uri importer := by
  rw [importers, (order.perm uri _).mem_iff, LinkMap.mem_reach_members]

theorem nodup_importers (g : ImportGraph) (uri : Uri) (order : ImporterOrder) :
    (g.importers uri order).Nodup :=
  (order.perm uri _).nodup_iff.mpr (LinkMap.nodup_reach g.importedBy.nodup_members)

theorem sorted_importers (g : ImportGraph) (uri : Uri) :
    (g.importers uri).Pairwise (· ≤ ·) := by
  have le_iff (a b : Uri) : (!(b < a) : Bool) = true ↔ a ≤ b := by
    rw [Bool.not_eq_true', decide_eq_false_iff_not]
    exact String.not_lt
  have sorted : (g.importers uri).Pairwise fun a b => !(b < a) := by
    apply List.pairwise_mergeSort
    · intro a b c first second
      rw [le_iff] at first second ⊢
      exact String.le_trans first second
    · intro a b
      rw [Bool.or_eq_true, le_iff, le_iff]
      exact String.le_total a b
  exact sorted.imp fun {a b} le => (le_iff a b).mp le

/-- The same importers come in the same order if smaller uris come first. -/
theorem importers_eq_of_perm {g g' : ImportGraph} {uri : Uri}
    (perm : (g.importers uri).Perm (g'.importers uri)) : g.importers uri = g'.importers uri :=
  perm.eq_of_pairwise (fun _ _ _ _ => String.le_antisymm) (g.sorted_importers uri)
    (g'.sorted_importers uri)

/-- The importers of a document depend only on the links in a closed part around it, up to their
    order. -/
theorem importers_within {g g' : ImportGraph} {part : Uri → Prop}
    (same : ∀ u, part u → ∀ v, v ∈ g.importedBy.get u ↔ v ∈ g'.importedBy.get u)
    (closed : ∀ u, part u → ∀ v ∈ g.importedBy.get u, part v) {uri : Uri} (inside : part uri)
    (order order' : ImporterOrder) :
    (g.importers uri order).Perm (g'.importers uri order') ∧
      ∀ v ∈ g.importers uri order, part v := by
  have closed' : ∀ u, part u → ∀ v ∈ g'.importedBy.get u, part v :=
    fun u isIn v leads => closed u isIn v ((same u isIn v).mpr leads)
  have back : ∀ u, part u → ∀ v, v ∈ g'.importedBy.get u ↔ v ∈ g.importedBy.get u :=
    fun u isIn v => (same u isIn v).symm
  constructor
  · refine (List.perm_ext_iff_of_nodup (g.nodup_importers uri order)
      (g'.nodup_importers uri order')).mpr ?_
    intro importer
    rw [mem_importers, mem_importers]
    exact ⟨fun way => (LinkMap.leads_within same closed inside way).2,
      fun way => (LinkMap.leads_within back closed' inside way).2⟩
  · intro v member
    exact (LinkMap.leads_within same closed inside (mem_importers.mp member)).1

/-- The importers of a document depend only on which links there are. -/
theorem importers_congr {g g' : ImportGraph}
    (same : ∀ u v, v ∈ g.importedBy.get u ↔ v ∈ g'.importedBy.get u) (uri : Uri) :
    g.importers uri = g'.importers uri :=
  importers_eq_of_perm (@importers_within g g' (fun _ => True) (fun u _ => same u)
    (fun _ _ _ _ => trivial) uri trivial _ _).1

end ImportGraph

end JsonnetNav
