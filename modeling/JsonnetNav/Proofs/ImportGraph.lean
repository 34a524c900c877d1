import JsonnetNav.Store.ImportGraph
import Mathlib.Data.List.Basic
import Mathlib.Data.List.Nodup

/-! # Links in both directions

A map of links is read through the set of each uri. Every operation on maps has one
equation about these sets, and keeps the maps well formed: one entry for a uri, no empty
sets, no member twice. A graph is consistent if its two maps are converse to each other.
Then unlinking a document finds every link it looks for, and takes away exactly the links
that the document has a part in.
-/

namespace JsonnetNav

namespace UriTable

variable {β : Type} (entries : List (Uri × β)) (key k : Uri)

theorem lookup_map_entry (f : β → β) :
    (entries.map fun (k', b) => if k' = key then (k', f b) else (k', b)).lookup k =
      if k = key then (entries.lookup k).map f else entries.lookup k := by
  induction entries with
  | nil => simp
  | cons entry entries ih =>
      obtain ⟨k', b⟩ := entry
      simp only [List.map_cons]
      by_cases same : k = k'
      · subst same
        split <;> simp_all
      · have other : (k == k') = false := by simp [same]
        split <;> simp only [List.lookup_cons, other, ih]

theorem lookup_filter_entry :
    (entries.filter (·.1 ≠ key)).lookup k = if k = key then none else entries.lookup k := by
  induction entries with
  | nil => simp
  | cons entry entries ih =>
      obtain ⟨k', b⟩ := entry
      simp only [List.filter_cons]
      by_cases same : k = k'
      · subst same
        by_cases gone : k = key
        · simpa [gone] using ih
        · simp [gone]
      · have other : (k == k') = false := by simp [same]
        split <;> simp only [List.lookup_cons, other, ih]

theorem known_of_mem {entries : List (Uri × β)} {entry : Uri × β} (member : entry ∈ entries) :
    (entries.lookup entry.1).isSome := by
  by_contra unknown
  have absent := List.lookup_eq_none_iff.mp (Option.not_isSome_iff_eq_none.mp unknown) entry member
  simp at absent

theorem fst_map_entry (f : β → β) :
    (entries.map fun (k', b) => if k' = key then (k', f b) else (k', b)).map Prod.fst =
      entries.map Prod.fst := by
  rw [List.map_map]
  apply List.map_congr_left
  intro entry _
  simp only [Function.comp_apply]
  split <;> rfl

end UriTable

namespace LinkMap

/-- One entry for each uri, with a set that has members and has each of them once. -/
structure WellFormed (m : LinkMap) : Prop where
  keys : (m.map Prod.fst).Nodup
  inhabited : ∀ entry ∈ m, entry.2 ≠ []
  nodup : ∀ entry ∈ m, entry.2.Nodup

theorem lookup_modify (m : LinkMap) (key : Uri) (f : List Uri → List Uri) (k : Uri) :
    (m.modify key f).lookup k = if k = key then (m.lookup k).map f else m.lookup k :=
  UriTable.lookup_map_entry m key k f

theorem lookup_erase (m : LinkMap) (key k : Uri) :
    (m.erase key).lookup k = if k = key then none else m.lookup k :=
  UriTable.lookup_filter_entry m key k

theorem get_modify (m : LinkMap) (key : Uri) (f : List Uri → List Uri) (k : Uri)
    (known : (m.lookup key).isSome) :
    (m.modify key f).get k = if k = key then f (m.get k) else m.get k := by
  obtain ⟨values, found⟩ := Option.isSome_iff_exists.mp known
  simp only [get, lookup_modify]
  split
  · subst k
    simp [found]
  · rfl

theorem get_erase (m : LinkMap) (key k : Uri) :
    (m.erase key).get k = if k = key then [] else m.get k := by
  simp only [get, lookup_erase]
  split <;> rfl

theorem get_of_unknown {m : LinkMap} {key : Uri} (unknown : m.lookup key = none) :
    m.get key = [] := by
  simp [get, unknown]

theorem mem_get_insert (m : LinkMap) (key value k v : Uri) :
    v ∈ (m.insert key value).get k ↔ v ∈ m.get k ∨ (k = key ∧ v = value) := by
  unfold insert
  split
  · rename_i known
    rw [get_modify m key _ k known]
    by_cases same : k = key
    · subst same
      simp only [if_true, true_and]
      by_cases member : value ∈ m.get k
      · simp only [member, if_true, iff_self_or]
        rintro rfl
        exact member
      · simp [member]
    · simp [same]
  · rename_i unknown
    have absent : m.lookup key = none := Option.not_isSome_iff_eq_none.mp unknown
    simp only [get, List.lookup_append, List.lookup_cons, List.lookup_nil]
    by_cases same : k = key
    · subst same
      simp [absent]
    · have other : (k == key) = false := by simp [same]
      simp [other, same]

/-! ## Well-formedness -/

theorem WellFormed.nil : WellFormed [] := by
  constructor <;> simp

theorem WellFormed.modify {m : LinkMap} (wf : m.WellFormed) {key : Uri} {f : List Uri → List Uri}
    (inhabited : ∀ values, (key, values) ∈ m → f values ≠ [])
    (nodup : ∀ values, (key, values) ∈ m → (f values).Nodup) : (m.modify key f).WellFormed := by
  have cases_entry : ∀ entry ∈ m.modify key f,
      entry ∈ m ∨ ∃ values, (key, values) ∈ m ∧ entry = (key, f values) := by
    intro entry member
    obtain ⟨⟨k, values⟩, old, rfl⟩ := List.mem_map.mp member
    by_cases same : k = key
    · subst same
      exact .inr ⟨values, old, by simp⟩
    · exact .inl (by simpa [same] using old)
  refine ⟨?_, ?_, ?_⟩
  · exact (UriTable.fst_map_entry m key f).symm ▸ wf.keys
  · intro entry member
    rcases cases_entry entry member with old | ⟨values, old, rfl⟩
    · exact wf.inhabited entry old
    · exact inhabited values old
  · intro entry member
    rcases cases_entry entry member with old | ⟨values, old, rfl⟩
    · exact wf.nodup entry old
    · exact nodup values old

theorem WellFormed.erase {m : LinkMap} (wf : m.WellFormed) (key : Uri) :
    (m.erase key).WellFormed := by
  refine ⟨?_, ?_, ?_⟩
  · exact wf.keys.sublist (List.filter_sublist.map Prod.fst)
  · exact fun entry member => wf.inhabited entry (List.mem_filter.mp member).1
  · exact fun entry member => wf.nodup entry (List.mem_filter.mp member).1

theorem WellFormed.insert {m : LinkMap} (wf : m.WellFormed) (key value : Uri) :
    (m.insert key value).WellFormed := by
  unfold LinkMap.insert
  split
  · refine wf.modify (fun values old => ?_) (fun values old => ?_)
    · split
      · exact wf.inhabited _ old
      · simp
    · split
      · exact wf.nodup _ old
      · rename_i fresh
        exact List.nodup_append.mpr ⟨wf.nodup _ old, List.nodup_singleton _, by
          rintro a member b rest rfl
          exact fresh (List.mem_singleton.mp rest ▸ member)⟩
  · rename_i unknown
    have absent := List.lookup_eq_none_iff.mp (Option.not_isSome_iff_eq_none.mp unknown)
    refine ⟨?_, ?_, ?_⟩
    · rw [List.map_append, List.nodup_append]
      refine ⟨wf.keys, List.nodup_singleton _, ?_⟩
      rintro a member b rest rfl
      obtain ⟨entry, old, rfl⟩ := List.mem_map.mp member
      simpa [List.mem_singleton.mp rest] using absent entry old
    · intro entry member
      rcases List.mem_append.mp member with old | new
      · exact wf.inhabited entry old
      · simp [List.mem_singleton.mp new]
    · intro entry member
      rcases List.mem_append.mp member with old | new
      · exact wf.nodup entry old
      · simp [List.mem_singleton.mp new]

theorem WellFormed.nodup_get {m : LinkMap} (wf : m.WellFormed) (key : Uri) :
    (m.get key).Nodup := by
  unfold get
  cases found : m.lookup key with
  | none => simp
  | some values =>
      obtain ⟨before, after, split, -⟩ := List.lookup_eq_some_iff.mp found
      exact wf.nodup (key, values) (by simp [split])

theorem WellFormed.inhabited_get {m : LinkMap} (wf : m.WellFormed) {key : Uri}
    (known : (m.lookup key).isSome) : m.get key ≠ [] := by
  obtain ⟨values, found⟩ := Option.isSome_iff_exists.mp known
  obtain ⟨before, after, split, -⟩ := List.lookup_eq_some_iff.mp found
  simpa [get, found] using wf.inhabited (key, values) (by simp [split])

theorem known_of_mem_get {m : LinkMap} {key value : Uri} (member : value ∈ m.get key) :
    (m.lookup key).isSome := by
  by_contra unknown
  rw [get_of_unknown (Option.not_isSome_iff_eq_none.mp unknown)] at member
  exact List.not_mem_nil member

/-! ## Taking members away -/

/-- A member of a set can be taken out, and the other sets stay as they are. -/
theorem discard?_of_mem {m : LinkMap} (wf : m.WellFormed) {key value : Uri}
    (member : value ∈ m.get key) :
    ∃ m', m.discard? key value = some m' ∧ m'.WellFormed ∧
      ∀ k, m'.get k = if k = key then (m.get k).filter (· ≠ value) else m.get k := by
  have known := known_of_mem_get member
  unfold discard?
  cases rest : (m.get key).filter (· ≠ value) with
  | nil =>
      refine ⟨m.erase key, by simp [known], wf.erase key, fun k => ?_⟩
      rw [get_erase]
      split
      · subst k
        exact rest.symm
      · rfl
  | cons first others =>
      refine ⟨_, rfl, wf.modify (fun _ _ => List.cons_ne_nil _ _) (fun _ _ => ?_), fun k => ?_⟩
      · rw [← rest]
        exact (wf.nodup_get key).filter _
      · rw [get_modify m key _ k known]
        split
        · subst k
          exact rest.symm
        · rfl

/-- A uri that is a member of all the given sets is taken out of all of them. -/
theorem discardFrom_of_mem {value : Uri} {keys : List Uri} :
    ∀ {m : LinkMap}, m.WellFormed → keys.Nodup → (∀ key ∈ keys, value ∈ m.get key) →
    ∃ m', m.discardFrom value keys = (m', true) ∧ m'.WellFormed ∧
      ∀ k, m'.get k = if k ∈ keys then (m.get k).filter (· ≠ value) else m.get k := by
  induction keys with
  | nil =>
      intro m wf _ _
      exact ⟨m, rfl, wf, by simp⟩
  | cons key keys ih =>
      intro m wf distinct members
      obtain ⟨fresh, distinct⟩ := List.nodup_cons.mp distinct
      obtain ⟨m₁, done, wf₁, get₁⟩ := discard?_of_mem wf (members key (List.mem_cons_self ..))
      have others : ∀ k ∈ keys, m₁.get k = m.get k := by
        intro k member
        rw [get₁, if_neg]
        rintro rfl
        exact fresh member
      have members₁ : ∀ k ∈ keys, value ∈ m₁.get k := by
        intro k member
        rw [others k member]
        exact members k (List.mem_cons_of_mem key member)
      obtain ⟨m₂, rest, wf₂, get₂⟩ := ih wf₁ distinct members₁
      refine ⟨m₂, by simp only [discardFrom, done, rest], wf₂, fun k => ?_⟩
      rw [get₂, get₁]
      by_cases same : k = key
      · subst same
        simp [fresh]
      · simp [same]

end LinkMap

namespace ImportGraph

/-- Both maps are well formed, and each is the converse of the other. -/
structure Consistent (g : ImportGraph) : Prop where
  imports : g.imports.WellFormed
  importedBy : g.importedBy.WellFormed
  converse : ∀ u v, v ∈ g.imports.get u ↔ u ∈ g.importedBy.get v

theorem Consistent.empty : Consistent {} :=
  ⟨.nil, .nil, fun _ _ => by simp [LinkMap.get]⟩

theorem Consistent.link {g : ImportGraph} (consistent : g.Consistent) (importer importee : Uri) :
    (g.link importer importee).Consistent := by
  refine ⟨consistent.imports.insert _ _, consistent.importedBy.insert _ _, fun u v => ?_⟩
  simp only [ImportGraph.link, LinkMap.mem_get_insert, consistent.converse u v]
  tauto

/-- The links that a graph is left with when a document is unlinked. -/
structure Unlinked (g : ImportGraph) (uri : Uri) (g' : ImportGraph) : Prop where
  imports : ∀ u, g'.imports.get u = if u = uri then [] else (g.imports.get u).filter (· ≠ uri)
  importedBy : ∀ u,
    g'.importedBy.get u = if u = uri then [] else (g.importedBy.get u).filter (· ≠ uri)

/-- Unlinking finds every link, and takes away those of the document. -/
theorem Consistent.unlink {g : ImportGraph} (consistent : g.Consistent) (uri : Uri) :
    ∃ g', g.unlink uri = (g', true) ∧ g'.Consistent ∧ g.Unlinked uri g' := by
  have noted : ∀ key ∈ g.imports.get uri, uri ∈ g.importedBy.get key :=
    fun key member => (consistent.converse uri key).mp member
  obtain ⟨importedBy, found, wf, get⟩ := LinkMap.discardFrom_of_mem consistent.importedBy
    (consistent.imports.nodup_get uri) noted
  -- A set outside of the loop never had the document as a member.
  have get' : ∀ k, importedBy.get k = (g.importedBy.get k).filter (· ≠ uri) := by
    intro k
    rw [get]
    split
    · rfl
    · rename_i outside
      refine (List.filter_eq_self.mpr fun w member => decide_eq_true ?_).symm
      rintro rfl
      exact outside ((consistent.converse w k).mpr member)
  have noted' : ∀ key ∈ importedBy.get uri, uri ∈ (g.imports.erase uri).get key := by
    intro key member
    rw [get'] at member
    obtain ⟨member, different⟩ := List.mem_filter.mp member
    rw [LinkMap.get_erase, if_neg (of_decide_eq_true different)]
    exact (consistent.converse key uri).mpr member
  obtain ⟨imports, found', wf', getImports⟩ := LinkMap.discardFrom_of_mem
    (consistent.imports.erase uri) (wf.nodup_get uri) noted'
  have links : g.Unlinked uri { imports := imports, importedBy := importedBy.erase uri } := by
    refine ⟨fun k => ?_, fun k => ?_⟩
    · rw [getImports, LinkMap.get_erase, get']
      by_cases same : k = uri
      · simp [same]
      · simp only [same, if_false]
        split
        · rfl
        · rename_i outside
          refine (List.filter_eq_self.mpr fun v member => decide_eq_true ?_).symm
          rintro rfl
          exact outside (List.mem_filter.mpr
            ⟨(consistent.converse k v).mp member, decide_eq_true same⟩)
    · rw [LinkMap.get_erase]
      split
      · rfl
      · exact get' k
  refine ⟨_, by simp only [ImportGraph.unlink, found, found'], ⟨wf', wf.erase uri, fun u v => ?_⟩,
    links⟩
  rw [links.imports, links.importedBy]
  have converse := consistent.converse u v
  by_cases first : u = uri <;> by_cases second : v = uri <;> simp [first, second, converse]

/-- A link is left exactly if the document is at neither of its ends. -/
theorem Unlinked.mem_imports {g g' : ImportGraph} {uri : Uri} (h : g.Unlinked uri g') {u v : Uri} :
    v ∈ g'.imports.get u ↔ v ∈ g.imports.get u ∧ u ≠ uri ∧ v ≠ uri := by
  rw [h.imports]
  by_cases same : u = uri <;> simp [same]

theorem Unlinked.mem_importedBy {g g' : ImportGraph} {uri : Uri} (h : g.Unlinked uri g')
    {u v : Uri} : u ∈ g'.importedBy.get v ↔ u ∈ g.importedBy.get v ∧ u ≠ uri ∧ v ≠ uri := by
  rw [h.importedBy]
  by_cases same : v = uri <;> simp [same]

end ImportGraph

end JsonnetNav
