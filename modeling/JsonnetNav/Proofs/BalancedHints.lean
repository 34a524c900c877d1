import JsonnetNav.Answers.Hint
import JsonnetNav.Proofs.RenamedBindings
import Mathlib

/-! # Hints that balance

A reference that stands for a variable gets one arrow, and a binder one count. A reference stands
for the variable of one binder, so it is counted there and nowhere else: the counts of all binders
add up to the number of arrows.
-/

namespace JsonnetNav

/-- If everything that has an owner finds it once among the candidates, then what the candidates
    own adds up to what has an owner. -/
theorem sum_countP_owner {α β : Type} {owner : α → Option β} {same : β → β → Bool} {bs : List β}
    {xs : List α} (once : ∀ x ∈ xs, ∀ b, owner x = some b → bs.countP (same b) = 1) :
    (bs.map fun b => xs.countP fun x => (owner x).any (same · b)).sum =
      xs.countP fun x => (owner x).isSome := by
  induction xs with
  | nil => simp
  | cons x xs ih =>
      have here : (bs.map fun b => if (owner x).any (same · b) then 1 else 0).sum =
          if (owner x).isSome then 1 else 0 := by
        cases owned : owner x with
        | none => simp
        | some b =>
            have found := once x (.head _) b owned
            rw [List.countP_eq_length_filter] at found
            simp [List.sum_map_ite, found]
      simp only [List.countP_cons, List.sum_map_add, here]
      rw [ih fun y member => once y (.tail _ member)]

namespace Hint

def isArrow (h : Hint) : Bool :=
  match h.label with
  | .arrow _ => true
  | .count _ _ => false

/-- The number of references that a hint shows. -/
def counted (h : Hint) : Nat :=
  match h.label with
  | .arrow _ => 0
  | .count _ references => references

end Hint

theorem Site.mem_preorder_of_binds {s target : Site} {id : Ident}
    (binds : s.binds? = some (id, target)) : s.part .id (.var id) ∈ s.preorder := by
  have listed : .child .id (.var id) ∈ s.node.parts := by
    obtain ⟨uri, node, above⟩ := s
    cases node with
    | bind b | param b | forSpec b =>
        cases binds
        exact .head _
    | _ => cases binds
  exact mem_preorder_of_part listed (.head _)

/-- Only a clause binds its variable to a clause. -/
theorem Site.kind_of_binds {s target : Site} {id : Ident} (binds : s.binds? = some (id, target)) :
    target.kind = .forSpec ↔ s.kind = .forSpec := by
  obtain ⟨uri, node, above⟩ := s
  cases node with
  | bind b =>
      cases binds
      have isExpr := Expr.isExpr_kind b.value
      constructor
      · intro clause
        rw [show (Site.kind _ : Kind) = b.value.kind from rfl] at clause
        rw [clause] at isExpr
        cases isExpr
      · intro clause
        cases clause
  | param p =>
      cases binds
      rfl
  | forSpec f =>
      cases binds
      rfl
  | _ => cases binds

namespace Document

/-- The bind, parameter or clause whose variable a reference stands for. -/
def binderOf? (d : Document) (ref : Site) : Option Site :=
  match ref.node with
  | .expr (.ref _) => (d.bindingOfRef? ref).bind (·.id.parent?)
  | _ => none

/-- The hint at a reference that stands for a variable: an arrow to its binder. -/
def arrowAt? (d : Document) (ref : Site) : Option Hint :=
  match ref.node with
  | .expr (.ref _) => (d.bindingOfRef? ref).map fun b =>
      ⟨ref.range.start, .arrow (if b.id.parent?.any (·.kind = .forSpec) then .down else .up)⟩
  | _ => none

/-- The hint at a binder: an arrow the other way, with the number of the references that stand
    for its variable. -/
def countAt? (d : Document) (binder : Site) : Option Hint :=
  binder.binds?.map fun bound =>
    ⟨bound.1.range.start, .count (if binder.kind = .forSpec then .up else .down)
      (d.sites.countP fun ref => (d.binderOf? ref).any (·.isAt binder))⟩

variable {d : Document} {uri : Uri}

theorem of_arrowAt {ref : Site} {h : Hint} (shown : d.arrowAt? ref = some h) :
    h.isArrow = true ∧ h.counted = 0 := by
  unfold arrowAt? at shown
  split at shown
  · obtain ⟨b, -, rfl⟩ := Option.map_eq_some_iff.mp shown
    exact ⟨rfl, rfl⟩
  · cases shown

theorem of_countAt {binder : Site} {h : Hint} (shown : d.countAt? binder = some h) :
    h.isArrow = false := by
  obtain ⟨bound, -, rfl⟩ := Option.map_eq_some_iff.mp shown
  rfl

theorem Built.binder_of_binding (built : d.Built uri) {ref : Site} {b : Binding}
    (found : d.resolve.bindingOfRef? ref = some b) :
    ∃ binder id, b.id = binder.part .id (.var id) ∧ b.id.parent? = some binder ∧
      binder.binds? = some (id, b.target) := by
  obtain ⟨binder, id, place, binds⟩ := built.stands found
  refine ⟨binder, id, place, ?_, binds⟩
  rw [place]
  rfl

theorem Built.isSome_arrowAt (built : d.Built uri) (ref : Site) :
    (d.resolve.arrowAt? ref).isSome = (d.resolve.binderOf? ref).isSome := by
  unfold arrowAt? binderOf?
  split
  · cases found : d.resolve.bindingOfRef? ref with
    | none => rfl
    | some b =>
        obtain ⟨binder, id, -, parent, -⟩ := built.binder_of_binding found
        simp [parent]
  · rfl

/-- The binder of a reference binds the variable that the reference is found with. -/
theorem Built.binderOf_eq_some (built : d.Built uri) {ref binder : Site} (inside : ref ∈ d.sites) :
    d.resolve.binderOf? ref = some binder ↔ binder ∈ d.sites ∧ ∃ id target,
      binder.binds? = some (id, target) ∧ (ref, binder.part .id (.var id)) ∈ d.found := by
  constructor
  · intro owned
    unfold binderOf? at owned
    split at owned
    · obtain ⟨b, found, outer⟩ := Option.bind_eq_some_iff.mp owned
      obtain ⟨s, id, place, parent, binds⟩ := built.binder_of_binding found
      cases Option.some.inj (parent.symm.trans outer)
      have member : (ref, b.id) ∈ d.found :=
        (built.bindingOfRef_eq_some inside).mp (by simp [found])
      have inSites := (built.names_of_found member).1
      rw [place] at member
      exact ⟨(d.mem_sites_of_parent inSites outer).1, id, b.target, binds, member⟩
    · cases owned
  · rintro ⟨-, id, target, binds, member⟩
    obtain ⟨b, found, place⟩ :=
      Option.map_eq_some_iff.mp ((built.bindingOfRef_eq_some inside).mpr member)
    obtain ⟨-, id', node, -⟩ := built.mem_found.mp member
    simp only [binderOf?, node, found, Option.bind_some, place]
    rfl

/-- The references to the variable of a binder are the references with this binder. -/
theorem Built.length_references (built : d.Built uri) {binder target : Site} {id : Ident}
    (inside : binder ∈ d.sites) (binds : binder.binds? = some (id, target)) :
    (d.resolve.references (binder.part .id (.var id))).length =
      d.sites.countP fun ref => (d.resolve.binderOf? ref).any (·.isAt binder) := by
  have varInside := Site.mem_preorder_trans inside (Site.mem_preorder_of_binds binds)
  rw [List.countP_eq_length_filter]
  refine List.Perm.length_eq ((List.perm_ext_iff_of_nodup (built.nodup_references _)
    (d.site.nodup_preorder.filter _)).mpr fun ref => ?_)
  rw [built.mem_references varInside, List.mem_filter]
  constructor
  · intro member
    have refInside := (built.mem_found.mp member).1
    have owned := (built.binderOf_eq_some refInside).mpr ⟨inside, id, target, binds, member⟩
    exact ⟨refInside, by simp [owned, Site.isAt]⟩
  · rintro ⟨refInside, owned⟩
    cases ofRef : d.resolve.binderOf? ref with
    | none => simp [ofRef] at owned
    | some other =>
        obtain ⟨otherInside, id', target', binds', member⟩ :=
          (built.binderOf_eq_some refInside).mp ofRef
        have isAt : other.isAt binder = true := by simpa [ofRef] using owned
        cases (Site.isAt_iff otherInside inside).mp isAt
        cases binds.symm.trans binds'
        exact member

/-- What the walk shows at the events of one node. -/
theorem Built.hints_ownEvents (built : d.Built uri) {s : Site} (inside : s ∈ d.sites) :
    (Walk.ownEvents s).filterMap (Hint.ofEvent? d.resolve) =
      (d.resolve.arrowAt? s).toList ++ (d.resolve.countAt? s).toList := by
  have atBinder (id : Ident) {target : Site} (binds : s.binds? = some (id, target)) :
      (d.resolve.countAt? s).toList =
        [Hint.atBinder d.resolve s id (if s.kind = .forSpec then .up else .down)] := by
    have same : d.resolve.sites = d.sites := rfl
    simp [countAt?, binds, Hint.atBinder, built.length_references inside binds, same]
  obtain ⟨uri', node, above⟩ := s
  cases node with
  | expr e =>
      cases e with
      | ref id =>
          let ref : Site := ⟨uri', .expr (.ref id), above⟩
          have only : (Walk.ownEvents ref).filterMap (Hint.ofEvent? d.resolve) =
              (Hint.ofEvent? d.resolve (.enter ref)).toList := by
            rw [Walk.filterMap_ownEvents rfl rfl]
            exact List.append_nil _
          have arrow : Hint.ofEvent? d.resolve (.enter ref) = d.resolve.arrowAt? ref := by
            refine Option.map_congr fun b found => ?_
            obtain ⟨binder, id', -, parent, binds⟩ := built.binder_of_binding found
            have start : ref.range.start = id.range.start := rfl
            simp [parent, Site.kind_of_binds binds, start]
          exact only.trans ((congrArg Option.toList arrow).trans (List.append_nil _).symm)
      | _ => rfl
  | bind b =>
      rw [atBinder b.id rfl]
      rfl
  | param p =>
      rw [atBinder p.id rfl]
      rfl
  | forSpec f =>
      rw [atBinder f.id rfl]
      rfl
  | key k => cases k <;> rfl
  | _ => rfl

/-- The walk shows the arrows of all references and the counts of all binders. -/
theorem Built.hints_perm (built : d.Built uri) :
    ((Walk.events .keysFirst d.site).filterMap (Hint.ofEvent? d.resolve)).Perm
      (d.sites.filterMap d.resolve.arrowAt? ++ d.sites.filterMap d.resolve.countAt?) := by
  have unwalked {s : Site} (skipped : ¬ Walk.isWalked s) :
      (d.resolve.arrowAt? s).toList ++ (d.resolve.countAt? s).toList = [] := by
    obtain ⟨uri', node, above⟩ := s
    cases node with
    | var id | importee id => rfl
    | _ => exact absurd rfl skipped
  have atNodes (sites : List Site) (inside : ∀ s ∈ sites, s ∈ d.sites) :
      ((sites.filter Walk.isWalked).flatMap Walk.ownEvents).filterMap
          (Hint.ofEvent? d.resolve) =
        sites.flatMap fun s =>
          (d.resolve.arrowAt? s).toList ++ (d.resolve.countAt? s).toList := by
    induction sites with
    | nil => rfl
    | cons s sites ih =>
        have rest := ih fun t member => inside t (.tail _ member)
        by_cases walked : Walk.isWalked s = true
        · rw [List.filter_cons_of_pos walked, List.flatMap_cons, List.filterMap_append, rest,
            built.hints_ownEvents (inside s (.head _)), List.flatMap_cons]
        · rw [List.filter_cons_of_neg walked, rest, List.flatMap_cons, unwalked walked,
            List.nil_append]
  refine (built.events_perm.filterMap _).trans ?_
  rw [atNodes d.sites fun s member => member, List.filterMap_eq_flatMap_toList,
    List.filterMap_eq_flatMap_toList]
  exact (List.flatMap_append_perm _ _ _).symm

/-- The counts of all binders add up to the number of references with a binder. -/
theorem Built.sum_counted (built : d.Built uri) :
    ((d.sites.filterMap d.resolve.countAt?).map Hint.counted).sum =
      (d.sites.filterMap d.resolve.arrowAt?).length := by
  let binders := d.sites.filter (·.binds?.isSome)
  have counts : (d.sites.filterMap d.resolve.countAt?).map Hint.counted = binders.map fun b =>
      d.sites.countP fun ref => (d.resolve.binderOf? ref).any (·.isAt b) := by
    rw [List.map_filterMap, ← List.filterMap_eq_map, List.filterMap_filter]
    refine List.filterMap_congr fun s _ => ?_
    have same : d.resolve.sites = d.sites := rfl
    cases binds : s.binds? <;> simp [countAt?, binds, Hint.counted, same]
  have arrows : (d.sites.filterMap d.resolve.arrowAt?).length =
      d.sites.countP fun ref => (d.resolve.binderOf? ref).isSome := by
    simp [List.length_filterMap_eq_countP, built.isSome_arrowAt]
  rw [counts, arrows]
  refine sum_countP_owner fun ref inside binder owned => ?_
  obtain ⟨binderInside, id, target, binds, -⟩ := (built.binderOf_eq_some inside).mp owned
  have member : binder ∈ binders := List.mem_filter.mpr ⟨binderInside, by simp [binds]⟩
  rw [List.countP_eq_length_filter]
  have only : binders.filter (binder.isAt ·) = [binder] := by
    refine filter_eq_singleton (d.site.nodup_preorder.filter _) member fun other listed => ?_
    rw [Site.isAt_iff binderInside (List.mem_filter.mp listed).1, eq_comm]
  rw [only]
  rfl

/-- Every reference that stands for a variable has one arrow, down to a clause and up to any other
    binder, and every binder one count of the arrows to it. So the counts add up to the number of
    arrows. -/
theorem hints_balance {tree : ParseTree} (done : ofParseTree uri tree = .ok d) :
    ∃ hints, d.resolve.hints = .ok hints ∧
      hints.Perm (d.sites.filterMap d.resolve.arrowAt? ++ d.sites.filterMap d.resolve.countAt?) ∧
      (hints.map Hint.counted).sum = hints.countP Hint.isArrow := by
  have built := built done
  have perm := built.hints_perm
  have arrows : (d.sites.filterMap d.resolve.arrowAt?).countP Hint.isArrow =
      (d.sites.filterMap d.resolve.arrowAt?).length := by
    refine List.countP_eq_length.mpr fun h member => ?_
    obtain ⟨ref, -, shown⟩ := List.mem_filterMap.mp member
    exact (of_arrowAt shown).1
  have nothing : ((d.sites.filterMap d.resolve.arrowAt?).map Hint.counted).sum = 0 := by
    refine List.sum_eq_zero fun n member => ?_
    obtain ⟨h, shown, rfl⟩ := List.mem_map.mp member
    obtain ⟨ref, -, shown⟩ := List.mem_filterMap.mp shown
    exact (of_arrowAt shown).2
  have noArrow : (d.sites.filterMap d.resolve.countAt?).countP Hint.isArrow = 0 := by
    refine List.countP_eq_zero.mpr fun h member => ?_
    obtain ⟨binder, -, shown⟩ := List.mem_filterMap.mp member
    simp [of_countAt shown]
  refine ⟨(Walk.events .keysFirst d.site).filterMap (Hint.ofEvent? d.resolve), rfl, perm, ?_⟩
  rw [(perm.map Hint.counted).sum_eq, perm.countP_eq, List.map_append, List.sum_append,
    List.countP_append, built.sum_counted, nothing, arrows, noArrow, Nat.zero_add, Nat.add_zero]

/-- In a document with binds, a function, an object and a comprehension. -/
theorem mixed_hints_balance :
    ofParseTree "file:///x" mixedTree = .ok mixedDocument ∧
    ∃ hints, mixedDocument.resolve.hints = .ok hints ∧
      hints.Perm (mixedDocument.sites.filterMap mixedDocument.resolve.arrowAt? ++
        mixedDocument.sites.filterMap mixedDocument.resolve.countAt?) ∧
      (hints.map Hint.counted).sum = hints.countP Hint.isArrow :=
  ⟨mixed_built, hints_balance mixed_built⟩

end Document

end JsonnetNav
