import JsonnetNav.Proofs.References
import Mathlib

/-! # Locals that refer to each other

The binds of a local expression or of an object are made one after the other, and the value
of each is walked before the next one is made. So a value sees the binds up to its own. The
name of a later bind is looked up around the group, where it stands for another variable or
for none.
-/

namespace JsonnetNav

namespace Site

/-- The binds that a node makes. -/
def localBinds (s : Site) : List LocalBind :=
  match s.node with
  | .expr (.localIn _ binds _) => binds
  | .expr (.object _ binds _ _) => binds
  | .expr (.objComp _ _ binds _ _ _) => binds
  | _ => []

/-- The variables that all binds of a node see. -/
def aroundBinds (s : Site) : Env :=
  match s.node with
  | .expr (.objComp _ _ _ _ clause rest) => introduced (Walk.clauseSites s clause rest) ++ s.visible
  | _ => s.visible

def bindAt (s : Site) (i : Nat) (b : LocalBind) : Site :=
  s.down ⟨.binds, i⟩ (.bind b)

/-- The variable of a bind. -/
def boundAt (s : Site) (i : Nat) (b : LocalBind) : Site :=
  (s.bindAt i b).part .id (.var b.id)

/-- The value of a bind. -/
def valueAt (s : Site) (i : Nat) (b : LocalBind) : Site :=
  (s.bindAt i b).part .value (.expr b.value)

variable {s : Site} {i : Nat} {b : LocalBind} {name : Text}

theorem mem_preorder_valueAt (bind : s.localBinds[i]? = some b) : s.valueAt i b ∈ s.preorder := by
  have listed : .children .binds (s.localBinds.map .bind) ∈ s.node.parts := by
    unfold localBinds at bind ⊢
    split at bind
    · simp [*, Node.parts, Expr.parts]
    · simp [*, Node.parts, Expr.parts]
    · simp [*, Node.parts, Expr.parts]
    · simp at bind
  have member : s.bindAt i b ∈ s.bindRow s.localBinds := mem_row.mpr ⟨i, b, bind, rfl⟩
  exact mem_preorder_trans (mem_preorder_of_part listed member)
    (mem_preorder_of_part (.tail _ (.head _)) (.head _))

theorem visible_bindAt (bind : s.localBinds[i]? = some b) :
    (s.bindAt i b).visible = introduced ((s.bindRow s.localBinds).take i) ++ s.aroundBinds := by
  have edge : (s.bindAt i b).visible = s.shows ⟨.binds, i⟩ ++ s.visible := rfl
  rw [edge]
  unfold localBinds at bind ⊢
  split at bind
  · simp [*, shows, aroundBinds]
  · simp [*, shows, aroundBinds]
  · simp [*, shows, aroundBinds]
  · simp at bind

theorem introduced_take_succ (s : Site) (binds : List LocalBind) (n : Nat) :
    introduced ((s.bindRow binds).take (n + 1)) =
      (binds[n]?.map fun b => (b.id.name, s.boundAt n b)).toList ++
        introduced ((s.bindRow binds).take n) := by
  have member : (s.bindRow binds)[n]? = binds[n]?.map (s.bindAt n) := by
    simp only [bindRow, row, List.getElem?_mapIdx, List.getElem?_map, Option.map_map]
    rfl
  rw [List.take_add_one, member]
  cases binds[n]? with
  | none => simp
  | some b => simp [introduced, introduces?, bindAt, down, boundAt]

/-- The value of a bind sees the binds up to its own, the last one first. -/
theorem visible_valueAt (bind : s.localBinds[i]? = some b) :
    (s.valueAt i b).visible =
      introduced ((s.bindRow s.localBinds).take (i + 1)) ++ s.aroundBinds := by
  have edge : (s.valueAt i b).visible =
      [(b.id.name, s.boundAt i b)] ++ (s.bindAt i b).visible := rfl
  rw [edge, visible_bindAt bind, introduced_take_succ, bind, List.append_assoc]
  rfl

theorem lookup_take_succ {binds : List LocalBind} {n : Nat}
    (other : ∀ b, binds[n]? = some b → b.id.name ≠ name) :
    (introduced ((s.bindRow binds).take (n + 1))).lookup name =
      (introduced ((s.bindRow binds).take n)).lookup name := by
  rw [introduced_take_succ, List.lookup_append]
  cases next : binds[n]? with
  | none => rfl
  | some b => simp [List.lookup_cons, beq_eq_false_iff_ne.mpr (other b next).symm]

/-- Of the binds of one name the last one is found. -/
theorem lookup_of_last {binds : List LocalBind} {n j : Nat} (bind : binds[j]? = some b)
    (named : b.id.name = name) (before : j < n)
    (last : ∀ k b', binds[k]? = some b' → b'.id.name = name → k < n → k ≤ j) :
    (introduced ((s.bindRow binds).take n)).lookup name = some (s.boundAt j b) := by
  induction n with
  | zero => omega
  | succ n ih =>
      by_cases here : j = n
      · subst here
        rw [introduced_take_succ, bind]
        simp [named]
      · have other : ∀ b', binds[n]? = some b' → b'.id.name ≠ name := by
          intro b' next same
          have := last n b' next same (by omega)
          omega
        rw [lookup_take_succ other]
        exact ih (by omega) fun k b' next same low => last k b' next same (by omega)

theorem lookup_of_later {binds : List LocalBind} {n : Nat}
    (later : ∀ j b, binds[j]? = some b → b.id.name = name → n ≤ j) :
    (introduced ((s.bindRow binds).take n)).lookup name = none := by
  induction n with
  | zero => rfl
  | succ n ih =>
      have other : ∀ b, binds[n]? = some b → b.id.name ≠ name := by
        intro b next same
        have := later n b next same
        omega
      rw [lookup_take_succ other]
      exact ih fun j b next same => by
        have := later j b next same
        omega

/-- What is introduced by the clauses of a comprehension is not bound by its binds. -/
theorem clause_ne_boundAt {clause : ForSpec} {rest : List CompSpec} {v : Site}
    (member : (name, v) ∈ introduced (Walk.clauseSites s clause rest)) (j : Nat) (b : LocalBind) :
    v ≠ s.boundAt j b := by
  rintro rfl
  obtain ⟨c, inRow, introduces⟩ := mem_introduced.mp member
  obtain ⟨-, id, same, -⟩ := introduces_var introduces
  have paths : c.path = ⟨.binds, j⟩ :: s.path := (List.cons.inj (congrArg path same)).2.symm
  rcases List.mem_cons.mp inRow with rfl | later
  · cases paths
  · obtain ⟨k, spec, -, rfl⟩ := mem_row.mp later
    cases paths

end Site

namespace Document

open Site

variable {d : Document} {uri : Uri} {s ref : Site} {i : Nat} {b : LocalBind} {id : Ident}

/-- The variables around a group are not those of the group. -/
theorem Built.around_ne_boundAt (built : d.Built uri) (member : s ∈ d.sites) {name : Text}
    {v : Site} (around : (name, v) ∈ s.aroundBinds) (j : Nat) (b : LocalBind) :
    v ≠ s.boundAt j b := by
  have outside (seen : (name, v) ∈ s.visible) : v ≠ s.boundAt j b := by
    rintro rfl
    obtain ⟨p, -, ⟨c, child, below⟩, binds⟩ := built.introduced_around member seen
    obtain ⟨c', child', introduces⟩ := mem_introduced.mp binds
    obtain ⟨-, id, same, -⟩ := introduces_var introduces
    obtain ⟨edge, -, rfl⟩ := mem_children.mp child'
    have paths : s.path = p.path := (List.cons.inj (List.cons.inj (congrArg path same)).2).2
    exact path_ne_of_below child below paths
  unfold aroundBinds at around
  split at around
  · rcases List.mem_append.mp around with clause | seen
    · exact clause_ne_boundAt clause j b
    · exact outside seen
  · exact outside around

/-- A reference in the value of a bind, to a name that nothing in between binds, stands for
    the last bind of that name up to the value, and for what the name stands for around the
    group if there is none. A later bind is never what it stands for. -/
theorem value_sees_earlier_binds {tree : ParseTree} (done : ofParseTree uri tree = .ok d)
    (member : s ∈ d.sites) (bind : s.localBinds[i]? = some b)
    (inside : ref ∈ (s.valueAt i b).preorder) (node : ref.node = .expr (.ref id))
    (clear : ∀ t ∈ (s.valueAt i b).preorder, ref ∈ t.preorder →
      ∀ entry ∈ t.binders, entry.1 ≠ id.name) :
    (∀ j b', s.localBinds[j]? = some b' → b'.id.name = id.name → j ≤ i →
      (∀ k b'', s.localBinds[k]? = some b'' → b''.id.name = id.name → k ≤ i → k ≤ j) →
      (d.resolve.bindingOfRef? ref).map Binding.id = some (s.boundAt j b')) ∧
    ((∀ j b', s.localBinds[j]? = some b' → b'.id.name = id.name → i < j) →
      (d.resolve.bindingOfRef? ref).map Binding.id = s.aroundBinds.lookup id.name ∧
      ∀ j b', (d.resolve.bindingOfRef? ref).map Binding.id ≠ some (s.boundAt j b')) := by
  have built := built done
  have inSites : ref ∈ d.sites :=
    mem_preorder_trans member (mem_preorder_trans (mem_preorder_valueAt bind) inside)
  have expr : (s.valueAt i b).kind.isExpr := Expr.isExpr_kind b.value
  obtain ⟨inner, sees, introduced⟩ := visible_inside expr inside
  have passed : inner.lookup id.name = none := by
    rw [List.lookup_eq_none_iff]
    intro entry listed
    obtain ⟨p, around, ⟨c, child, below⟩, binds⟩ := introduced entry listed
    have beneath : ref ∈ p.preorder := mem_preorder.mpr (.inr ⟨c, child, below⟩)
    simpa using (clear p around beneath entry binds).symm
  rw [built.bindingOfRef_lookup inSites node, sees, visible_valueAt bind, List.lookup_append,
    List.lookup_append, passed, Option.none_or]
  constructor
  · intro j b' next named before last
    rw [lookup_of_last next named (Nat.lt_succ_of_le before)
      fun k b'' at' same low => last k b'' at' same (Nat.le_of_lt_succ low)]
    rfl
  · intro later
    rw [lookup_of_later later, Option.none_or]
    refine ⟨rfl, fun j b' found => ?_⟩
    obtain ⟨before, after, split, -⟩ := List.lookup_eq_some_iff.mp found
    have seen : (id.name, s.boundAt j b') ∈ s.aroundBinds := by simp [split]
    exact built.around_ne_boundAt member seen j b' rfl

/-- The parse tree of `local a = b, b = a; a`. -/
def mutualTree : ParseTree :=
  let name (column : Nat) (text : String) : ParseTree :=
    { type := "id", range := Range.ofNats 0 column 0 (column + 1), text := some text }
  let bind (column : Nat) (text value : String) : ParseTree :=
    { type := "bind", range := Range.ofNats 0 column 0 (column + 5), children :=
      [name column text, name (column + 4) value] }
  { type := "document", range := Range.ofNats 0 0 0 21, children :=
    [{ type := "local_bind", range := Range.ofNats 0 0 0 21, children :=
      [{ type := "local", range := Range.ofNats 0 0 0 5 }, bind 6 "a" "b", bind 13 "b" "a",
        name 20 "a"] }] }

def mutualName (column : Nat) (text : String) : Ident :=
  ⟨Range.ofNats 0 column 0 (column + 1), .ofString text⟩

def mutualBind (column : Nat) (text value : String) : LocalBind :=
  ⟨Range.ofNats 0 column 0 (column + 5), mutualName column text,
    .ref (mutualName (column + 4) value)⟩

def mutualLocal : Expr :=
  .localIn (Range.ofNats 0 0 0 21) [mutualBind 6 "a" "b", mutualBind 13 "b" "a"]
    (.ref (mutualName 20 "a"))

def mutualDocument : Document :=
  { uri := "file:///x", root := .expr (.document (Range.ofNats 0 0 0 21) mutualLocal) }

def mutualSite : Site :=
  mutualDocument.site.part .body (.expr mutualLocal)

/-- The second bind sees the first. -/
theorem second_sees_first :
    ofParseTree "file:///x" mutualTree = .ok mutualDocument ∧
    mutualSite ∈ mutualDocument.sites ∧
    (mutualDocument.resolve.bindingOfRef? (mutualSite.valueAt 1 (mutualBind 13 "b" "a"))).map
      Binding.id = some (mutualSite.boundAt 0 (mutualBind 6 "a" "b")) := by
  have done : ofParseTree "file:///x" mutualTree = .ok mutualDocument := by cbv
  have member : mutualSite ∈ mutualDocument.sites := mem_preorder_of_part (.head _) (.head _)
  have bind : mutualSite.localBinds[1]? = some (mutualBind 13 "b" "a") := rfl
  have node : (mutualSite.valueAt 1 (mutualBind 13 "b" "a")).node =
      .expr (.ref (mutualName 17 "a")) := rfl
  have nothing : (mutualSite.valueAt 1 (mutualBind 13 "b" "a")).preorder =
      [mutualSite.valueAt 1 (mutualBind 13 "b" "a")] := by cbv
  refine ⟨done, member, ?_⟩
  refine (value_sees_earlier_binds done member bind (mem_preorder_self _) node ?_).1 0
    (mutualBind 6 "a" "b") rfl rfl (by decide) ?_
  · intro t inside
    rw [nothing, List.mem_singleton] at inside
    subst inside
    intro _ entry listed
    cases listed
  · intro k b next same low
    rcases k with _ | _ | k
    · exact Nat.le_refl 0
    · cases next
      cases same
    · cases next

/-- The first bind does not see the second. -/
theorem first_misses_second :
    ofParseTree "file:///x" mutualTree = .ok mutualDocument ∧
    mutualSite.localBinds[1]?.map (·.id.name) = some (.ofString "b") ∧
    (mutualSite.valueAt 0 (mutualBind 6 "a" "b")).node = .expr (.ref (mutualName 10 "b")) ∧
    mutualDocument.resolve.bindingOfRef? (mutualSite.valueAt 0 (mutualBind 6 "a" "b")) = none := by
  refine ⟨by cbv, rfl, rfl, by cbv⟩

end Document

end JsonnetNav
