import JsonnetNav.Proofs.ScopeViews
import JsonnetNav.Scope.History
import Mathlib

/-! # Scopes as environments

Scopes are changed in place: a name is bound by putting it in front of a list that copies of the
scope share. What this means for the names that a scope knows can be told without it. A scope is
the row of the scopes whose bindings it looks through, itself first, where a copy looks through
the bindings of its original. A name stands for what it was bound to last in the first of them
that has it.
-/

namespace JsonnetNav

theorem findSome?_congr_mem {α β : Type} {f g : α → Option β} {xs : List α}
    (same : ∀ x ∈ xs, f x = g x) : xs.findSome? f = xs.findSome? g := by
  induction xs with
  | nil => rfl
  | cons x xs ih =>
      rw [List.findSome?_cons, List.findSome?_cons, same x (.head _),
        ih fun y member => same y (.tail _ member)]

/-- Makes scopes step by step. -/
def ScopeHistory.follow? (h : ScopeHistory) (steps : List ScopeStep) : Option ScopeHistory :=
  steps.foldlM step? h

/-- What the steps of a history say about names. -/
structure Chronicle where
  /-- For each scope the originals of the scopes from it outwards, its own first. -/
  chains : List (List ScopeId) := []
  /-- The list in which the scopes are known. -/
  listed : List ScopeId := []
  /-- All that was bound, the latest first. -/
  bound : List Binding := []

namespace Chronicle

def chain (c : Chronicle) (i : ScopeId) : List ScopeId :=
  c.chains.getD i []

/-- The scope whose bindings a scope has: itself, or the scope it was copied from. -/
def original? (c : Chronicle) (i : ScopeId) : Option ScopeId :=
  (c.chain i).head?

def push (c : Chronicle) (chain : List ScopeId) : Chronicle :=
  { c with chains := c.chains ++ [chain] }

/-- Lists the youngest scope. -/
def listLast (c : Chronicle) : Chronicle :=
  { c with listed := c.listed ++ [c.chains.length - 1] }

/-- Notes one step. A new scope has bindings of its own. A copy inside of the copy of another
    scope sees the bindings of its original, and then what the other one sees. -/
def note? (c : Chronicle) : ScopeStep → Option Chronicle
  | .empty _ => return (c.push [c.chains.length]).listLast
  | .nest i _ => do
    let outer ← i.member? c.listed
    return (c.push (c.chains.length :: c.chain outer)).listLast
  | .bind i name id target => do
    let scope ← i.member? c.listed
    return { c with bound := ⟨name, id, target, scope⟩ :: c.bound }
  | .copyWithChild i j => do
    let outer ← i.member? c.listed
    let inner ← j.member? c.listed
    return ((c.push (c.chain outer)).push ((c.original? inner).toList ++ c.chain outer)).listLast

def follow? (c : Chronicle) (steps : List ScopeStep) : Option Chronicle :=
  steps.foldlM note? c

/-- The bindings of a scope are those that were made in scopes with the same original. -/
def Sees (c : Chronicle) (o : ScopeId) (b : Binding) : Prop :=
  c.original? b.scope = some o

instance (c : Chronicle) (o : ScopeId) (b : Binding) : Decidable (c.Sees o b) :=
  inferInstanceAs (Decidable (_ = _))

/-- What a name stands for in a scope. -/
def latest? (c : Chronicle) (i : ScopeId) (name : Text) : Option Binding :=
  (c.chain i).findSome? fun o => c.bound.find? fun b => c.Sees o b ∧ b.name = name

section push

variable {c : Chronicle} {added : List ScopeId} {i : Nat}

theorem length_push (c : Chronicle) (added : List ScopeId) :
    (c.push added).chains.length = c.chains.length + 1 := by
  simp [push]

theorem chain_push_of_lt (older : i < c.chains.length) : (c.push added).chain i = c.chain i := by
  simp [chain, push, List.getElem?_append_left older]

theorem chain_push_length (c : Chronicle) (added : List ScopeId) :
    (c.push added).chain c.chains.length = added := by
  simp [chain, push]

theorem original_push_of_lt (older : i < c.chains.length) :
    (c.push added).original? i = c.original? i := by
  rw [original?, chain_push_of_lt older, original?]

theorem sees_push {o : ScopeId} {b : Binding} (older : b.scope < c.chains.length) :
    (c.push added).Sees o b ↔ c.Sees o b := by
  rw [Sees, original_push_of_lt older, Sees]

end push

/-- What is told of one scope: it has the bindings of its original, shares them with the scopes
    of the same original only, and sees beyond them what the scope around it sees. -/
structure TellsScope (c : Chronicle) (t : ScopeTable) (i : Nat) (s : Scope) : Prop where
  older : ∀ p : Nat, s.parent = some p → p < i
  frame : s.frame < t.frames.size
  chain : ∃ o : Nat, o < t.scopes.size ∧ c.chain i = o :: s.parent.elim [] c.chain
  bindings : ∀ o, c.original? i = some o → t.bindings s = c.bound.filter (c.Sees o)
  shared : ∀ {j : Nat} {s' : Scope}, t.scopes[j]? = some s' →
    (s'.frame = s.frame ↔ c.original? j = c.original? i)

/-- The chronicle is right about all scopes of the table. -/
structure TellsTable (c : Chronicle) (t : ScopeTable) : Prop where
  size : c.chains.length = t.scopes.size
  bound : ∀ b ∈ c.bound, b.scope < t.scopes.size
  scope : ∀ {i : Nat} {s : Scope}, t.scopes[i]? = some s → c.TellsScope t i s

variable {c : Chronicle} {t t' : ScopeTable}

theorem TellsTable.original (tells : c.TellsTable t) {i : Nat} {s : Scope}
    (found : t.scopes[i]? = some s) : ∃ o : Nat, o < t.scopes.size ∧ c.original? i = some o ∧
      c.chain i = o :: s.parent.elim [] c.chain := by
  obtain ⟨o, older, chain⟩ := (tells.scope found).chain
  exact ⟨o, older, by rw [original?, chain, List.head?_cons], chain⟩

/-- Frames that are added later do not change the bindings of a scope. -/
theorem bindings_of_frames {s : Scope} (frames : t.frames.toList <+: t'.frames.toList)
    (frame : s.frame < t.frames.size) : t'.bindings s = t.bindings s := by
  have same : t'.frames[s.frame]? = t.frames[s.frame]? := by
    obtain ⟨more, longer⟩ := frames
    rw [← Array.getElem?_toList, ← longer, List.getElem?_append_left (by simpa using frame),
      Array.getElem?_toList]
  simp only [ScopeTable.bindings, Array.getD_eq_getD_getElem?, same]

theorem elim_chain_push {parent : Option ScopeId} (added : List ScopeId)
    (older : ∀ p : Nat, parent = some p → p < c.chains.length) :
    parent.elim [] (c.push added).chain = parent.elim [] c.chain := by
  cases parent with
  | none => rfl
  | some p => exact chain_push_of_lt (older p rfl)

/-- A chronicle that is right about a table stays right if a scope is added. -/
theorem TellsTable.push (tells : c.TellsTable t) {s : Scope} {o : Nat}
    (scopes : t'.scopes = t.scopes.push s) (frames : t.frames.toList <+: t'.frames.toList)
    (older : ∀ p : Nat, s.parent = some p → p < t.scopes.size) (frame : s.frame < t'.frames.size)
    (original : o ≤ t.scopes.size) (bindings : t'.bindings s = c.bound.filter (c.Sees o))
    (shared : ∀ {j : Nat} {s' : Scope}, t.scopes[j]? = some s' →
      (s'.frame = s.frame ↔ c.original? j = some o)) :
    (c.push (o :: s.parent.elim [] c.chain)).TellsTable t' := by
  have size := tells.size
  have inTable {j : Nat} {s' : Scope} (found : t.scopes[j]? = some s') : j < c.chains.length := by
    rw [size]
    exact (Array.getElem?_eq_some_iff.mp found).1
  have newest : (c.push (o :: s.parent.elim [] c.chain)).original? t.scopes.size = some o := by
    rw [original?, ← size, chain_push_length, List.head?_cons]
  have split {j : Nat} {s' : Scope} (found : t'.scopes[j]? = some s') :
      j = t.scopes.size ∧ s' = s ∨ t.scopes[j]? = some s' := by
    rw [scopes, Array.getElem?_push] at found
    split at found
    · exact .inl ⟨‹_›, (Option.some.inj found).symm⟩
    · exact .inr found
  have seen (o' : ScopeId) : c.bound.filter ((c.push (o :: s.parent.elim [] c.chain)).Sees o') =
      c.bound.filter (c.Sees o') := by
    refine List.filter_congr fun b member => ?_
    rw [decide_eq_decide]
    exact sees_push (size ▸ tells.bound b member)
  refine ⟨by simp [length_push, scopes, size], fun b member => ?_, fun {i s'} found => ?_⟩
  · rw [scopes, Array.size_push]
    exact Nat.lt_succ_of_lt (tells.bound b member)
  · rcases split found with ⟨rfl, rfl⟩ | found
    · refine ⟨older, frame, ⟨o, ?_, ?_⟩, fun o' same => ?_, fun {j s''} found' => ?_⟩
      · rw [scopes, Array.size_push]
        exact Nat.lt_succ_of_le original
      · rw [← size, chain_push_length, elim_chain_push _ (size ▸ older)]
      · cases newest.symm.trans same
        rw [bindings]
        exact (seen o).symm
      · rw [newest]
        rcases split found' with ⟨rfl, rfl⟩ | found'
        · exact iff_of_true rfl newest
        · rw [original_push_of_lt (inTable found')]
          exact shared found'
    · have old := tells.scope found
      have above : ∀ p : Nat, s'.parent = some p → p < c.chains.length :=
        fun p parent => Nat.lt_trans (old.older p parent) (inTable found)
      obtain ⟨o', bound, chain⟩ := old.chain
      refine ⟨old.older, ?_, ⟨o', ?_, ?_⟩, fun o'' same => ?_, fun {j s''} found' => ?_⟩
      · have longer := frames.length_le
        simp only [Array.length_toList] at longer
        exact Nat.lt_of_lt_of_le old.frame longer
      · rw [scopes, Array.size_push]
        exact Nat.lt_succ_of_lt bound
      · rw [chain_push_of_lt (inTable found), elim_chain_push _ above, chain]
      · rw [original_push_of_lt (inTable found)] at same
        rw [bindings_of_frames frames old.frame, old.bindings o'' same]
        exact (seen o'').symm
      · rw [original_push_of_lt (inTable found)]
        rcases split found' with ⟨rfl, rfl⟩ | found'
        · rw [newest, eq_comm, shared found, eq_comm]
        · rw [original_push_of_lt (inTable found')]
          exact old.shared found'

/-- A new scope has no bindings and shares them with no other scope. -/
theorem TellsTable.fresh (tells : c.TellsTable t) {s : Scope}
    (scopes : t'.scopes = t.scopes.push s) (frames : t'.frames = t.frames.push [])
    (frame : s.frame = t.frames.size) (older : ∀ p : Nat, s.parent = some p → p < t.scopes.size) :
    (c.push (t.scopes.size :: s.parent.elim [] c.chain)).TellsTable t' := by
  have other {j : Nat} {s' : Scope} (found : t.scopes[j]? = some s') :
      c.original? j ≠ some t.scopes.size := by
    obtain ⟨o, inTable, original, -⟩ := tells.original found
    rw [original]
    exact fun same => Nat.ne_of_lt inTable (Option.some.inj same)
  refine tells.push scopes (by simp [frames]) older (by simp [frames, frame]) (Nat.le_refl _) ?_ ?_
  · have nothing : t'.bindings s = [] := by
      simp [ScopeTable.bindings, frames, frame]
    rw [nothing, eq_comm, List.filter_eq_nil_iff]
    intro b member sees
    have inTable := tells.bound b member
    exact other (Array.getElem?_eq_getElem inTable) (of_decide_eq_true sees)
  · intro j s' found
    refine iff_of_false ?_ (other found)
    rw [frame]
    exact Nat.ne_of_lt (tells.scope found).frame

/-- A copy of a scope shares its bindings, wherever it is put. -/
theorem TellsTable.copied (tells : c.TellsTable t) {k o : Nat} {s s' : Scope}
    (found : t.scopes[k]? = some s) (original : c.original? k = some o)
    (scopes : t'.scopes = t.scopes.push s') (frames : t'.frames = t.frames)
    (frame : s'.frame = s.frame) (older : ∀ p : Nat, s'.parent = some p → p < t.scopes.size) :
    (c.push (o :: s'.parent.elim [] c.chain)).TellsTable t' := by
  have scope := tells.scope found
  obtain ⟨o', inTable, original', -⟩ := tells.original found
  cases original.symm.trans original'
  refine tells.push scopes (by rw [frames]) older ?_ (Nat.le_of_lt inTable) ?_ ?_
  · rw [frame, frames]
    exact scope.frame
  · rw [← scope.bindings o original, ScopeTable.bindings, ScopeTable.bindings, frames, frame]
  · intro j s'' found'
    rw [frame, scope.shared found', original]

/-- A name that is bound in a scope is bound in all scopes that share its bindings. -/
theorem TellsTable.bind (tells : c.TellsTable t) {k : Nat} (inTable : k < t.scopes.size)
    (name : Text) (id target : Site) :
    { c with bound := ⟨name, id, target, k⟩ :: c.bound : Chronicle }.TellsTable
      (t.bind k name id target) := by
  obtain ⟨s, found⟩ : ∃ s, t.scopes[k]? = some s := ⟨_, Array.getElem?_eq_getElem inTable⟩
  have changed : t.bind k name id target =
      { t with frames := t.frames.modify s.frame (⟨name, id, target, k⟩ :: ·) } := by
    simp only [ScopeTable.bind, found]
  rw [changed]
  refine ⟨tells.size, ?_, fun {i s'} found' => ?_⟩
  · intro b member
    rcases List.mem_cons.mp member with rfl | older
    · exact inTable
    · exact tells.bound b older
  · have scope := tells.scope found'
    refine ⟨scope.older, by simpa using scope.frame, scope.chain, fun o original => ?_,
      scope.shared⟩
    have original' : c.original? i = some o := original
    have sees : c.Sees o ⟨name, id, target, k⟩ ↔ s.frame = s'.frame := by
      rw [scope.shared found, original']
      exact Iff.rfl
    have old : t.bindings s' = c.bound.filter (c.Sees o) := scope.bindings o original'
    have kept : t.frames[s'.frame]? = some (t.bindings s') := by
      simp [ScopeTable.bindings, scope.frame]
    have noted : (⟨name, id, target, k⟩ :: c.bound).filter (c.Sees o) =
        if s.frame = s'.frame then ⟨name, id, target, k⟩ :: t.bindings s' else t.bindings s' := by
      rw [List.filter_cons, old]
      simp only [decide_eq_true_eq, sees]
    refine Eq.trans ?_ noted.symm
    rw [ScopeTable.bindings, Array.getD_eq_getD_getElem?, Array.getElem?_modify, kept]
    split <;> rfl

/-! ## Histories -/

/-- The chronicle is right about a history. -/
structure Tells (c : Chronicle) (h : ScopeHistory) : Prop where
  table : c.TellsTable h.table
  listed : c.listed = h.listed
  inTable : ∀ i ∈ h.listed, i < h.table.scopes.size

/-- The youngest scope is listed, and is known to the chronicle. -/
theorem Tells.list {c' : Chronicle} {h : ScopeHistory} {made : ScopeTable × ScopeId}
    (tells : c.Tells h) (table : c'.TellsTable made.1) (listed : c'.listed = c.listed)
    (grown : h.table.scopes.size ≤ made.1.scopes.size) (last : made.2 + 1 = made.1.scopes.size) :
    c'.listLast.Tells (h.list made) := by
  have youngest : c'.chains.length - 1 = made.2 := by
    rw [table.size, ← last, Nat.add_sub_cancel]
  refine ⟨⟨table.size, table.bound, fun found => ?_⟩, ?_, fun i member => ?_⟩
  · have scope := table.scope found
    exact ⟨scope.older, scope.frame, scope.chain, scope.bindings, scope.shared⟩
  · simp [listLast, ScopeHistory.list, listed, tells.listed, youngest]
  · rcases List.mem_append.mp member with older | newest
    · exact Nat.lt_of_lt_of_le (tells.inTable i older) grown
    · rw [List.mem_singleton.mp newest]
      exact Nat.lt_of_lt_of_eq (Nat.lt_succ_self _) last

/-- The copies of two scopes, one inside of the other. -/
theorem TellsTable.copyWithChild (tells : c.TellsTable t) {i j : Nat} {outer inner : Scope}
    (found : t.scopes[i]? = some outer) (found' : t.scopes[j]? = some inner) :
    ((c.push (c.chain i)).push ((c.original? j).toList ++ c.chain i)).TellsTable
        (t.copyWithChild i j).1 ∧
      (t.copyWithChild i j).1.scopes.size = t.scopes.size + 2 ∧
      (t.copyWithChild i j).2 = t.scopes.size + 1 := by
  have inTable := (Array.getElem?_eq_some_iff.mp found).1
  have inTable' := (Array.getElem?_eq_some_iff.mp found').1
  obtain ⟨o, -, original, chain⟩ := tells.original found
  obtain ⟨o', -, original', -⟩ := tells.original found'
  let copy : Scope := { outer with children := t.rows.size }
  let between : ScopeTable := { t with scopes := t.scopes.push copy }
  have first : (c.push (c.chain i)).TellsTable between := by
    have scopes : between.scopes = t.scopes.push copy := rfl
    have told := tells.copied found original scopes rfl rfl fun p parent =>
      Nat.lt_trans ((tells.scope found).older p parent) inTable
    rw [chain]
    exact told
  have kept : between.scopes[j]? = some inner := by
    rw [Array.getElem?_push_lt inTable', ← Array.getElem?_eq_getElem inTable', found']
  have scopes : (t.copyWithChild i j).1.scopes =
      between.scopes.push { inner with parent := some t.scopes.size } := by
    simp [ScopeTable.copyWithChild, found, found', between, copy]
  have second := first.copied kept
    ((original_push_of_lt (tells.size ▸ inTable')).trans original') scopes
    (by simp [ScopeTable.copyWithChild, found, found', between]) rfl (by simp [between])
  rw [Option.elim_some, ← tells.size, chain_push_length] at second
  refine ⟨?_, ?_, ?_⟩
  · rw [original']
    exact second
  · simp [ScopeTable.copyWithChild, found, found']
  · simp [ScopeTable.copyWithChild, found, found']

theorem Tells.step {h h' : ScopeHistory} {step : ScopeStep} (tells : c.Tells h)
    (done : h.step? step = some h') : ∃ c', c.note? step = some c' ∧ c'.Tells h' := by
  have size := tells.table.size
  have known {i : Index} {scope : ScopeId} (member : i.member? h.listed = some scope) :
      i.member? c.listed = some scope ∧ ∃ s, h.table.scopes[scope]? = some s := by
    rw [tells.listed]
    have inTable := tells.inTable scope (Index.mem_of_member member)
    exact ⟨member, _, Array.getElem?_eq_getElem inTable⟩
  cases step with
  | empty owner =>
      cases done
      have scopes : (h.table.empty owner).1.scopes =
          h.table.scopes.push ⟨owner, h.table.frames.size, none, h.table.rows.size⟩ := rfl
      have table := tells.table.fresh scopes rfl rfl (by simp)
      rw [← size] at table
      refine ⟨_, rfl, tells.list table rfl ?_ ?_⟩ <;> simp [ScopeTable.empty, ScopeTable.add]
  | nest i owner =>
      obtain ⟨outer, member, done⟩ := Option.bind_eq_some_iff.mp done
      cases done
      obtain ⟨member', s, found⟩ := known member
      have inTable := (Array.getElem?_eq_some_iff.mp found).1
      have table := tells.table.fresh (h.table.scopes_nest outer owner)
        (h.table.frames_nest outer owner) rfl (by rintro p ⟨⟩; exact inTable)
      rw [← size] at table
      refine ⟨_, ?_, tells.list table rfl ?_ ?_⟩
      · simp only [note?, member']
        rfl
      · simp [ScopeTable.scopes_nest]
      · simp [ScopeTable.scopes_nest, ScopeTable.snd_nest]
  | bind i name id target =>
      obtain ⟨scope, member, done⟩ := Option.bind_eq_some_iff.mp done
      cases done
      obtain ⟨member', s, found⟩ := known member
      have inTable := (Array.getElem?_eq_some_iff.mp found).1
      refine ⟨_, ?_, tells.table.bind inTable name id target, tells.listed, ?_⟩
      · simp only [note?, member']
        rfl
      · simpa [ScopeTable.bind, found] using tells.inTable
  | copyWithChild i j =>
      obtain ⟨outer, member, done⟩ := Option.bind_eq_some_iff.mp done
      obtain ⟨inner, otherMember, done⟩ := Option.bind_eq_some_iff.mp done
      cases done
      obtain ⟨member', s, found⟩ := known member
      obtain ⟨otherMember', s', found'⟩ := known otherMember
      obtain ⟨table, grown, last⟩ := tells.table.copyWithChild found found'
      refine ⟨_, ?_, tells.list table rfl ?_ ?_⟩
      · simp only [note?, member', otherMember']
        rfl
      · rw [grown]
        exact Nat.le_add_right _ 2
      · rw [grown, last]

theorem tells_nothing : ({} : Chronicle).Tells {} :=
  ⟨⟨rfl, by simp, by simp⟩, rfl, by simp⟩

theorem Tells.follow {h h' : ScopeHistory} {steps : List ScopeStep} (tells : c.Tells h)
    (done : h.follow? steps = some h') : ∃ c', c.follow? steps = some c' ∧ c'.Tells h' := by
  induction steps generalizing c h with
  | nil =>
      cases done
      exact ⟨c, rfl, tells⟩
  | cons step steps ih =>
      obtain ⟨between, first, rest⟩ := Option.bind_eq_some_iff.mp done
      obtain ⟨noted, note, tells'⟩ := tells.step first
      obtain ⟨c', follow, tells''⟩ := ih tells' rest
      exact ⟨c', Option.bind_eq_some_iff.mpr ⟨noted, note, follow⟩, tells''⟩

/-! ## What names stand for -/

theorem TellsTable.chain_eq (tells : c.TellsTable t) {i : Nat} {s : Scope}
    (found : t.scopes[i]? = some s) : t.chain i = s :: s.parent.elim [] t.chain := by
  rw [ScopeTable.chain, found]
  cases outer : s.parent with
  | none => simp [outer]
  | some p => simp [outer, (tells.scope found).older p outer]

/-- A name stands for what the chronicle says. -/
theorem TellsTable.get?_eq_latest (tells : c.TellsTable t) {i : Nat} (inTable : i < t.scopes.size)
    (name : Text) : t.get? i name = c.latest? i name := by
  induction i using Nat.strongRecOn with
  | ind i ih =>
      have found := Array.getElem?_eq_getElem inTable
      obtain ⟨o, -, original, chain⟩ := tells.original found
      have here : (t.bindings t.scopes[i]).find? (·.name = name) =
          c.bound.find? fun b => c.Sees o b ∧ b.name = name := by
        rw [(tells.scope found).bindings o original, List.find?_filter]
        simp only [decide_eq_true_eq]
      rw [ScopeTable.get?, tells.chain_eq found, latest?, chain, List.findSome?_cons,
        List.findSome?_cons, here]
      cases c.bound.find? fun b => c.Sees o b ∧ b.name = name with
      | some b => rfl
      | none =>
          cases outer : t.scopes[i].parent with
          | none => rfl
          | some p =>
              have older := (tells.scope found).older p outer
              exact ih p older (Nat.lt_trans older inTable)

theorem latest_eq_none {i : ScopeId} {name : Text} : c.latest? i name = none ↔
    ∀ b ∈ c.bound, b.name = name → ∀ o ∈ c.chain i, ¬ c.Sees o b := by
  simp only [latest?, List.findSome?_eq_none_iff, List.find?_eq_none, decide_eq_true_eq, not_and]
  constructor
  · intro nothing b member named o inChain sees
    exact nothing o inChain b member sees named
  · intro nothing o inChain b member sees named
    exact nothing b member named o inChain sees

theorem latest_push {i : Nat} (older : i < c.chains.length)
    (bound : ∀ b ∈ c.bound, b.scope < c.chains.length) (added : List ScopeId) (name : Text) :
    (c.push added).latest? i name = c.latest? i name := by
  rw [latest?, latest?, chain_push_of_lt older]
  refine findSome?_congr_mem fun o _ => List.find?_congr fun b member => ?_
  rw [decide_eq_decide, sees_push (bound b member)]

/-- A new binding is found under its name and by scopes that see its scope, if at all. -/
theorem latest_bind {b : Binding} {i : ScopeId} {name : Text}
    (changed : { c with bound := b :: c.bound : Chronicle }.latest? i name ≠ c.latest? i name) :
    b.name = name ∧ ∃ o ∈ c.chain i, c.Sees o b := by
  by_contra unseen
  refine changed (findSome?_congr_mem fun o inChain => List.find?_cons_of_neg ?_)
  rw [decide_eq_true_eq]
  rintro ⟨sees, named⟩
  exact unseen ⟨named, o, inChain, sees⟩

theorem length_note {c' : Chronicle} {step : ScopeStep} (noted : c.note? step = some c') :
    c.chains.length ≤ c'.chains.length := by
  cases step with
  | empty owner =>
      cases noted
      simp [push, listLast]
  | nest index owner =>
      obtain ⟨outer, -, noted⟩ := Option.bind_eq_some_iff.mp noted
      cases noted
      simp [push, listLast]
  | bind index name id target =>
      obtain ⟨scope, -, noted⟩ := Option.bind_eq_some_iff.mp noted
      cases noted
      exact Nat.le_refl _
  | copyWithChild index index' =>
      obtain ⟨outer, -, noted⟩ := Option.bind_eq_some_iff.mp noted
      obtain ⟨inner, -, noted⟩ := Option.bind_eq_some_iff.mp noted
      cases noted
      simp [push, listLast]

/-- Of all steps only binding a name changes what a name stands for in a scope. -/
theorem latest_note {c' : Chronicle} {step : ScopeStep} {i : Nat} {name : Text}
    (noted : c.note? step = some c') (older : i < c.chains.length)
    (bound : ∀ b ∈ c.bound, b.scope < c.chains.length)
    (changed : c'.latest? i name ≠ c.latest? i name) :
    ∃ index id target scope o, step = .bind index name id target ∧
      index.member? c.listed = some scope ∧ c.original? scope = some o ∧ o ∈ c.chain i := by
  cases step with
  | empty owner =>
      cases noted
      exact absurd (latest_push older bound _ name) changed
  | nest index owner =>
      obtain ⟨outer, -, noted⟩ := Option.bind_eq_some_iff.mp noted
      cases noted
      exact absurd (latest_push older bound _ name) changed
  | bind index name' id target =>
      obtain ⟨scope, member, noted⟩ := Option.bind_eq_some_iff.mp noted
      cases noted
      obtain ⟨rfl, o, inChain, sees⟩ := latest_bind changed
      exact ⟨index, id, target, scope, o, rfl, member, sees, inChain⟩
  | copyWithChild index index' =>
      obtain ⟨outer, -, noted⟩ := Option.bind_eq_some_iff.mp noted
      obtain ⟨inner, -, noted⟩ := Option.bind_eq_some_iff.mp noted
      cases noted
      have longer : c.chains.length < (c.push (c.chain outer)).chains.length := by
        rw [length_push]
        exact Nat.lt_succ_self _
      have bound' : ∀ b ∈ c.bound, b.scope < (c.push (c.chain outer)).chains.length :=
        fun b member => Nat.lt_trans (bound b member) longer
      exact absurd ((latest_push (Nat.lt_trans older longer) bound' _ name).trans
        (latest_push older bound _ name)) changed

end Chronicle

/-- Whatever scopes were made, copied and bound before: a scope has the bindings of its original,
    shares them with the scopes of the same original and no others, and sees beyond them what the
    scope around it sees. A name stands for its latest binding in the first of them that has one,
    and for nothing if none of them has. A step changes what a name stands for in a scope only if
    it binds this name in a scope whose original the scope sees. -/
theorem ScopeHistory.scopes_are_environments {steps : List ScopeStep} {h : ScopeHistory}
    (made : ({} : ScopeHistory).follow? steps = some h) :
    ∃ c : Chronicle, ({} : Chronicle).follow? steps = some c ∧ c.listed = h.listed ∧
      (∀ (i : Nat) (s : Scope), h.table.scopes[i]? = some s →
        (∃ o, c.chain i = o :: s.parent.elim [] c.chain) ∧
        (∀ (j : Nat) (s' : Scope), h.table.scopes[j]? = some s' →
          (s'.frame = s.frame ↔ c.original? j = c.original? i)) ∧
        ∀ name, h.table.get? i name = c.latest? i name ∧
          (h.table.get? i name = none ↔
            ∀ b ∈ c.bound, b.name = name → ∀ o ∈ c.chain i, ¬ c.Sees o b)) ∧
      ∀ (step : ScopeStep) (h' : ScopeHistory), h.step? step = some h' →
        ∀ i < h.table.scopes.size, ∀ name, h'.table.get? i name ≠ h.table.get? i name →
          ∃ index id target scope o, step = .bind index name id target ∧
            index.member? h.listed = some scope ∧ c.original? scope = some o ∧ o ∈ c.chain i := by
  obtain ⟨c, told, tells⟩ := Chronicle.tells_nothing.follow made
  have table := tells.table
  refine ⟨c, told, tells.listed, fun i s found => ?_, fun step h' done i inTable name changed => ?_⟩
  · have scope := table.scope found
    have inTable := (Array.getElem?_eq_some_iff.mp found).1
    obtain ⟨o, -, chain⟩ := scope.chain
    refine ⟨⟨o, chain⟩, fun j s' found' => scope.shared found', fun name => ?_⟩
    have get := table.get?_eq_latest inTable name
    exact ⟨get, by rw [get, Chronicle.latest_eq_none]⟩
  · obtain ⟨c', noted, tells'⟩ := tells.step done
    have grown : i < h'.table.scopes.size := by
      rw [← tells'.table.size]
      exact Nat.lt_of_lt_of_le (table.size ▸ inTable) (Chronicle.length_note noted)
    rw [tells'.table.get?_eq_latest grown, table.get?_eq_latest inTable] at changed
    rw [← tells.listed]
    rw [← table.size] at inTable
    exact Chronicle.latest_note noted inTable (table.size ▸ table.bound) changed

namespace ScopeHistory

/-- A scope of an empty object. -/
def sharedOwner : Site :=
  { uri := "file:///x", node := .expr (.object (Range.ofNats 0 0 0 2) [] [] []) }

/-- Two scopes, copies of both with the second inside of the first, and a name that is bound in
    the first scope after that. -/
def sharedSteps : List ScopeStep :=
  [.empty sharedOwner, .empty sharedOwner, .bind 1 (.ofString "b") sharedOwner sharedOwner,
    .copyWithChild 0 1, .bind 0 (.ofString "a") sharedOwner sharedOwner]

/-- The copy sees what was bound later in the scope that the scope around it was copied from. -/
theorem shared_copy_sees_later_binding :
    ∃ h, ({} : ScopeHistory).follow? sharedSteps = some h ∧ h.listed = [0, 1, 3] ∧
      h.table.get? 3 (.ofString "a") = some ⟨.ofString "a", sharedOwner, sharedOwner, 0⟩ := by
  have made : ({} : ScopeHistory).follow? sharedSteps = some _ := rfl
  refine ⟨_, made, rfl, ?_⟩
  obtain ⟨c, told, -, scopes, -⟩ := scopes_are_environments made
  cases told
  obtain ⟨-, -, names⟩ := scopes 3 _ rfl
  exact (names (.ofString "a")).1.trans rfl

end ScopeHistory

end JsonnetNav
