import JsonnetNav.Proofs.NeededCalls

/-! # Collected calls

Searches for the calls of functions share one table. While the calls of a function are being
collected, its list in the table is not complete, and searches that read it see what has been
found until then. All other lists that they read are complete, if no two different functions
need the calls of each other. Then collecting the calls of a function always goes the same
way, and comes to the same list.
-/

namespace JsonnetNav

/-- The lists that the table holds for the functions of a part are complete. -/
def CallerTable.Filled (complete : Site → List Site → Prop) (part : Site → Prop)
    (t : CallerTable) : Prop :=
  ∀ k calls, part k → t.find? k.location = some calls → complete k calls.toList

theorem CallerTable.Within.add (t : CallerTable) (fn : Location) (call : Site) :
    t.Within (t.add fn call) := by
  intro place held
  rw [find?_add]
  split <;> simpa using held

namespace Workspace

open Relation

/-- The functions whose calls are needed for those of a function, besides itself. -/
def Below (w : Workspace) (fn k : Site) : Prop :=
  w.Needs fn k ∧ k ≠ fn

variable {w : Workspace} {reached : Question → Prop}

/-- Different functions that are reached are at different places, and no two of them need the
    calls of each other. -/
structure Layered (w : Workspace) (reached : Question → Prop) : Prop where
  closed : ∀ q q', reached q → w.CanAsk q q' → reached q'
  apart : Apart reached
  straight : ∀ fn fn', reached (.callers fn) → w.Needs fn fn' → w.Needs fn' fn → fn = fn'

theorem Layered.reached_of_needs (layered : w.Layered reached) {fn fn' : Site}
    (isReached : reached (.callers fn)) (needs : w.Needs fn fn') : reached (.callers fn') := by
  have all {q : Question} (leads : ReflTransGen w.CanAsk (.callers fn) q) : reached q := by
    induction leads with
    | refl => exact isReached
    | tail _ asks ih => exact layered.closed _ _ ih asks
  exact all needs

theorem Layered.below_apart (layered : w.Layered reached) {fn k : Site}
    (isReached : reached (.callers fn)) (isBelow : w.Below fn k) : k.location ≠ fn.location := by
  intro same
  have isReached' := layered.reached_of_needs isReached isBelow.1
  exact isBelow.2 (layered.apart k fn isReached' isReached same)

/-- What is below a function needs nothing of it. -/
theorem Layered.below_of_needs (layered : w.Layered reached) {fn k k' : Site}
    (isReached : reached (.callers fn)) (isBelow : w.Below fn k) (needs : w.Needs k k') :
    w.Below fn k' := by
  refine ⟨isBelow.1.trans needs, ?_⟩
  rintro rfl
  exact isBelow.2 (layered.straight _ _ isReached isBelow.1 needs).symm

/-! ## Sound tables -/

/-- Collects the calls of a function into the table. -/
def collectCalls (w : Workspace) (depth : Nat) (fn : Site) : Run Unit :=
  ((w.plan (.callers fn)).run (w.search depth)).fold
    (fun _ call => modify (·.add fn.location call)) ()

/-- The table in which the calls of a function are looked up: they are known already, or they
    are collected first. -/
inductive Ensures (w : Workspace) (depth : Nat) (fn : Site) : CallerTable → CallerTable → Prop where
  | known {t : CallerTable} (held : (t.find? fn.location).isSome) : Ensures w depth fn t t
  | collected {t u : CallerTable} (absent : t.find? fn.location = none)
      (done : w.collectCalls depth fn (t.start fn.location) = .ok ((), u)) :
      Ensures w depth fn t u

theorem ensures_of_search {depth : Nat} {fn : Site} {β : Type} {step : β → Site → Run β} {b b' : β}
    {t t' : CallerTable} (file : fn.demandFile = .ok ())
    (done : (w.search (depth + 1) (.callers fn)).fold step b t = .ok (b', t')) :
    ∃ u, w.Ensures depth fn t u ∧ Search.Reads fn.location step 0 b u b' t' := by
  have shares : w.search (depth + 1) (.callers fn) =
      .sharedCalls (readLimit + depth) fn.location
        ((w.plan (.callers fn)).run (w.search depth)) := by
    rw [search, Question.site, file]
    rfl
  rw [shares, Search.sharedCalls_fold] at done
  split at done
  · rename_i absent
    obtain ⟨⟨_, u⟩, collected, read⟩ := Except.bind_eq_ok.mp done
    exact ⟨u, .collected (Option.isNone_iff_eq_none.mp absent) collected,
      Search.reads_of_readCalls read⟩
  · rename_i present
    exact ⟨t, .known (by simpa [Option.isSome_iff_ne_none] using present),
      Search.reads_of_readCalls done⟩

/-- The complete lists of the functions that are needed, and a list that is being collected. -/
structure Sound (w : Workspace) (complete : Site → List Site → Prop) (fn : Site)
    (t : CallerTable) : Prop where
  below : t.Filled complete (w.Below fn)
  own : ∃ calls, t.find? fn.location = some calls ∧ ∀ call ∈ calls, w.CanFind (.callers fn) call

/-- The table at a later time. Only the lists of functions that are needed have changed. -/
structure Onward (w : Workspace) (fn : Site) (t u : CallerTable) : Prop where
  within : t.Within u
  kept : ∀ place, (∀ k, w.Needs fn k → k.location ≠ place) → u.find? place = t.find? place

theorem Onward.refl (fn : Site) (t : CallerTable) : w.Onward fn t t :=
  ⟨.refl t, fun _ _ => rfl⟩

theorem Onward.trans {fn : Site} {t u v : CallerTable} (one : w.Onward fn t u)
    (two : w.Onward fn u v) : w.Onward fn t v :=
  ⟨one.within.trans two.within, fun place free => (two.kept place free).trans (one.kept place free)⟩

theorem Onward.find_eq (layered : w.Layered reached) {fn k : Site}
    (isReached : reached (.callers fn)) (isReached' : reached (.callers k))
    (free : ¬ w.Needs fn k) {t u : CallerTable} (onward : w.Onward fn t u) :
    u.find? k.location = t.find? k.location := by
  apply onward.kept
  intro k' needs place
  cases layered.apart k' k (layered.reached_of_needs isReached needs) isReached' place
  exact free needs

/-- While the calls of a function are being collected, the table stays sound. -/
def soundness (w : Workspace) (complete : Site → List Site → Prop) (fn : Site) : RunRelation where
  Holds rel run _ := ∀ t b u, w.Sound complete fn t → run t = .ok (b, u) →
    (∃ c, rel b c) ∧ w.Sound complete fn u ∧ w.Onward fn t u
  fail _ _ := by
    intro t b u sound done
    cases done
  pure related := by
    intro t b u sound done
    cases done
    exact ⟨⟨_, related⟩, sound, .refl fn t⟩
  bind first rest := by
    intro t b u sound done
    obtain ⟨⟨a, v⟩, one, two⟩ := Except.bind_eq_ok.mp done
    obtain ⟨⟨c, related⟩, sound, onward⟩ := first t a v sound one
    obtain ⟨result, sound, onward'⟩ := rest a c related v b u sound two
    exact ⟨result, sound, onward.trans onward'⟩

theorem Sound.start {complete : Site → List Site → Prop} {fn : Site} {t : CallerTable}
    (layered : w.Layered reached) (isReached : reached (.callers fn))
    (below : t.Filled complete (w.Below fn)) : w.Sound complete fn (t.start fn.location) := by
  constructor
  · intro k calls isBelow entry
    rw [CallerTable.find?_start, if_neg (layered.below_apart isReached isBelow)] at entry
    exact below k calls isBelow entry
  · exact ⟨#[], by rw [CallerTable.find?_start, if_pos rfl], by simp⟩

theorem Sound.add {complete : Site → List Site → Prop} {fn : Site} {t : CallerTable}
    (layered : w.Layered reached) (isReached : reached (.callers fn))
    (sound : w.Sound complete fn t) {call : Site} (can : w.CanFind (.callers fn) call) :
    w.Sound complete fn (t.add fn.location call) ∧ w.Onward fn t (t.add fn.location call) := by
  obtain ⟨calls, entry, found⟩ := sound.own
  constructor
  · constructor
    · intro k list isBelow entry
      rw [CallerTable.find?_add, if_neg (layered.below_apart isReached isBelow)] at entry
      exact sound.below k list isBelow entry
    · refine ⟨calls.push call, by rw [CallerTable.find?_add, if_pos rfl, entry]; rfl, ?_⟩
      intro call' member
      rcases Array.mem_push.mp member with older | rfl
      · exact found call' older
      · exact can
  · refine ⟨.add t fn.location call, fun place free => ?_⟩
    rw [CallerTable.find?_add, if_neg (free fn .refl).symm]

theorem collectCalls_sound {complete : Site → List Site → Prop} {fn : Site} {depth : Nat}
    (layered : w.Layered reached) (isReached : reached (.callers fn))
    (searches : ∀ q, w.CanAsk (.callers fn) q →
      Search.Related (w.soundness complete fn) (w.CanFind q) (w.search depth q) (w.search depth q))
    {t u : CallerTable} (sound : w.Sound complete fn t)
    (done : w.collectCalls depth fn t = .ok ((), u)) :
    w.Sound complete fn u ∧ w.Onward fn t u := by
  have collects := (keeps_plan (.callers fn)).run searches
  have adds := collects Unit Unit (fun _ _ => True) (fun _ call => modify (·.add fn.location call))
    (fun _ _ => pure ()) (by
      intro _ _ call _ can t _ u sound done
      cases done
      exact ⟨⟨(), trivial⟩, sound.add layered isReached can⟩) () () trivial
  exact (adds t () u sound done).2

/-- Collecting the calls of a function where all lists below are complete gives a complete list. -/
def Closes (w : Workspace) (reached : Question → Prop) (complete : Site → List Site → Prop)
    (depth : Nat) : Prop :=
  ∀ (fn : Site) (t u : CallerTable) (calls : Array Site), reached (.callers fn) →
    t.find? fn.location = none → t.Filled complete (w.Below fn) →
    w.collectCalls depth fn (t.start fn.location) = .ok ((), u) →
    u.find? fn.location = some calls → (∀ call ∈ calls, w.CanFind (.callers fn) call) →
    complete fn calls.toList

/-- The searches for what the calls of a function need keep the table sound. -/
def Maintains (w : Workspace) (reached : Question → Prop) (complete : Site → List Site → Prop)
    (depth : Nat) : Prop :=
  w.Closes reached complete depth ∧ ∀ fn, reached (.callers fn) →
    ∀ q, w.CanAsk (.callers fn) q →
      Search.Related (w.soundness complete fn) (w.CanFind q) (w.search depth q) (w.search depth q)

/-- Looking up the calls of a function leaves complete lists of all functions of a part that is
    closed under what they need. -/
theorem Ensures.complete {complete : Site → List Site → Prop} {depth : Nat}
    (layered : w.Layered reached) (maintains : w.Maintains reached complete depth)
    (part : Site → Prop) (inReach : ∀ k, part k → reached (.callers k))
    (closed : ∀ k k', part k → w.Needs k k' → part k') {fn : Site} (here : part fn)
    {t u : CallerTable} (ensures : w.Ensures depth fn t u) (before : t.Filled complete part) :
    u.Filled complete part ∧ w.Onward fn t u ∧ (u.find? fn.location).isSome := by
  cases ensures with
  | known held => exact ⟨before, .refl fn t, held⟩
  | collected absent done =>
      have isReached := inReach fn here
      have lower : t.Filled complete (w.Below fn) :=
        fun k list isBelow => before k list (closed fn k here isBelow.1)
      have start := Sound.start layered isReached lower
      obtain ⟨sound, onward⟩ :=
        collectCalls_sound layered isReached (maintains.2 fn isReached) start done
      obtain ⟨calls, entry, found⟩ := sound.own
      refine ⟨fun k list is held => ?_, ?_, by rw [entry]; rfl⟩
      · by_cases same : k = fn
        · rw [same] at held ⊢
          rw [entry] at held
          cases held
          exact maintains.1 fn t u calls isReached absent lower done entry found
        · by_cases needs : w.Needs fn k
          · exact sound.below k list ⟨needs, same⟩ held
          · have apart : k.location ≠ fn.location :=
              fun place => same (layered.apart k fn (inReach k is) isReached place)
            rw [onward.find_eq layered isReached (inReach k is) needs, CallerTable.find?_start,
              if_neg apart] at held
            exact before k list is held
      · constructor
        · exact (CallerTable.Within.start t fn.location).trans onward.within
        · intro place free
          rw [onward.kept place free, CallerTable.find?_start, if_neg (free fn .refl).symm]

theorem Ensures.sound {complete : Site → List Site → Prop} {depth : Nat}
    (layered : w.Layered reached) (maintains : w.Maintains reached complete depth) {fn k : Site}
    (isReached : reached (.callers fn)) (needs : w.Needs fn k) {t u : CallerTable}
    (ensures : w.Ensures depth k t u) (sound : w.Sound complete fn t) :
    w.Sound complete fn u ∧ w.Onward fn t u ∧ (u.find? k.location).isSome ∧
      u.find? fn.location = t.find? fn.location := by
  obtain ⟨calls, entry, found⟩ := sound.own
  by_cases same : k = fn
  · -- the function itself is never collected a second time
    cases ensures with
    | known held => exact ⟨sound, .refl fn t, held, rfl⟩
    | collected absent _ =>
        rw [same, entry] at absent
        cases absent
  · obtain ⟨below, onward, held⟩ := ensures.complete layered maintains (w.Below fn)
      (fun k isBelow => layered.reached_of_needs isReached isBelow.1)
      (fun k k' => layered.below_of_needs isReached) ⟨needs, same⟩ sound.below
    have kept : u.find? fn.location = t.find? fn.location := by
      apply onward.find_eq layered (layered.reached_of_needs isReached needs) isReached
      exact fun back => same (layered.straight _ _ isReached needs back).symm
    refine ⟨⟨below, ?_⟩, ?_, held, kept⟩
    · exact ⟨calls, kept.trans entry, found⟩
    · exact ⟨onward.within, fun place free => onward.kept place fun k' needs' =>
        free k' (needs.trans needs')⟩

/-- Complete lists consist of calls that can be found. -/
def Sensible (w : Workspace) (complete : Site → List Site → Prop) : Prop :=
  ∀ fn calls, complete fn calls → ∀ call ∈ calls, w.CanFind (.callers fn) call

theorem Sound.canFind {complete : Site → List Site → Prop} (sensible : w.Sensible complete)
    {fn k : Site} (needs : w.Needs fn k) {t : CallerTable} (sound : w.Sound complete fn t)
    {calls : Array Site} (entry : t.find? k.location = some calls) {call : Site}
    (member : call ∈ calls) : w.CanFind (.callers k) call := by
  by_cases same : k = fn
  · obtain ⟨list, entry', found⟩ := sound.own
    rw [same, entry'] at entry
    cases entry
    rw [same]
    exact found call member
  · have complete := sound.below k calls ⟨needs, same⟩ entry
    exact sensible k calls.toList complete call (Array.mem_toList_iff.mpr member)

theorem sound_of_reads {complete : Site → List Site → Prop} (sensible : w.Sensible complete)
    {fn k : Site} (needs : w.Needs fn k) {β γ : Type} {rel : β → γ → Prop}
    {step : β → Site → Run β} {step' : γ → Site → Run γ}
    (steps : ∀ b c call, rel b c → w.CanFind (.callers k) call →
      (w.soundness complete fn).Holds rel (step b call) (step' c call))
    {index : Nat} {b b' : β} {c : γ} {t u : CallerTable} (related : rel b c)
    (sound : w.Sound complete fn t) (reads : Search.Reads k.location step index b t b' u) :
    (∃ c, rel b' c) ∧ w.Sound complete fn u ∧ w.Onward fn t u := by
  induction reads generalizing c with
  | finish none => exact ⟨⟨c, related⟩, sound, .refl fn _⟩
  | @round index b b₁ b' t t₁ u some read rest ih =>
      have each : ∀ b c, ∀ call ∈ t.callsFrom k.location index, rel b c →
          (w.soundness complete fn).Holds rel (step b call) (step' c call) := by
        intro b c call member related
        obtain ⟨calls, entry, isCall⟩ := CallerTable.mem_of_callsFrom member
        exact steps b c call related (sound.canFind sensible needs entry isCall)
      obtain ⟨⟨c₁, related⟩, sound, onward⟩ :=
        (w.soundness complete fn).foldlM each related t b₁ t₁ sound read
      obtain ⟨result, sound, onward'⟩ := ih related sound
      exact ⟨result, sound, onward.trans onward'⟩

/-- While the calls of a function are being collected, every search for what they need keeps the
    table sound. -/
theorem search_sound {complete : Site → List Site → Prop} (layered : w.Layered reached)
    (sensible : w.Sensible complete) {depth : Nat}
    (closes : ∀ n < depth, w.Closes reached complete n) {fn : Site} {q : Question}
    (isReached : reached (.callers fn)) (leads : ReflTransGen w.CanAsk (.callers fn) q) :
    Search.Related (w.soundness complete fn) (w.CanFind q) (w.search depth q)
      (w.search depth q) := by
  induction depth generalizing fn q with
  | zero => exact .fail .tooDeep
  | succ depth ih =>
      have fewer : ∀ n < depth, w.Closes reached complete n :=
        fun n less => closes n (by omega)
      have planned := (keeps_plan q).run fun q' asks => ih fewer isReached (leads.tail asks)
      have maintains : w.Maintains reached complete depth :=
        ⟨closes depth depth.lt_succ_self, fun k isReached q' asks =>
          ih fewer isReached (.single asks)⟩
      cases file : q.site.demandFile with
      | error e =>
          rw [search, file]
          exact .fail e
      | ok _ =>
          cases q with
          | callers k =>
              intro β γ rel step step' steps b c related t b' u sound done
              obtain ⟨v, ensures, reads⟩ := ensures_of_search file done
              obtain ⟨sound, onward, -⟩ := ensures.sound layered maintains isReached leads sound
              obtain ⟨result, sound, onward'⟩ :=
                sound_of_reads sensible leads steps related sound reads
              exact ⟨result, sound, onward.trans onward'⟩
          | _ =>
              rw [search, file]
              exact planned

theorem maintains_of_closes {complete : Site → List Site → Prop} (layered : w.Layered reached)
    (sensible : w.Sensible complete) {depth : Nat}
    (closes : ∀ n ≤ depth, w.Closes reached complete n) : w.Maintains reached complete depth :=
  ⟨closes depth (by omega), fun _ isReached _ asks => search_sound layered sensible
    (fun n less => closes n (by omega)) isReached (.single asks)⟩

/-! ## Two ways to the same calls -/

/-- The calls of a function as they are collected where all lists below have been collected in
    this way. -/
inductive Collected (w : Workspace) : Site → List Site → Prop where
  | intro {fn : Site} {depth : Nat} {t u : CallerTable} {calls : Array Site}
      (absent : t.find? fn.location = none)
      (below : t.Filled (Collected w) (w.Below fn))
      (done : w.collectCalls depth fn (t.start fn.location) = .ok ((), u))
      (entry : u.find? fn.location = some calls)
      (found : ∀ call ∈ calls, w.CanFind (.callers fn) call) : Collected w fn calls.toList

/-- The list is what the calls of a function are always collected as. -/
structure Settled (w : Workspace) (fn : Site) (calls : List Site) : Prop where
  found : ∀ call ∈ calls, w.CanFind (.callers fn) call
  only : ∀ calls', w.Collected fn calls' → calls' = calls

theorem sensible_settled : w.Sensible w.Settled :=
  fun _ _ settled => settled.found

theorem sensible_collected : w.Sensible w.Collected := by
  intro fn calls collected
  cases collected with
  | intro _ _ _ _ found => exact fun call member => found call (Array.mem_toList_iff.mp member)

theorem closes_collected (depth : Nat) : w.Closes reached w.Collected depth :=
  fun _ _ _ _ _ absent below done entry found => .intro absent below done entry found

/-- Two tables while the calls of a function are being collected twice. -/
structure Paired (w : Workspace) (fn : Site) (t t' : CallerTable) : Prop where
  left : w.Sound w.Settled fn t
  right : w.Sound w.Collected fn t'
  same : t.find? fn.location = t'.find? fn.location

/-- Computations that, if both of them succeed, lead from such tables to such tables. -/
def lockstep (w : Workspace) (fn : Site) : RunRelation where
  Holds rel run run' := ∀ t t' b u c u', w.Paired fn t t' → run t = .ok (b, u) →
    run' t' = .ok (c, u') → rel b c ∧ w.Paired fn u u' ∧ t.Within u ∧ t'.Within u'
  fail _ _ := by
    intro t t' b u c u' paired done
    cases done
  pure related := by
    intro t t' b u c u' paired done done'
    cases done
    cases done'
    exact ⟨related, paired, .refl t, .refl t'⟩
  bind first rest := by
    intro t t' b u c u' paired done done'
    obtain ⟨⟨b₁, v⟩, one, two⟩ := Except.bind_eq_ok.mp done
    obtain ⟨⟨c₁, v'⟩, one', two'⟩ := Except.bind_eq_ok.mp done'
    obtain ⟨related, paired, within, within'⟩ := first t t' b₁ v c₁ v' paired one one'
    obtain ⟨result, paired, more, more'⟩ := rest b₁ c₁ related v v' b u c u' paired two two'
    exact ⟨result, paired, within.trans more, within'.trans more'⟩

/-- Both tables hold the same list of a function that is needed, if both hold one. -/
theorem Paired.find_eq {fn k : Site} {t t' : CallerTable} (paired : w.Paired fn t t')
    (needs : w.Needs fn k) (held : (t.find? k.location).isSome)
    (held' : (t'.find? k.location).isSome) : t.find? k.location = t'.find? k.location := by
  by_cases isOwn : k = fn
  · rw [isOwn]
    exact paired.same
  · obtain ⟨calls, entry⟩ := Option.isSome_iff_exists.mp held
    obtain ⟨calls', entry'⟩ := Option.isSome_iff_exists.mp held'
    have settled := paired.left.below k calls ⟨needs, isOwn⟩ entry
    have collected := paired.right.below k calls' ⟨needs, isOwn⟩ entry'
    rw [entry, entry', Array.toList_inj.mp (settled.only _ collected)]

theorem Paired.callsFrom_eq {fn k : Site} {t t' : CallerTable} (paired : w.Paired fn t t')
    (needs : w.Needs fn k) (held : (t.find? k.location).isSome)
    (held' : (t'.find? k.location).isSome) (index : Nat) :
    t.callsFrom k.location index = t'.callsFrom k.location index := by
  rw [CallerTable.callsFrom, CallerTable.callsFrom, paired.find_eq needs held held']

theorem lockstep_of_reads {fn k : Site} (needs : w.Needs fn k) {β γ : Type} {rel : β → γ → Prop}
    {step : β → Site → Run β} {step' : γ → Site → Run γ}
    (steps : ∀ b c call, rel b c → w.CanFind (.callers k) call →
      (w.lockstep fn).Holds rel (step b call) (step' c call))
    {index : Nat} {b b' : β} {c c' : γ} {t t' u u' : CallerTable} (related : rel b c)
    (paired : w.Paired fn t t') (held : (t.find? k.location).isSome)
    (held' : (t'.find? k.location).isSome)
    (reads : Search.Reads k.location step index b t b' u)
    (reads' : Search.Reads k.location step' index c t' c' u') :
    rel b' c' ∧ w.Paired fn u u' ∧ t.Within u ∧ t'.Within u' := by
  induction reads generalizing c t' with
  | @finish index b t none =>
      have same := paired.callsFrom_eq needs held held' index
      cases reads' with
      | finish none' => exact ⟨related, paired, .refl _, .refl _⟩
      | round some' _ _ => exact absurd (same.symm.trans none) some'
  | @round index b b₁ b' t t₁ u some read rest ih =>
      have same := paired.callsFrom_eq needs held held' index
      cases reads' with
      | finish none' => exact absurd (same.trans none') some
      | @round _ _ c₁ _ _ t₁' _ some' read' rest' =>
          have each : ∀ b c, ∀ call ∈ t.callsFrom k.location index, rel b c →
              (w.lockstep fn).Holds rel (step b call) (step' c call) := by
            intro b c call member related
            obtain ⟨calls, entry, isCall⟩ := CallerTable.mem_of_callsFrom member
            exact steps b c call related (paired.left.canFind sensible_settled needs entry isCall)
          rw [← same] at read' rest'
          obtain ⟨related, paired, within, within'⟩ :=
            (w.lockstep fn).foldlM each related t t' b₁ t₁ c₁ t₁' paired read read'
          obtain ⟨result, paired, more, more'⟩ :=
            ih related paired (within _ held) (within' _ held') rest'
          exact ⟨result, paired, within.trans more, within'.trans more'⟩

/-- Two searches for what the calls of a function need hand over the same finds. -/
theorem search_lockstep (layered : w.Layered reached) {depth : Nat}
    (closes : ∀ n < depth, w.Closes reached w.Settled n) (depth' : Nat) {fn : Site} {q : Question}
    (isReached : reached (.callers fn)) (leads : ReflTransGen w.CanAsk (.callers fn) q) :
    Search.Related (w.lockstep fn) (w.CanFind q) (w.search depth q) (w.search depth' q) := by
  induction depth generalizing depth' q with
  | zero =>
      intro β γ rel step step' steps b c related t t' b' u c' u' paired done
      cases done
  | succ depth ih =>
      cases depth' with
      | zero =>
          intro β γ rel step step' steps b c related t t' b' u c' u' paired done done'
          cases done'
      | succ depth' =>
          have fewer : ∀ n < depth, w.Closes reached w.Settled n :=
            fun n less => closes n (by omega)
          have planned := (keeps_plan q).run fun q' asks => ih fewer depth' (leads.tail asks)
          have maintains : w.Maintains reached w.Settled depth :=
            maintains_of_closes layered sensible_settled fun n le => closes n (by omega)
          have maintains' : w.Maintains reached w.Collected depth' :=
            maintains_of_closes layered sensible_collected fun n _ => closes_collected n
          cases file : q.site.demandFile with
          | error e =>
              rw [search, search, file]
              exact .fail e
          | ok _ =>
              cases q with
              | callers k =>
                  intro β γ rel step step' steps b c related t t' b' u c' u' paired done done'
                  obtain ⟨v, ensures, reads⟩ := ensures_of_search file done
                  obtain ⟨v', ensures', reads'⟩ := ensures_of_search file done'
                  obtain ⟨left, onward, held, kept⟩ :=
                    ensures.sound layered maintains isReached leads paired.left
                  obtain ⟨right, onward', held', kept'⟩ :=
                    ensures'.sound layered maintains' isReached leads paired.right
                  -- what is read from now on is the same on both sides
                  have ready : w.Paired fn v v' :=
                    ⟨left, right, by rw [kept, kept', paired.same]⟩
                  obtain ⟨result, paired, more, more'⟩ :=
                    lockstep_of_reads leads steps related ready held held' reads reads'
                  exact ⟨result, paired, onward.within.trans more, onward'.within.trans more'⟩
              | _ =>
                  rw [search, search, file]
                  exact planned

theorem Paired.add {fn : Site} {t t' : CallerTable} (layered : w.Layered reached)
    (isReached : reached (.callers fn)) (paired : w.Paired fn t t') {call : Site}
    (can : w.CanFind (.callers fn) call) :
    w.Paired fn (t.add fn.location call) (t'.add fn.location call) ∧
      t.Within (t.add fn.location call) ∧ t'.Within (t'.add fn.location call) := by
  obtain ⟨left, onward⟩ := paired.left.add layered isReached can
  obtain ⟨right, onward'⟩ := paired.right.add layered isReached can
  refine ⟨⟨left, right, ?_⟩, onward.within, onward'.within⟩
  rw [CallerTable.find?_add, CallerTable.find?_add, paired.same]

/-- However the calls of a function are collected, the list is the same. -/
theorem closes_settled (layered : w.Layered reached) (depth : Nat) :
    w.Closes reached w.Settled depth := by
  induction depth using Nat.strong_induction_on with
  | _ depth ih =>
      intro fn t u calls isReached absent below done entry found
      refine ⟨fun call member => found call (Array.mem_toList_iff.mp member), ?_⟩
      intro calls' collected
      cases collected with
      | @intro _ depth' t' u' calls' absent' below' done' entry' found' =>
          -- both start with an empty list and add the same calls in the same order
          have start : w.Paired fn (t.start fn.location) (t'.start fn.location) :=
            ⟨.start layered isReached below, .start layered isReached below', by
              rw [CallerTable.find?_start, CallerTable.find?_start, if_pos rfl, if_pos rfl]⟩
          have collects := (keeps_plan (.callers fn)).run fun q asks =>
            search_lockstep layered ih depth' isReached (.single asks)
          have adds := collects Unit Unit (fun _ _ => True)
            (fun _ call => modify (·.add fn.location call))
            (fun _ call => modify (·.add fn.location call)) (by
              intro _ _ call _ can t t' _ u _ u' paired done done'
              cases done
              cases done'
              exact ⟨trivial, paired.add layered isReached can⟩) () () trivial
          obtain ⟨-, paired, -⟩ := adds _ _ () u () u' start done done'
          have same := paired.same
          rw [entry, entry'] at same
          cases same
          rfl

end Workspace

end JsonnetNav
