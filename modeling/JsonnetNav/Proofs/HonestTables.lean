import JsonnetNav.Proofs.SharedCalls

/-! # What a search that succeeds has found

If a search succeeds from a table in which every list of calls is complete, then its
question has an answer, and this is what was found. It does not matter what is done with
the finds, as long as that leaves such a table behind. This needs that the calls of a
function are not asked for while they are being collected.
-/

namespace JsonnetNav

namespace Workspace

open Filter Relation

variable {w : Workspace} {reached : Question → Prop} {collecting : Location → Prop} {α β γ : Type}

/-- The lists of calls in the table are complete, but for those that are being collected. -/
def Honest (w : Workspace) (reached : Question → Prop) (collecting : Location → Prop)
    (t : CallerTable) : Prop :=
  ∀ fn calls, reached (.callers fn) → ¬ collecting fn.location →
    t.find? fn.location = some calls → w.Finds (.callers fn) calls.toList

/-- A table at a later time, when more lists of calls may have been completed. -/
structure Later (w : Workspace) (reached : Question → Prop) (collecting : Location → Prop)
    (t t' : CallerTable) : Prop where
  honest : w.Honest reached collecting t'
  within : t.Within t'
  kept : ∀ fn, collecting fn → t'.find? fn = t.find? fn

/-- What holds all the way through a search, of the finds so far, of what was made of them
    and of the table. -/
structure Invariant (w : Workspace) (reached : Question → Prop) (collecting : Location → Prop)
    (hands : α → Prop) (step : β → α → Run β) (holds : List α → β → CallerTable → Prop) :
    Prop where
  honest : ∀ {found b t}, holds found b t → w.Honest reached collecting t
  later : ∀ {found b t t'}, holds found b t → w.Later reached collecting t t' → holds found b t'
  step : ∀ {found b t x b' t'}, hands x → holds found b t → step b x t = .ok (b', t') →
    holds (found ++ [x]) b' t' ∧ t.Within t'

/-- Whenever the search succeeds, it hands over finds that together are a list of the given
    kind. -/
def Yields (w : Workspace) (reached : Question → Prop) (collecting : Location → Prop)
    (hands : α → Prop) (gives : List α → Prop) (search : Search α) : Prop :=
  ∀ (β : Type) (step : β → α → Run β) (holds : List α → β → CallerTable → Prop),
    w.Invariant reached collecting hands step holds → ∀ b t b' t', holds [] b t →
      search.fold step b t = .ok (b', t') → ∃ l, gives l ∧ holds l b' t'

namespace Invariant

variable {hands hands' : α → Prop} {step : β → α → Run β}
  {holds : List α → β → CallerTable → Prop}

theorem weaken (invariant : w.Invariant reached collecting hands step holds)
    (fewer : ∀ x, hands' x → hands x) : w.Invariant reached collecting hands' step holds where
  honest := invariant.honest
  later := invariant.later
  step handed := invariant.step (fewer _ handed)

/-- The rest of a search, after some finds. -/
theorem after (invariant : w.Invariant reached collecting hands step holds) (l : List α) :
    w.Invariant reached collecting hands step fun found => holds (l ++ found) where
  honest := invariant.honest
  later := invariant.later
  step handed held done := by
    rw [← List.append_assoc]
    exact invariant.step handed held done

/-- The table grows all the way. -/
theorem within (invariant : w.Invariant reached collecting hands step holds) (t : CallerTable) :
    w.Invariant reached collecting hands step fun found b t' => holds found b t' ∧ t.Within t' where
  honest held := invariant.honest held.1
  later held later := ⟨invariant.later held.1 later, held.2.trans later.within⟩
  step handed held done := by
    obtain ⟨next, within⟩ := invariant.step handed held.1 done
    exact ⟨⟨next, held.2.trans within⟩, within⟩

end Invariant

namespace Yields

variable {hands hands' : α → Prop} {gives gives' : List α → Prop}

theorem imp {search : Search α} (yields : w.Yields reached collecting hands gives search)
    (handed : ∀ x, hands x → hands' x) (given : ∀ l, gives l → gives' l) :
    w.Yields reached collecting hands' gives' search := by
  intro β step holds invariant b t b' t' start done
  obtain ⟨l, is, held⟩ := yields β step holds (invariant.weaken handed) b t b' t' start done
  exact ⟨l, given l is, held⟩

theorem fail (error : QueryError) : w.Yields reached collecting hands gives (.fail error) := by
  intro β step holds invariant b t b' t' start done
  cases done

theorem each (xs : List α) :
    w.Yields reached collecting (· ∈ xs) (· = xs) (.each xs) := by
  induction xs with
  | nil =>
      intro β step holds invariant b t b' t' start done
      cases done
      exact ⟨[], rfl, start⟩
  | cons y ys ih =>
      intro β step holds invariant b t b' t' start done
      have split : (step b y >>= fun b => ys.foldlM step b) t = .ok (b', t') := by
        rw [← List.foldlM_cons]
        exact done
      obtain ⟨⟨b₁, t₁⟩, one, rest⟩ := Except.bind_eq_ok.mp split
      obtain ⟨held, -⟩ := invariant.step List.mem_cons_self start one
      have later := (invariant.weaken fun x => List.mem_cons_of_mem y).after [y]
      obtain ⟨l, is, held⟩ := ih β step _ later b₁ t₁ b' t' held rest
      exact ⟨y :: l, congrArg (y :: ·) is, held⟩

theorem append {first second : Search α} {firstHands secondHands : α → Prop}
    {firstGives secondGives : List α → Prop}
    (one : w.Yields reached collecting firstHands firstGives first)
    (two : w.Yields reached collecting secondHands secondGives second) :
    w.Yields reached collecting (fun x => firstHands x ∨ secondHands x)
      (fun l => ∃ xs ys, firstGives xs ∧ secondGives ys ∧ l = xs ++ ys) (.append first second) := by
  intro β step holds invariant b t b' t' start done
  obtain ⟨⟨b₁, t₁⟩, done₁, done₂⟩ := Except.bind_eq_ok.mp done
  obtain ⟨xs, left, held⟩ := one β step holds (invariant.weaken fun x => .inl) b t b₁ t₁ start done₁
  have later := (invariant.weaken fun x => .inr).after xs
  rw [← List.append_nil xs] at held
  obtain ⟨ys, right, held⟩ := two β step _ later b₁ t₁ b' t' held done₂
  exact ⟨xs ++ ys, ⟨xs, ys, left, right, rfl⟩, held⟩

theorem bind {search : Search α} {next : α → Search β} {nextHands : α → β → Prop}
    {nextGives : α → List β → Prop} (first : w.Yields reached collecting hands gives search)
    (rest : ∀ x, hands x → w.Yields reached collecting (nextHands x) (nextGives x) (next x)) :
    w.Yields reached collecting (fun y => ∃ x, hands x ∧ nextHands x y)
      (fun l => ∃ xs ls, gives xs ∧ List.Forall₂ nextGives xs ls ∧ l = ls.flatten)
      (search >>= next) := by
  intro γ step holds invariant b t b' t' start done
  -- what was made of the finds so far is what was made of a list for each of them
  let joined (found : List α) (b : γ) (t : CallerTable) : Prop :=
    ∃ ls, List.Forall₂ nextGives found ls ∧ holds ls.flatten b t
  have outer : w.Invariant reached collecting hands (fun b x => (next x).fold step b) joined := by
    constructor
    · rintro found b t ⟨ls, -, held⟩
      exact invariant.honest held
    · rintro found b t t' ⟨ls, given, held⟩ later
      exact ⟨ls, given, invariant.later held later⟩
    · rintro found b t x b' t' handed ⟨ls, given, held⟩ done
      have inner := ((invariant.weaken fun y nextHanded => ⟨x, handed, nextHanded⟩).after
        ls.flatten).within t
      rw [← List.append_nil ls.flatten] at held
      obtain ⟨l, is, held, within⟩ :=
        rest x handed γ step _ inner b t b' t' ⟨held, .refl t⟩ done
      constructor
      · refine ⟨ls ++ [l], List.rel_append given (.cons is .nil), ?_⟩
        simpa using held
      · exact within
  obtain ⟨xs, is, ls, given, held⟩ := first γ _ joined outer b t b' t' ⟨[], .nil, start⟩ done
  exact ⟨ls.flatten, ⟨xs, ls, is, given, rfl⟩, held⟩

theorem toList {search : Search α} (yields : w.Yields reached collecting hands gives search)
    {holds : CallerTable → Prop} (honest : ∀ {t}, holds t → w.Honest reached collecting t)
    (later : ∀ {t t'}, holds t → w.Later reached collecting t t' → holds t')
    {t t' : CallerTable} {xs : List α} (start : holds t) (done : search.toList t = .ok (xs, t')) :
    gives xs ∧ holds t' := by
  obtain ⟨⟨array, t₁⟩, collected, same⟩ := Except.bind_eq_ok.mp done
  cases same
  have pushes : w.Invariant reached collecting hands (fun found x => pure (found.push x))
      fun found (array : Array α) t => array.toList = found ∧ holds t := by
    constructor
    · intro found array t held
      exact honest held.2
    · intro found array t t' held more
      exact ⟨held.1, later held.2 more⟩
    · intro found array t x array' t' handed held done
      cases done
      exact ⟨⟨by rw [Array.toList_push, held.1], held.2⟩, .refl t⟩
  obtain ⟨_, given, rfl, held⟩ := yields _ _ _ pushes #[] t array t' ⟨rfl, start⟩ collected
  exact ⟨given, held⟩

theorem gather {search : Search α} {next : List α → Search β} {nextHands : List α → β → Prop}
    {nextGives : List α → List β → Prop} (first : w.Yields reached collecting hands gives search)
    (rest : ∀ xs, gives xs → w.Yields reached collecting (nextHands xs) (nextGives xs) (next xs)) :
    w.Yields reached collecting (fun y => ∃ xs, gives xs ∧ nextHands xs y)
      (fun l => ∃ xs, gives xs ∧ nextGives xs l) (.ofRun search.toList >>= next) := by
  intro γ step holds invariant b t b' t' start done
  obtain ⟨⟨xs, t₁⟩, collected, done⟩ := Except.bind_eq_ok.mp done
  obtain ⟨is, held⟩ := first.toList invariant.honest invariant.later start collected
  obtain ⟨l, given, held⟩ := rest xs is γ step holds
    (invariant.weaken fun y handed => ⟨xs, is, handed⟩) b t₁ b' t' held done
  exact ⟨l, ⟨xs, is, given⟩, held⟩

end Yields

/-- A plan yields what it gives if the searches for its questions yield the answers. -/
theorem plan_yields {search : (q : Question) → Search q.Find} (p : Plan α)
    (asked : ∀ q, p.Asks w.Hands w.Finds q →
      w.Yields reached collecting (w.Hands q) (w.Finds q) (search q)) :
    w.Yields reached collecting (p.Hands w.Hands w.Finds) (w.Gives p) (p.run search) := by
  induction p with
  | found xs =>
      apply (Yields.each xs).imp
      · exact fun x mem => mem
      · rintro l rfl
        exact ⟨0, rfl⟩
  | fail e => exact .fail e
  | forEach xs next ih =>
      apply (Yields.bind (.each xs) fun x mem => ih x fun q asks => asked q ⟨x, mem, asks⟩).imp
      · exact fun x handed => handed
      · rintro l ⟨xs, ls, rfl, given, rfl⟩
        exact (eventually_flatMapM given).exists
  | ask q next ih =>
      apply (Yields.bind (asked q (.inl rfl)) fun x handed =>
        ih x fun q' asks => asked q' (.inr ⟨x, handed, asks⟩)).imp
      · exact fun x handed => handed
      · rintro l ⟨xs, ls, found, given, rfl⟩
        obtain ⟨depth, first, rest⟩ := (found.eventually.and (eventually_flatMapM given)).exists
        exact ⟨depth, by rw [Plan.value, first]; exact rest⟩
  | gather q next ih =>
      apply (Yields.gather (asked q (.inl rfl)) fun xs found =>
        ih xs fun q' asks => asked q' (.inr ⟨xs, found, asks⟩)).imp
      · exact fun x handed => handed
      · rintro l ⟨xs, found, given⟩
        obtain ⟨depth, first, rest⟩ := (found.eventually.and given.eventually).exists
        exact ⟨depth, by rw [Plan.value, first]; exact rest⟩
  | append first second ihFirst ihSecond =>
      apply (Yields.append (ihFirst fun q asks => asked q (.inl asks))
        (ihSecond fun q asks => asked q (.inr asks))).imp
      · exact fun x handed => handed
      · rintro l ⟨xs, ys, left, right, rfl⟩
        obtain ⟨depth, one, two⟩ := (left.eventually.and right.eventually).exists
        exact ⟨depth, by rw [Plan.value, one, two]; rfl⟩

/-- A list of calls that is complete stays in the table. -/
theorem Honest.complete {t t' : CallerTable} (honest : w.Honest reached collecting t')
    (within : t.Within t') {fn : Site} {l : List Site} (isReached : reached (.callers fn))
    (free : ¬ collecting fn.location) (found : w.Finds (.callers fn) l)
    (entry : t.find? fn.location = some l.toArray) :
    t'.find? fn.location = some l.toArray := by
  have present := within fn.location (by rw [entry]; rfl)
  obtain ⟨calls, entry'⟩ := Option.isSome_iff_exists.mp present
  have found' := honest fn calls isReached free entry'
  cases finds_unique found found'
  exact entry'

/-- Reading a complete list of calls from an index on. -/
theorem holds_of_reads {fn : Site} {step : β → Site → Run β}
    {holds : List Site → β → CallerTable → Prop}
    (invariant : w.Invariant reached collecting (w.Hands (.callers fn)) step holds)
    (isReached : reached (.callers fn)) (free : ¬ collecting fn.location) {l : List Site}
    (found : w.Finds (.callers fn) l) (index : Nat) {b b' : β} {t t' : CallerTable}
    (held : holds (l.take index) b t) (entry : t.find? fn.location = some l.toArray)
    (reads : Search.Reads fn.location step index b t b' t') : holds l b' t' := by
  induction reads with
  | finish none =>
      rw [CallerTable.callsFrom_eq entry, List.drop_eq_nil_iff] at none
      rwa [List.take_of_length_le none] at held
  | @round index b b₁ b' t t₁ u some read rest ih =>
      have calls : t.callsFrom fn.location index = l.drop index := CallerTable.callsFrom_eq entry _
      rw [calls] at read ih
      have handed : ∀ call ∈ l.drop index, w.Hands (.callers fn) call := fun call member =>
        (found.answers.hands_iff call).mpr (List.mem_of_mem_drop member)
      have onward := ((invariant.after (l.take index)).within t).weaken handed
      rw [← List.append_nil (l.take index)] at held
      obtain ⟨_, rfl, held, within⟩ :=
        Yields.each (l.drop index) β step _ onward b t b₁ t₁ ⟨held, .refl t⟩ read
      rw [List.take_append_drop] at held
      refine ih ?_ ((invariant.honest held).complete within isReached free found entry)
      rwa [List.take_of_length_le (by rw [List.length_drop]; omega)]

/-- The calls of a function are asked for again only after they are collected, functions
    that are asked about are at different places, and what is asked is within reach. -/
structure Orderly (w : Workspace) (reached : Question → Prop) : Prop where
  closed : ∀ q q', reached q → w.Asks q q' → reached q'
  apart : Apart reached
  noRing : ∀ fn q, reached (.callers fn) → w.Asks (.callers fn) q →
    ¬ ReflTransGen w.Asks q (.callers fn)

theorem Orderly.reached_of_leads (orderly : w.Orderly reached) {q q' : Question}
    (isReached : reached q) (leads : ReflTransGen w.Asks q q') : reached q' := by
  induction leads with
  | refl => exact isReached
  | tail _ asks ih => exact orderly.closed _ _ ih asks

/-- No calls that are asked for behind the question are being collected. -/
def Free (w : Workspace) (collecting : Location → Prop) (q : Question) : Prop :=
  ∀ fn, ReflTransGen w.Asks q (.callers fn) → ¬ collecting fn.location

/-- What holds while the calls of a function are being collected, from a table on. -/
structure Collects (w : Workspace) (reached : Question → Prop) (collecting : Location → Prop)
    (fn : Location) (t : CallerTable) (found : List Site) (u : CallerTable) : Prop where
  honest : w.Honest reached (fun place => collecting place ∨ place = fn) u
  within : t.Within u
  kept : ∀ place, collecting place → u.find? place = t.find? place
  entry : u.find? fn = some found.toArray

theorem Collects.start {fn : Location} (free : ¬ collecting fn) {t : CallerTable}
    (honest : w.Honest reached collecting t) :
    w.Collects reached collecting fn t [] (t.start fn) where
  honest fn' calls isReached free' entry := by
    have other : fn'.location ≠ fn := fun same => free' (.inr same)
    rw [CallerTable.find?_start, if_neg other] at entry
    exact honest fn' calls isReached (fun busy => free' (.inl busy)) entry
  within := .start t fn
  kept place busy := by
    have other : place ≠ fn := by
      rintro rfl
      exact free busy
    rw [CallerTable.find?_start, if_neg other]
  entry := by rw [CallerTable.find?_start, if_pos rfl]

theorem Collects.invariant {fn : Location} (free : ¬ collecting fn) (t : CallerTable)
    (hands : Site → Prop) :
    w.Invariant reached (fun place => collecting place ∨ place = fn) hands
      (fun _ call => modify (·.add fn call))
      fun found (_ : Unit) u => w.Collects reached collecting fn t found u where
  honest collects := collects.honest
  later collects later := by
    constructor
    · exact later.honest
    · exact collects.within.trans later.within
    · intro place busy
      rw [later.kept place (.inl busy), collects.kept place busy]
    · rw [later.kept fn (.inr rfl), collects.entry]
  step {found _ u call _ u'} _ collects done := by
    cases done
    have within : u.Within (u.add fn call) := by
      intro place held
      rw [CallerTable.find?_add]
      split <;> simpa using held
    constructor
    · constructor
      · intro fn' calls isReached free' entry
        have other : fn'.location ≠ fn := fun same => free' (.inr same)
        rw [CallerTable.find?_add, if_neg other] at entry
        exact collects.honest fn' calls isReached free' entry
      · exact collects.within.trans within
      · intro place busy
        have other : place ≠ fn := by
          rintro rfl
          exact free busy
        rw [CallerTable.find?_add, if_neg other, collects.kept place busy]
      · rw [CallerTable.find?_add, if_pos rfl, collects.entry]
        simp
    · exact within

/-- Once all calls of a function are collected, the table is honest again. -/
theorem Collects.later {fn : Site} {t u : CallerTable} {l : List Site}
    (collects : w.Collects reached collecting fn.location t l u) (apart : Apart reached)
    (isReached : reached (.callers fn)) (found : w.Finds (.callers fn) l) :
    w.Later reached collecting t u where
  honest fn' calls isReached' free entry := by
    by_cases same : fn'.location = fn.location
    · cases apart fn' fn isReached' isReached same
      rw [collects.entry] at entry
      cases entry
      exact found
    · refine collects.honest fn' calls isReached' ?_ entry
      rintro (busy | place)
      · exact free busy
      · exact same place
  within := collects.within
  kept := collects.kept

theorem sharedCalls_yields {fn : Site} {rounds : Nat} {collect : Search Site}
    (apart : Apart reached) (isReached : reached (.callers fn)) (free : ¬ collecting fn.location)
    {hands : Site → Prop}
    (collects : w.Yields reached (fun place => collecting place ∨ place = fn.location) hands
      (w.Finds (.callers fn)) collect) :
    w.Yields reached collecting (w.Hands (.callers fn)) (w.Finds (.callers fn))
      (.sharedCalls rounds fn.location collect) := by
  intro β step holds invariant b t b' t' start done
  rw [Search.sharedCalls_fold] at done
  cases entry : t.find? fn.location with
  | some calls =>
      rw [entry] at done
      have found := invariant.honest start fn calls isReached free entry
      exact ⟨calls.toList, found, holds_of_reads invariant isReached free found 0 start entry
        (Search.reads_of_readCalls done)⟩
  | none =>
      rw [entry] at done
      obtain ⟨⟨_, u⟩, collected, done⟩ := Except.bind_eq_ok.mp done
      obtain ⟨l, found, complete⟩ := collects Unit _ _ (Collects.invariant free t hands) () _ () u
        (.start free (invariant.honest start)) collected
      have held := invariant.later start (complete.later apart isReached found)
      exact ⟨l, found, holds_of_reads invariant isReached free found 0 held complete.entry
        (Search.reads_of_readCalls done)⟩

/-- A search that succeeds has found the answer to its question. -/
theorem search_yields (orderly : w.Orderly reached) (depth : Nat) {q : Question}
    (isReached : reached q) (free : w.Free collecting q) :
    w.Yields reached collecting (w.Hands q) (w.Finds q) (w.search depth q) := by
  -- below a question for calls one more function is being collected, so `collecting` varies
  induction depth generalizing q collecting with
  | zero => exact .fail .tooDeep
  | succ depth ih =>
      cases file : q.site.demandFile with
      | error e =>
          rw [search, file]
          exact .fail e
      | ok _ =>
          have planned {collecting : Location → Prop}
              (free : ∀ q', w.Asks q q' → w.Free collecting q') :
              w.Yields reached collecting (w.Hands q) (w.Finds q)
                ((w.plan q).run (w.search depth)) := by
            apply (plan_yields (w.plan q) fun q' asks =>
              ih (orderly.closed q q' isReached asks) (free q' asks)).imp
            · exact fun x handed => (hands_step q x).mpr ⟨file, handed⟩
            · exact fun l gives => (finds_step q l).mpr ⟨file, gives⟩
          have later (q') (asks : w.Asks q q') : w.Free collecting q' :=
            fun fn leads => free fn (.head asks leads)
          rw [search, file]
          cases q with
          | callers fn =>
              apply sharedCalls_yields orderly.apart isReached (free fn .refl)
              apply planned
              rintro q' asks fn' leads (busy | same)
              · exact later q' asks fn' leads busy
              · -- the list that is being filled would be read, which takes a ring of questions
                have isReached' := orderly.reached_of_leads isReached (.head asks leads)
                cases orderly.apart fn' fn isReached' isReached same
                exact orderly.noRing fn q' isReached asks leads
          | scopes s => exact planned later
          | fns s => exact planned later
          | fields ref => exact planned later

/-- What a plan has found if it succeeds is what it finds on plain lists. -/
theorem gives_of_results {p : Plan α} (apart : Apart (w.Behind p))
    (noRing : ∀ fn q, w.Behind p (.callers fn) → w.Asks (.callers fn) q →
      ¬ ReflTransGen w.Asks q (.callers fn)) {depth : Nat} {l : List α}
    (done : (p.run (w.search depth)).results = .ok l) : w.Gives p l := by
  have orderly : w.Orderly (w.Behind p) := by
    constructor
    · rintro q q' ⟨first, asked, leads⟩ asks
      exact ⟨first, asked, leads.tail asks⟩
    · exact apart
    · exact noRing
  have yields : w.Yields (w.Behind p) (fun _ => False) (p.Hands w.Hands w.Finds) (w.Gives p)
      (p.run (w.search depth)) :=
    plan_yields p fun q asks => search_yields orderly depth ⟨q, asks, .refl⟩ fun _ _ => id
  have empty : w.Honest (w.Behind p) (fun _ => False) [] := by
    intro fn calls _ _ entry
    cases entry
  rw [Search.results, StateT.run'] at done
  cases collected : (p.run (w.search depth)).toList [] with
  | error e =>
      rw [collected] at done
      cases done
  | ok found =>
      rw [collected] at done
      cases done
      exact (yields.toList id (fun _ later => later.honest) empty collected).1

end Workspace

end JsonnetNav
