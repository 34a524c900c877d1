import JsonnetNav.Proofs.Questions

/-! # Searches that share the calls of functions

The calls of a function are collected once and then read from the table. While a search for
them is under way, the table holds a part of them only, and another search may read that
part. Where the questions behind a question come to an end, no search gets into this: every
list of calls is complete before it is read, and the search finds what the question finds.
-/

namespace JsonnetNav

namespace CallerTable

theorem find?_cons (key : Location) (calls : Array Site) (t : CallerTable) (fn : Location) :
    find? ((key, calls) :: t) fn = if fn = key then some calls else t.find? fn := by
  rw [find?, List.lookup_cons]
  by_cases same : fn = key
  · simp [same]
  · simp [same, beq_false_of_ne same, find?]

theorem callsFrom_eq {t : CallerTable} {fn : Location} {calls : Array Site}
    (holds : t.find? fn = some calls) (index : Nat) :
    t.callsFrom fn index = calls.toList.drop index := by
  rw [callsFrom, holds, Option.getD_some]

theorem mem_of_callsFrom {t : CallerTable} {fn : Location} {index : Nat} {call : Site}
    (member : call ∈ t.callsFrom fn index) : ∃ calls, t.find? fn = some calls ∧ call ∈ calls := by
  have listed := List.mem_of_mem_drop member
  cases holds : t.find? fn with
  | none => simp [holds] at listed
  | some calls => exact ⟨calls, rfl, by simpa [holds] using listed⟩

theorem find?_start (t : CallerTable) (fn fn' : Location) :
    (t.start fn).find? fn' = if fn' = fn then some #[] else t.find? fn' :=
  find?_cons fn #[] t fn'

theorem find?_add (t : CallerTable) (fn : Location) (call : Site) (fn' : Location) :
    (t.add fn call).find? fn' =
      if fn' = fn then (t.find? fn').map (·.push call) else t.find? fn' := by
  induction t with
  | nil => simp [add, find?]
  | cons entry t ih =>
      obtain ⟨key, calls⟩ := entry
      have split : add ((key, calls) :: t) fn call =
          (key, if key = fn then calls.push call else calls) :: add t fn call := by
        by_cases same : key = fn <;> simp [add, same]
      rw [split, find?_cons, find?_cons, ih]
      by_cases first : fn' = key
      · by_cases same : key = fn <;> simp [first, same]
      · simp [first]

/-- The table holds known lists of calls in full or not at all. -/
def Fits (known : Location → Option (List Site)) (t : CallerTable) : Prop :=
  ∀ fn l calls, known fn = some l → t.find? fn = some calls → calls = l.toArray

/-- Two tables that differ only in which of the known lists of calls they hold. -/
structure Alike (known : Location → Option (List Site)) (t t' : CallerTable) : Prop where
  fits : t.Fits known
  fits' : t'.Fits known
  same : ∀ fn, known fn = none → t.find? fn = t'.find? fn

/-- Every function of the first table is in the second one, too. -/
def Within (t t' : CallerTable) : Prop :=
  ∀ fn, (t.find? fn).isSome → (t'.find? fn).isSome

theorem Within.refl (t : CallerTable) : t.Within t :=
  fun _ held => held

theorem Within.trans {t u v : CallerTable} (one : t.Within u) (two : u.Within v) : t.Within v :=
  fun fn held => two fn (one fn held)

/-- A known list of calls that a table holds stays in it. -/
theorem Within.holds {known : Location → Option (List Site)} {t u : CallerTable}
    (within : t.Within u) (fits : u.Fits known) {fn : Location} {l : List Site}
    (is : known fn = some l) (holds : t.find? fn = some l.toArray) :
    u.find? fn = some l.toArray := by
  have held := within fn (by rw [holds]; rfl)
  obtain ⟨calls, at_fn⟩ := Option.isSome_iff_exists.mp held
  rw [at_fn, fits fn l calls is at_fn]

theorem Within.start (t : CallerTable) (fn : Location) : t.Within (t.start fn) := by
  intro fn' held
  rw [find?_start]
  split
  · rfl
  · exact held

/-- A list of calls is not known any more while it is being collected. -/
theorem Fits.start {known : Location → Option (List Site)} {t : CallerTable} (fits : t.Fits known)
    (fn : Location) : (t.start fn).Fits (Function.update known fn none) := by
  intro fn' l calls is holds
  by_cases same : fn' = fn
  · rw [same, Function.update_self] at is
    cases is
  · rw [Function.update_of_ne same] at is
    rw [find?_start, if_neg same] at holds
    exact fits fn' l calls is holds

/-- Once a list of calls is collected, the tables are alike again with this list known. -/
theorem Alike.collected {known : Location → Option (List Site)} {t t' u u' : CallerTable}
    (alike : Alike known t t') {fn : Location} {l : List Site} (is : known fn = some l)
    (alike' : Alike (Function.update known fn none) u u') (holds : u.find? fn = some l.toArray)
    (others : ∀ fn', fn' ≠ fn → u'.find? fn' = t.find? fn') : Alike known u t' := by
  constructor
  · intro fn' l' calls is' holds'
    by_cases same : fn' = fn
    · subst same
      rw [holds] at holds'
      rw [is] at is'
      cases holds'
      cases is'
      rfl
    · rw [← Function.update_of_ne same none known] at is'
      exact alike'.fits fn' l' calls is' holds'
  · exact alike.fits'
  · intro fn' open_
    have other : fn' ≠ fn := by
      rintro rfl
      rw [is] at open_
      cases open_
    have here : Function.update known fn none fn' = none := by
      rw [Function.update_of_ne other, open_]
    rw [alike'.same fn' here, others fn' other, alike.same fn' open_]

end CallerTable

open CallerTable

/-- The first computation does what the second one does, up to known lists of calls, where
    that one succeeds. -/
def Run.Matches {β : Type} (known : Location → Option (List Site)) (run run' : Run β) : Prop :=
  ∀ t t' b u', Alike known t t' → run' t' = .ok (b, u') →
    ∃ u, run t = .ok (b, u) ∧ Alike known u u' ∧ t.Within u

namespace Run.Matches

variable {α β : Type} {known : Location → Option (List Site)}

theorem pure (b : β) : Matches known (pure b) (pure b) := by
  intro t t' b' u' alike done
  cases done
  exact ⟨t, rfl, alike, .refl t⟩

theorem bind {run run' : Run α} {next next' : α → Run β} (first : Matches known run run')
    (rest : ∀ a, Matches known (next a) (next' a)) :
    Matches known (run >>= next) (run' >>= next') := by
  intro t t' b v' alike done
  obtain ⟨⟨a, u'⟩, one, two⟩ := Except.bind_eq_ok.mp done
  obtain ⟨u, one, alike, within⟩ := first t t' a u' alike one
  obtain ⟨v, two, alike, within'⟩ := rest a u u' b v' alike two
  refine ⟨v, ?_, alike, within.trans within'⟩
  exact Except.bind_eq_ok.mpr ⟨(a, u), one, two⟩

theorem bind_pure {run : Run α} {a : α} {next : α → Run β} {run' : Run β}
    (first : Matches known run (Pure.pure a)) (rest : Matches known (next a) run') :
    Matches known (run >>= next) run' := by
  intro t t' b v' alike done
  obtain ⟨u, one, alike, within⟩ := first t t' a t' alike rfl
  obtain ⟨v, two, alike, within'⟩ := rest u t' b v' alike done
  refine ⟨v, ?_, alike, within.trans within'⟩
  exact Except.bind_eq_ok.mpr ⟨(a, u), one, two⟩

theorem foldlM {step step' : β → α → Run β} {xs : List α}
    (each : ∀ b, ∀ x ∈ xs, Matches known (step b x) (step' b x)) (b : β) :
    Matches known (xs.foldlM step b) (xs.foldlM step' b) := by
  induction xs generalizing b with
  | nil => exact pure b
  | cons y ys ih =>
      rw [List.foldlM_cons, List.foldlM_cons]
      apply bind (each b y List.mem_cons_self)
      intro b'
      exact ih (fun b x mem => each b x (List.mem_cons_of_mem y mem)) b'

end Run.Matches

namespace Search

variable {α β : Type} {known : Location → Option (List Site)}

/-- The search hands over the members of a list in turn, up to known lists of calls. -/
def Delivers (known : Location → Option (List Site)) (search : Search α) (l : List α) : Prop :=
  ∀ (β : Type) (step step' : β → α → Run β),
    (∀ b, ∀ x ∈ l, Run.Matches known (step b x) (step' b x)) →
      ∀ b, Run.Matches known (search.fold step b) (l.foldlM step' b)

theorem Delivers.each (xs : List α) : Delivers known (each xs) xs := by
  intro β step step' matching b
  exact Run.Matches.foldlM matching b

theorem foldlM_flatMap {γ : Type} (xs : List α) (g : α → List β) (step : γ → β → Run γ) (b : γ) :
    (xs.flatMap g).foldlM step b = xs.foldlM (fun b x => (g x).foldlM step b) b := by
  induction xs generalizing b with
  | nil => rfl
  | cons y ys ih =>
      rw [List.flatMap_cons, List.foldlM_append, List.foldlM_cons]
      simp only [ih]

theorem Delivers.bind {search : Search α} {xs : List α} {next : α → Search β} {g : α → List β}
    (first : Delivers known search xs) (rest : ∀ x ∈ xs, Delivers known (next x) (g x)) :
    Delivers known (search >>= next) (xs.flatMap g) := by
  intro γ step step' matching b
  rw [foldlM_flatMap]
  apply first
  intro b x mem
  apply rest x mem
  intro b y memY
  exact matching b y (List.mem_flatMap.mpr ⟨x, mem, memY⟩)

theorem Delivers.append {first second : Search α} {xs ys : List α}
    (one : Delivers known first xs) (two : Delivers known second ys) :
    Delivers known (append first second) (xs ++ ys) := by
  intro γ step step' matching b
  rw [List.foldlM_append]
  apply Run.Matches.bind
  · exact one γ step step' (fun b x mem => matching b x (List.mem_append_left ys mem)) b
  · exact two γ step step' fun b x mem => matching b x (List.mem_append_right xs mem)

theorem foldlM_push (xs : List α) (found : Array α) :
    xs.foldlM (fun found x => pure (found.push x)) found =
      (pure (found ++ xs.toArray) : Run _) := by
  induction xs generalizing found with
  | nil => simp
  | cons y ys ih =>
      rw [List.foldlM_cons, pure_bind, ih]
      simp

theorem Delivers.toList {search : Search α} {xs : List α} (delivers : Delivers known search xs) :
    Run.Matches known search.toList (pure xs) := by
  have collected := delivers (Array α) (fun found x => pure (found.push x))
    (fun found x => pure (found.push x)) (fun found x _ => .pure (found.push x)) #[]
  rw [foldlM_push, Array.empty_append] at collected
  exact collected.bind_pure (.pure xs)

theorem Delivers.gather {search : Search α} {xs : List α} {next : List α → Search β} {l : List β}
    (first : Delivers known search xs) (rest : Delivers known (next xs) l) :
    Delivers known (ofRun search.toList >>= next) l := by
  intro γ step step' matching b
  exact first.toList.bind_pure (rest γ step step' matching b)

theorem readCalls_succ (fn : Location) (step : β → Site → Run β) (rounds index : Nat) (b : β)
    (t : CallerTable) :
    readCalls fn step (rounds + 1) index b t =
      if t.callsFrom fn index = [] then .ok (b, t)
      else ((t.callsFrom fn index).foldlM step b >>=
        readCalls fn step rounds (index + (t.callsFrom fn index).length)) t := by
  have got (rest : CallerTable → Run β) : (get >>= rest) t = rest t t := rfl
  rw [readCalls, got]
  cases t.callsFrom fn index <;> rfl

/-- The calls of a function are read from an index on, round after round, until there are no
    others. -/
inductive Reads (fn : Location) (step : β → Site → Run β) :
    Nat → β → CallerTable → β → CallerTable → Prop where
  | finish {index : Nat} {b : β} {t : CallerTable} (none : t.callsFrom fn index = []) :
      Reads fn step index b t b t
  | round {index : Nat} {b b₁ b' : β} {t t₁ u : CallerTable} (some : t.callsFrom fn index ≠ [])
      (read : (t.callsFrom fn index).foldlM step b t = .ok (b₁, t₁))
      (rest : Reads fn step (index + (t.callsFrom fn index).length) b₁ t₁ b' u) :
      Reads fn step index b t b' u

/-- Reading that succeeds comes to the last call. -/
theorem reads_of_readCalls {fn : Location} {step : β → Site → Run β} {rounds index : Nat} {b b' : β}
    {t u : CallerTable} (done : readCalls fn step rounds index b t = .ok (b', u)) :
    Reads fn step index b t b' u := by
  induction rounds generalizing index b t with
  | zero => cases done
  | succ rounds ih =>
      rw [readCalls_succ] at done
      split at done
      · rename_i none
        cases done
        exact .finish none
      · rename_i some
        obtain ⟨⟨b₁, t₁⟩, read, rest⟩ := Except.bind_eq_ok.mp done
        exact .round some read (ih rest)

/-- A known list of calls is read in one round, and the next one finds no other calls. -/
theorem readCalls_matches {fn : Location} {l : List Site} (is : known fn = some l)
    {step step' : β → Site → Run β}
    (matching : ∀ b, ∀ call ∈ l, Run.Matches known (step b call) (step' b call)) {rounds : Nat}
    (enough : 2 ≤ rounds) {t t' u' : CallerTable} {b b' : β} (alike : Alike known t t')
    (holds : t.find? fn = some l.toArray) (done : l.foldlM step' b t' = .ok (b', u')) :
    ∃ u, readCalls fn step rounds 0 b t = .ok (b', u) ∧ Alike known u u' ∧ t.Within u := by
  obtain ⟨rounds, rfl⟩ := Nat.exists_eq_add_of_le' enough
  have first : t.callsFrom fn 0 = l := callsFrom_eq holds 0
  obtain ⟨u, read, alike, within⟩ := Run.Matches.foldlM matching b t t' b' u' alike done
  refine ⟨u, ?_, alike, within⟩
  have none : u.callsFrom fn (0 + l.length) = [] := by
    rw [callsFrom_eq (within.holds alike.fits is holds)]
    simp
  have second : readCalls fn step (rounds + 1) (0 + l.length) b' u = .ok (b', u) := by
    rw [readCalls_succ, if_pos none]
  rw [readCalls_succ, first]
  split
  · rename_i empty
    rw [empty] at read
    exact read
  · exact Except.bind_eq_ok.mpr ⟨(b', u), read, second⟩

/-- Adding calls to a list that is not known yet. -/
theorem add_matches {fn : Location} (open_ : known fn = none) (call : Site) :
    Run.Matches known (modify (·.add fn call)) (modify (·.add fn call)) := by
  intro t t' _ u' alike done
  cases done
  have other {fn' : Location} {l : List Site} (is : known fn' = some l) : fn' ≠ fn := by
    rintro rfl
    rw [is] at open_
    cases open_
  refine ⟨t.add fn call, rfl, ?_, ?_⟩
  · constructor
    · intro fn' l calls is holds
      rw [find?_add, if_neg (other is)] at holds
      exact alike.fits fn' l calls is holds
    · intro fn' l calls is holds
      rw [find?_add, if_neg (other is)] at holds
      exact alike.fits' fn' l calls is holds
    · intro fn' is
      rw [find?_add, find?_add, alike.same fn' is]
  · intro fn' held
    rw [find?_add]
    split <;> simpa using held

theorem foldlM_add (fn : Location) (l : List Site) (t : CallerTable) :
    ∃ u : CallerTable,
      (l.foldlM (fun _ call => modify (·.add fn call)) () : Run Unit) t = .ok ((), u) ∧
      ∀ fn', u.find? fn' =
        if fn' = fn then (t.find? fn').map (· ++ l.toArray) else t.find? fn' := by
  induction l generalizing t with
  | nil => exact ⟨t, rfl, fun fn' => by simp⟩
  | cons call l ih =>
      obtain ⟨u, done, holds⟩ := ih (t.add fn call)
      refine ⟨u, done, ?_⟩
      intro fn'
      rw [holds, find?_add]
      by_cases same : fn' = fn
      · cases t.find? fn' <;> simp [same]
      · simp [same]

theorem sharedCalls_fold (rounds : Nat) (fn : Location) (collect : Search Site)
    (step : β → Site → Run β) (b : β) (t : CallerTable) :
    (sharedCalls rounds fn collect).fold step b t =
      if (t.find? fn).isNone then
        (collect.fold (fun _ call => modify (·.add fn call)) () >>= fun _ =>
          readCalls fn step rounds 0 b) (t.start fn)
      else readCalls fn step rounds 0 b t := by
  have unfolded : (sharedCalls rounds fn collect).fold step b t =
      (if (t.find? fn).isNone then
        modify (·.start fn) >>= fun _ =>
          collect.fold (fun _ call => modify (·.add fn call)) () >>= fun _ =>
            readCalls fn step rounds 0 b
      else readCalls fn step rounds 0 b : Run β) t := rfl
  rw [unfolded]
  split <;> rfl

/-- The calls of a function are collected in full, and then they are read. -/
theorem Delivers.sharedCalls {rounds : Nat} {fn : Location} {collect : Search Site} {l : List Site}
    (is : known fn = some l) (enough : 2 ≤ rounds)
    (collects : Delivers (Function.update known fn none) collect l) :
    Delivers known (sharedCalls rounds fn collect) l := by
  intro β step step' matching b t t' b' u' alike done
  have read {u : CallerTable} (alike : Alike known u t') (holds : u.find? fn = some l.toArray) :=
    readCalls_matches is matching enough alike holds done
  rw [sharedCalls_fold]
  cases held : t.find? fn with
  | some calls => exact read alike (alike.fits fn l calls is held ▸ held)
  | none =>
      have fits := alike.fits.start fn
      obtain ⟨v', collected, holds⟩ := foldlM_add fn l (t.start fn)
      obtain ⟨v, collected, alike', within⟩ := collects Unit _ _
        (fun _ call _ => add_matches (Function.update_self fn none known) call) ()
        (t.start fn) (t.start fn) () v' ⟨fits, fits, fun _ _ => rfl⟩ collected
      have all : v.find? fn = some l.toArray := by
        rw [alike'.same fn (Function.update_self fn none known), holds, find?_start]
        simp
      have others : ∀ fn', fn' ≠ fn → v'.find? fn' = t.find? fn' := by
        intro fn' other
        rw [holds, if_neg other, find?_start, if_neg other]
      obtain ⟨u, done, alike, within'⟩ := read (alike.collected is alike' all others) all
      refine ⟨u, ?_, alike, ?_⟩
      · exact Except.bind_eq_ok.mpr ⟨((), v), collected, done⟩
      · exact (Within.start t fn).trans (within.trans within')

end Search

/-- A plan delivers what it finds if the searches for its questions do. -/
theorem Plan.run_delivers {α : Type} {known : Location → Option (List Site)}
    {answer : (q : Question) → Except QueryError (List q.Find)}
    {search : (q : Question) → Search q.Find} (p : Plan α)
    (delivered : ∀ q ∈ p.asked answer, ∀ l, answer q = .ok l → (search q).Delivers known l)
    {l : List α} (done : p.value answer = .ok l) : (p.run search).Delivers known l := by
  induction p generalizing l with
  | found xs =>
      cases done
      exact .each xs
  | fail e => cases done
  | forEach xs next ih =>
      obtain ⟨g, each, rfl⟩ := flatMapM_eq_ok done
      apply Search.Delivers.bind (.each xs)
      intro x mem
      exact ih x (fun q asks => delivered q (List.mem_flatMap.mpr ⟨x, mem, asks⟩)) (each x mem)
  | ask q next ih =>
      obtain ⟨xs, answered, done⟩ := Except.bind_eq_ok.mp done
      obtain ⟨g, each, rfl⟩ := flatMapM_eq_ok done
      simp only [asked, answered, List.forall_mem_cons] at delivered
      apply Search.Delivers.bind (delivered.1 xs rfl)
      intro x mem
      exact ih x (fun q' asks => delivered.2 q' (List.mem_flatMap.mpr ⟨x, mem, asks⟩)) (each x mem)
  | gather q next ih =>
      obtain ⟨xs, answered, done⟩ := Except.bind_eq_ok.mp done
      simp only [asked, answered, List.forall_mem_cons] at delivered
      apply Search.Delivers.gather (delivered.1 xs rfl)
      exact ih xs delivered.2 done
  | append first second ihFirst ihSecond =>
      obtain ⟨l', one, done⟩ := Except.bind_eq_ok.mp done
      obtain ⟨ls, two, done⟩ := Except.bind_eq_ok.mp done
      cases done
      apply Search.Delivers.append
      · exact ihFirst (fun q asks => delivered q (List.mem_append_left _ asks)) one
      · exact ihSecond (fun q asks => delivered q (List.mem_append_right _ asks)) two

namespace Workspace

open Filter Relation

variable {w : Workspace} {α : Type}

/-- Different functions that are asked about are at different places. -/
def Apart (reached : Question → Prop) : Prop :=
  ∀ fn fn', reached (.callers fn) → reached (.callers fn') → fn.location = fn'.location → fn = fn'

/-- The calls of all functions that are asked about behind a question are known. -/
def Covers (w : Workspace) (known : Location → Option (List Site)) (q : Question) : Prop :=
  ∀ fn l, ReflTransGen w.Asks q (.callers fn) → w.Finds (.callers fn) l →
    known fn.location = some l

theorem Covers.of_asks {known : Location → Option (List Site)} {q q' : Question}
    (covers : w.Covers known q) (asks : w.Asks q q') : w.Covers known q' :=
  fun fn l leads found => covers fn l (.head asks leads) found

/-- The calls of a function are not needed to collect them, if that comes to an end. -/
theorem Covers.without {known : Location → Option (List Site)} {fn : Site} {q : Question}
    (covers : w.Covers known (.callers fn)) (ends : w.Ends (.callers fn))
    (apart : Apart (ReflTransGen w.Asks (.callers fn))) (asks : w.Asks (.callers fn) q) :
    w.Covers (Function.update known fn.location none) q := by
  intro fn' l leads found
  have other : fn'.location ≠ fn.location := by
    intro same
    cases apart fn' fn (.head asks leads) .refl same
    exact ends.not_asked_again asks leads
  rw [Function.update_of_ne other]
  exact covers.of_asks asks fn' l leads found

theorem plan_eventually_delivers {p : Plan α} {l : List α} (gives : w.Gives p l)
    (asked : ∀ q l, p.Asks w.Hands w.Finds q → w.Finds q l →
      ∀ᶠ n in atTop, ∀ known, w.Covers known q → (w.search n q).Delivers known l) :
    ∀ᶠ n in atTop, ∀ known, (∀ q, p.Asks w.Hands w.Finds q → w.Covers known q) →
      (p.run (w.search n)).Delivers known l := by
  obtain ⟨depth, done⟩ := gives
  have asks := p.mem_asked (fun q l => answers_of_value) done
  -- the plan asks only finitely many questions, so one depth is enough for all of them
  have all : ∀ᶠ n in atTop, ∀ q ∈ p.asked (w.value depth), ∀ l, w.value depth q = .ok l →
      ∀ known, w.Covers known q → (w.search n q).Delivers known l := by
    apply (eventually_all_finite (p.asked (w.value depth)).finite_toSet).mpr
    intro q mem
    cases answered : w.value depth q with
    | error e => simp
    | ok l =>
        filter_upwards [asked q l ((asks q).mp mem) ⟨depth, answered⟩] with n delivers
        intro l' same
        cases same
        exact delivers
  filter_upwards [all] with n all known covers
  apply p.run_delivers _ done
  intro q mem l answered
  exact all q mem l answered known (covers q ((asks q).mp mem))

/-- A search that is deep enough delivers the answer to its question. -/
theorem search_eventually_delivers {q : Question} {l : List q.Find} (found : w.Finds q l)
    (apart : Apart (ReflTransGen w.Asks q)) :
    ∀ᶠ n in atTop, ∀ known, w.Covers known q → (w.search n q).Delivers known l := by
  -- along the questions and not along the depth: each of them has a depth of its own
  have ends := found.ends
  induction ends with
  | intro q later ih =>
      obtain ⟨file, gives⟩ := (finds_step q l).mp found
      have delivers := plan_eventually_delivers gives fun q' l' asks found' =>
        ih q' asks found' fun fn fn' one two => apart fn fn' (.head asks one) (.head asks two)
      obtain ⟨least, delivers⟩ := eventually_atTop.mp delivers
      apply eventually_atTop.mpr
      use least + 1
      intro n deep known covers
      obtain ⟨n, rfl⟩ : ∃ k, n = k + 1 := Nat.exists_eq_succ_of_ne_zero (by omega)
      rw [search, file]
      cases q with
      | callers fn =>
          apply Search.Delivers.sharedCalls (covers fn l .refl found)
          · exact Nat.le_add_right_of_le (by decide)
          · exact delivers n (by omega) _ fun q' asks => covers.without ⟨_, later⟩ apart asks
      | scopes s => exact delivers n (by omega) known fun q' asks => covers.of_asks asks
      | fns s => exact delivers n (by omega) known fun q' asks => covers.of_asks asks
      | fields ref => exact delivers n (by omega) known fun q' asks => covers.of_asks asks

/-- The question is asked on the way of a plan, or behind one that is. -/
def Behind (w : Workspace) (p : Plan α) (q : Question) : Prop :=
  ∃ q', p.Asks w.Hands w.Finds q' ∧ ReflTransGen w.Asks q' q

theorem exists_covering (p : Plan α) (apart : Apart (w.Behind p)) :
    ∃ known, ∀ q, p.Asks w.Hands w.Finds q → w.Covers known q := by
  classical
  let At (fn : Location) (l : List Site) : Prop :=
    ∃ site, w.Behind p (.callers site) ∧ site.location = fn ∧ w.Finds (.callers site) l
  use fun fn => if some_calls : ∃ l, At fn l then some some_calls.choose else none
  intro q asks fn l leads found
  have here : At fn.location l := ⟨fn, ⟨q, asks, leads⟩, rfl, found⟩
  have some_calls : ∃ l, At fn.location l := ⟨l, here⟩
  apply (dif_pos some_calls).trans
  obtain ⟨site, behind, place, found'⟩ := some_calls.choose_spec
  cases apart site fn behind ⟨q, asks, leads⟩ place
  rw [finds_unique found found']

theorem results_of_delivers {known : Location → Option (List Site)} {search : Search α}
    {l : List α} (delivers : search.Delivers known l) : search.results = .ok l := by
  have empty : CallerTable.Alike known [] [] := by
    constructor
    · intro fn l calls _ holds
      cases holds
    · intro fn l calls _ holds
      cases holds
    · intro fn _
      rfl
  obtain ⟨u, done, -⟩ := delivers.toList [] [] l [] empty rfl
  rw [Search.results, StateT.run', done]
  rfl

/-- A plan that is followed deep enough finds what it finds on plain lists. -/
theorem eventually_results {p : Plan α} {l : List α} (gives : w.Gives p l)
    (apart : Apart (w.Behind p)) : ∀ᶠ n in atTop, (p.run (w.search n)).results = .ok l := by
  obtain ⟨known, covers⟩ := exists_covering p apart
  have delivers := plan_eventually_delivers gives fun q l asks found =>
    search_eventually_delivers found fun fn fn' one two =>
      apart fn fn' ⟨q, asks, one⟩ ⟨q, asks, two⟩
  filter_upwards [delivers] with n delivers
  exact results_of_delivers (delivers known covers)

end Workspace

end JsonnetNav
