import JsonnetNav.Proofs.FoundInside
import JsonnetNav.Proofs.RenamedSites
import Mathlib

/-! # Searches that mirror each other

A search in a tree with other names hands over other sites than the search in the tree itself,
but these are the sites at the same places. So do two plans that ask for the same places, and
the tables of calls that are filled on the way hold the same places as well.
-/

namespace JsonnetNav

/-- The searches hand over finds that belong together, one after the other, and they do not look
    at what is made of them. -/
def Search.Mirrors {α α' : Type} (Φ : RunRelation) (pair : α → α' → Prop) (search : Search α)
    (search' : Search α') : Prop :=
  ∀ (β γ : Type) (rel : β → γ → Prop) (step : β → α → Run β) (step' : γ → α' → Run γ),
    (∀ b c x x', rel b c → pair x x' → Φ.Holds rel (step b x) (step' c x')) →
      ∀ b c, rel b c → Φ.Holds rel (search.fold step b) (search'.fold step' c)

namespace Search.Mirrors

variable {α α' β β' : Type} {Φ : RunRelation} {pair : α → α' → Prop} {pair' : β → β' → Prop}
  {search : Search α} {search' : Search α'}

theorem imp {wider : α → α' → Prop} (mirrors : Mirrors Φ pair search search')
    (more : ∀ x x', pair x x' → wider x x') : Mirrors Φ wider search search' := by
  intro γ δ rel step step' steps
  exact mirrors γ δ rel step step' fun b c x x' here is => steps b c x x' here (more x x' is)

theorem fail (error : QueryError) : Mirrors Φ pair (.fail error) (.fail error) :=
  fun _ _ rel _ _ _ _ _ _ => Φ.fail rel error

theorem each {xs : List α} {xs' : List α'} (pairs : List.Forall₂ pair xs xs') :
    Mirrors Φ pair (.each xs) (.each xs') := by
  intro γ δ rel step step' steps b c start
  change Φ.Holds rel (xs.foldlM step b) (xs'.foldlM step' c)
  induction pairs generalizing b c with
  | nil => exact Φ.pure start
  | cons first _ ih =>
      rw [List.foldlM_cons, List.foldlM_cons]
      exact Φ.bind (steps b c _ _ start first) ih

theorem append {more : Search α} {more' : Search α'} (first : Mirrors Φ pair search search')
    (second : Mirrors Φ pair more more') :
    Mirrors Φ pair (.append search more) (.append search' more') := by
  intro γ δ rel step step' steps b c start
  exact Φ.bind (first γ δ rel step step' steps b c start) (second γ δ rel step step' steps)

theorem bind {next : α → Search β} {next' : α' → Search β'} (first : Mirrors Φ pair search search')
    (rest : ∀ x x', pair x x' → Mirrors Φ pair' (next x) (next' x')) :
    Mirrors Φ pair' (search >>= next) (search' >>= next') := by
  intro γ δ rel step step' steps
  apply first γ δ rel
  intro b c x x' here is
  exact rest x x' is γ δ rel step step' steps b c here

theorem toList (mirrors : Mirrors Φ pair search search') :
    Φ.Holds (List.Forall₂ pair) search.toList search'.toList := by
  have collected : Φ.Holds (fun xs xs' => List.Forall₂ pair xs.toList xs'.toList)
      (search.fold (fun found x => pure (found.push x)) (#[] : Array α))
      (search'.fold (fun found x => pure (found.push x)) (#[] : Array α')) := by
    apply mirrors
    · intro xs xs' x x' soFar is
      refine Φ.pure ?_
      rw [Array.toList_push, Array.toList_push]
      exact List.rel_append soFar (.cons is .nil)
    · exact .nil
  exact Φ.bind collected fun xs xs' pairs => Φ.pure pairs

theorem gather {next : List α → Search β} {next' : List α' → Search β'}
    (first : Mirrors Φ pair search search')
    (rest : ∀ xs xs', List.Forall₂ pair xs xs' → Mirrors Φ pair' (next xs) (next' xs')) :
    Mirrors Φ pair' (.ofRun search.toList >>= next) (.ofRun search'.toList >>= next') := by
  intro γ δ rel step step' steps b c start
  apply Φ.bind first.toList
  intro xs xs' pairs
  exact rest xs xs' pairs γ δ rel step step' steps b c start

end Search.Mirrors

namespace Question

/-- The question about the same place of the tree with other names. -/
def rename (f : Renaming) : Question → Question
  | scopes s => scopes (s.rename f)
  | fns s => fns (s.rename f)
  | fields ref => fields (ref.rename f)
  | callers fn => callers (fn.rename f)

/-- What the question about the same place finds. -/
def renameFind (f : Renaming) : (q : Question) → q.Find → (q.rename f).Find
  | scopes _, scope => scope.rename f
  | fns _, fn => fn.rename f
  | fields _, binding => binding.rename f
  | callers _, call => call.rename f

theorem site_rename (f : Renaming) (q : Question) : (q.rename f).site = q.site.rename f := by
  cases q <;> rfl

/-- The calls are those of a function, if the question is about calls. -/
def Proper : Question → Prop
  | callers fn => fn.kind = .fn
  | _ => True

end Question

/-- The second plan asks about the same places as the first one, in the tree with other names,
    and finds images of what the first one finds. Both ask for the calls of functions only. -/
inductive Plan.Mirrors (f : Renaming) (suits : (q : Question) → q.Find → Prop) {α α' : Type}
    (g : α → α') : Plan α → Plan α' → Prop
  | found (xs : List α) : Mirrors f suits g (.found xs) (.found (xs.map g))
  | fail (error : QueryError) : Mirrors f suits g (.fail error) (.fail error)
  | forEach {β β' : Type} {pair : β → β' → Prop} {xs : List β} {xs' : List β'}
      {next : β → Plan α} {next' : β' → Plan α'} (pairs : List.Forall₂ pair xs xs')
      (each : ∀ x x', pair x x' → Mirrors f suits g (next x) (next' x')) :
      Mirrors f suits g (.forEach xs next) (.forEach xs' next')
  | ask {q : Question} {next : q.Find → Plan α} {next' : (q.rename f).Find → Plan α'}
      (proper : q.Proper)
      (each : ∀ x, suits q x → Mirrors f suits g (next x) (next' (q.renameFind f x))) :
      Mirrors f suits g (.ask q next) (.ask (q.rename f) next')
  | gather {q : Question} {next : List q.Find → Plan α} {next' : List (q.rename f).Find → Plan α'}
      (proper : q.Proper) (all : ∀ xs, (∀ x ∈ xs, suits q x) →
        Mirrors f suits g (next xs) (next' (xs.map (q.renameFind f)))) :
      Mirrors f suits g (.gather q next) (.gather (q.rename f) next')
  | append {first second : Plan α} {first' second' : Plan α'} (one : Mirrors f suits g first first')
      (two : Mirrors f suits g second second') :
      Mirrors f suits g (.append first second) (.append first' second')

namespace Plan.Mirrors

variable {f : Renaming} {suits : (q : Question) → q.Find → Prop} {α α' β β' : Type} {g : α → α'}

theorem none : Mirrors f suits g .none .none :=
  found []

/-- A plan for each member of a list and of an image of the list. -/
theorem forEach_map {h : β → β'} {xs : List β} {xs' : List β'} {next : β → Plan α}
    {next' : β' → Plan α'} (image : xs' = xs.map h)
    (each : ∀ x ∈ xs, Mirrors f suits g (next x) (next' (h x))) :
    Mirrors f suits g (.forEach xs next) (.forEach xs' next') := by
  have pairs : List.Forall₂ (fun x x' => x ∈ xs ∧ x' = h x) xs xs' := by
    rw [image, List.forall₂_map_right_iff, List.forall₂_same]
    exact fun x member => ⟨member, rfl⟩
  refine .forEach pairs ?_
  rintro x _ ⟨member, rfl⟩
  exact each x member

theorem ofOption_map {h : β → β'} {x : Option β} {x' : Option β'} {next : β → Plan α}
    {next' : β' → Plan α'} (image : x' = x.map h)
    (each : ∀ y, x = some y → Mirrors f suits g (next y) (next' (h y))) :
    Mirrors f suits g (.ofOption x next) (.ofOption x' next') := by
  have members : x'.toList = x.toList.map h := by rw [image, Option.toList_map]
  exact forEach_map members fun y member => each y (Option.mem_toList.mp member)

theorem found_map {xs : List α} {xs' : List α'} (image : xs' = xs.map g) :
    Mirrors f suits g (.found xs) (.found xs') := by
  rw [image]
  exact found xs

theorem find {q : Question} (proper : q.Proper) :
    Mirrors f suits (q.renameFind f) (.find q) (.find (q.rename f)) :=
  .ask proper fun x _ => .found [x]

/-- Plans that mirror each other lead to searches that do, if the questions are answered by such
    searches. -/
theorem run {Φ : RunRelation} {asks : Question → Prop} {kind : α → Prop}
    {answer answer' : (q : Question) → Search q.Find} {p : Plan α} {p' : Plan α'}
    (mirrors : Mirrors f suits g p p') (keeps : p.Keeps asks suits kind)
    (answers : ∀ q, asks q → q.Proper →
      Search.Mirrors Φ (fun x x' => suits q x ∧ x' = q.renameFind f x)
        (answer q) (answer' (q.rename f))) :
    Search.Mirrors Φ (fun x x' => kind x ∧ x' = g x) (p.run answer) (p'.run answer') := by
  induction mirrors with
  | found xs =>
      apply Search.Mirrors.each
      rw [List.forall₂_map_right_iff, List.forall₂_same]
      exact fun x member => ⟨keeps x member, rfl⟩
  | fail error => exact .fail error
  | @forEach _ _ pair xs xs' _ _ pairs _ ih =>
      have members : List.Forall₂ (fun x x' => x ∈ xs ∧ pair x x') xs xs' := by
        rw [List.forall₂_and_left]
        exact ⟨fun x member => member, pairs⟩
      exact (Search.Mirrors.each members).bind fun x x' here => ih x x' here.2 (keeps x here.1)
  | ask proper _ ih =>
      refine (answers _ keeps.1 proper).bind ?_
      rintro x _ ⟨suits, rfl⟩
      exact ih x suits (keeps.2 x suits)
  | @gather q _ _ proper _ ih =>
      refine (answers _ keeps.1 proper).gather fun xs xs' pairs => ?_
      rw [List.forall₂_and_left] at pairs
      have image : xs.map (q.renameFind f) = xs' := by
        rw [← List.forall₂_eq_eq_eq, List.forall₂_map_left_iff]
        exact pairs.2.imp fun _ _ => Eq.symm
      rw [← image]
      exact ih xs pairs.1 (keeps.2 xs pairs.1)
  | append _ _ ih ih' => exact (ih keeps.1).append (ih' keeps.2)

end Plan.Mirrors

/-- The tables hold the same places for each function, and the calls in the first are good. -/
structure CallerTable.Mirrors (f : Renaming) (good : Location → Site → Prop)
    (t t' : CallerTable) : Prop where
  holds : ∀ fn calls, t.find? fn = some calls → ∀ call ∈ calls, good fn call
  same : ∀ fn, t'.find? fn = (t.find? fn).map (Array.map (Site.rename f))

namespace CallerTable.Mirrors

variable {f : Renaming} {good : Location → Site → Prop} {t t' : CallerTable}

theorem start (mirrors : Mirrors f good t t') (fn : Location) :
    Mirrors f good (t.start fn) (t'.start fn) := by
  constructor
  · intro fn' calls found call member
    rw [find?_start] at found
    split at found
    · cases found
      simp at member
    · exact mirrors.holds fn' calls found call member
  · intro fn'
    rw [find?_start, find?_start, mirrors.same]
    split
    · simp
    · rfl

theorem add (mirrors : Mirrors f good t t') {fn : Location} {call : Site} (isGood : good fn call) :
    Mirrors f good (t.add fn call) (t'.add fn (call.rename f)) := by
  constructor
  · intro fn' calls found call' member
    rw [find?_add] at found
    split at found
    · rename_i same
      obtain ⟨before, was, rfl⟩ := Option.map_eq_some_iff.mp found
      rcases Array.mem_push.mp member with older | rfl
      · exact mirrors.holds fn' before was call' older
      · rwa [same]
    · exact mirrors.holds fn' calls found call' member
  · intro fn'
    rw [find?_add, find?_add, mirrors.same]
    split
    · simp [Function.comp_def]
    · rfl

end CallerTable.Mirrors

/-- Computations that fail alike or lead from tables that mirror each other to such tables. -/
def Run.mirroring (f : Renaming) (good : Location → Site → Prop) : RunRelation where
  Holds rel run run' := ∀ t t', CallerTable.Mirrors f good t t' →
    (∃ e, run t = .error e ∧ run' t' = .error e) ∨
    ∃ b c u u', run t = .ok (b, u) ∧ run' t' = .ok (c, u') ∧ rel b c ∧
      CallerTable.Mirrors f good u u'
  fail _ error _ _ _ := .inl ⟨error, rfl, rfl⟩
  pure related t t' mirrors := .inr ⟨_, _, t, t', rfl, rfl, related, mirrors⟩
  bind {_ _ _ _ _ _ run run' next next'} first rest t t' mirrors := by
    have unfolded : (run >>= next) t = (run t >>= fun out => next out.1 out.2) := rfl
    have unfolded' : (run' >>= next') t' = (run' t' >>= fun out => next' out.1 out.2) := rfl
    rw [unfolded, unfolded']
    rcases first t t' mirrors with ⟨e, one, two⟩ | ⟨b, c, u, u', one, two, related, mirrors⟩
    · rw [one, two]
      exact .inl ⟨e, rfl, rfl⟩
    · rw [one, two]
      exact rest b c related u u' mirrors

namespace Search.Mirrors

variable {f : Renaming} {good : Location → Site → Prop}

theorem readCalls {fn : Location} {β γ : Type} {rel : β → γ → Prop} {step : β → Site → Run β}
    {step' : γ → Site → Run γ}
    (steps : ∀ b c call, rel b c → good fn call →
      (Run.mirroring f good).Holds rel (step b call) (step' c (call.rename f)))
    (rounds index : Nat) {b : β} {c : γ} (related : rel b c) :
    (Run.mirroring f good).Holds rel (Search.readCalls fn step rounds index b)
      (Search.readCalls fn step' rounds index c) := by
  induction rounds generalizing index b c with
  | zero => exact (Run.mirroring f good).fail rel .tooDeep
  | succ rounds ih =>
      intro t t' mirrors
      have renamed : t'.callsFrom fn index = (t.callsFrom fn index).map (Site.rename f) := by
        rw [CallerTable.callsFrom, CallerTable.callsFrom, mirrors.same]
        cases t.find? fn <;> simp
      rw [readCalls_succ, readCalls_succ, renamed]
      simp only [List.map_eq_nil_iff, List.length_map, List.foldlM_map]
      split
      · exact .inr ⟨b, c, t, t', rfl, rfl, related, mirrors⟩
      · have each : ∀ b c, ∀ call ∈ t.callsFrom fn index, rel b c →
            (Run.mirroring f good).Holds rel (step b call) (step' c (call.rename f)) := by
          intro b c call member related
          obtain ⟨calls, inTable, here⟩ := CallerTable.mem_of_callsFrom member
          exact steps b c call related (mirrors.holds fn calls inTable call here)
        have read := (Run.mirroring f good).foldlM each related
        exact (Run.mirroring f good).bind read (fun b c related => ih _ related) t t' mirrors

theorem sharedCalls {fn : Location} {collect collect' : Search Site}
    (collects : Mirrors (Run.mirroring f good) (fun x x' => good fn x ∧ x' = x.rename f)
      collect collect') (rounds : Nat) :
    Mirrors (Run.mirroring f good) (fun x x' => good fn x ∧ x' = x.rename f)
      (.sharedCalls rounds fn collect) (.sharedCalls rounds fn collect') := by
  intro γ δ rel step step' steps b c related t t' mirrors
  have reads : (Run.mirroring f good).Holds rel (Search.readCalls fn step rounds 0 b)
      (Search.readCalls fn step' rounds 0 c) :=
    readCalls (fun b c call here isGood => steps b c call _ here ⟨isGood, rfl⟩) rounds 0 related
  have known : (t'.find? fn).isNone = (t.find? fn).isNone := by
    rw [mirrors.same, Option.isNone_map]
  rw [sharedCalls_fold, sharedCalls_fold, known]
  split
  · have fills : (Run.mirroring f good).Holds (fun _ _ => True)
        (collect.fold (fun _ call => modify (·.add fn call)) ())
        (collect'.fold (fun _ call => modify (·.add fn call)) ()) := by
      apply collects _ _ _ _ _ _ () () trivial
      rintro _ _ call _ _ ⟨isGood, rfl⟩ t t' mirrors
      exact .inr ⟨(), (), _, _, rfl, rfl, trivial, mirrors.add isGood⟩
    exact (Run.mirroring f good).bind fills (fun _ _ _ => reads) _ _ (mirrors.start fn)
  · exact reads t t' mirrors

/-- Searches that hand over the same finds have the same results. -/
theorem results {α : Type} {kind : α → Prop} {search search' : Search α}
    (mirrors : Mirrors (Run.mirroring f good) (fun x x' => kind x ∧ x' = x) search search') :
    search'.results = search.results := by
  have collected : (Run.mirroring f good).Holds Eq
      (search.fold (fun found x => pure (found.push x)) (#[] : Array α))
      (search'.fold (fun found x => pure (found.push x)) (#[] : Array α)) := by
    refine mirrors _ _ Eq _ _ ?_ _ _ rfl
    rintro found _ x _ rfl ⟨-, rfl⟩
    exact (Run.mirroring f good).pure rfl
  have empty : CallerTable.Mirrors f good [] [] := by
    refine ⟨?_, fun _ => rfl⟩
    intro fn calls found
    cases found
  rw [Search.Related.results_eq, Search.Related.results_eq]
  rcases collected [] [] empty with ⟨e, one, two⟩ | ⟨found, found', u, u', one, two, same, -⟩
  · rw [one, two]
  · rw [one, two, same]
    rfl

end Search.Mirrors

end JsonnetNav
