import JsonnetNav.Definition.Plan

/-! # Related searches

Searches are compared by what can be made of their finds. Two of them are related if they
hand over the same finds in turn, so that related steps lead to related results. How
computations with a table of calls are compared is left open: it may be about their tables,
about failures, or about one of the two only.
-/

namespace JsonnetNav

/-- A way to compare computations. It accepts related results, and computations that go on from
    related results. -/
structure RunRelation where
  Holds : {β γ : Type} → (β → γ → Prop) → Run β → Run γ → Prop
  fail : ∀ {β γ : Type} (rel : β → γ → Prop) (e : QueryError),
    Holds rel (throw e : Run β) (throw e : Run γ)
  pure : ∀ {β γ : Type} {rel : β → γ → Prop} {b : β} {c : γ},
    rel b c → Holds rel (Pure.pure b) (Pure.pure c)
  bind : ∀ {β γ β' γ' : Type} {rel : β → γ → Prop} {rel' : β' → γ' → Prop} {run : Run β}
    {run' : Run γ} {next : β → Run β'} {next' : γ → Run γ'}, Holds rel run run' →
      (∀ b c, rel b c → Holds rel' (next b) (next' c)) → Holds rel' (run >>= next) (run' >>= next')

theorem RunRelation.foldlM (Φ : RunRelation) {α β γ : Type} {rel : β → γ → Prop}
    {step : β → α → Run β} {step' : γ → α → Run γ} {xs : List α}
    (steps : ∀ b c, ∀ x ∈ xs, rel b c → Φ.Holds rel (step b x) (step' c x)) {b : β} {c : γ}
    (start : rel b c) : Φ.Holds rel (xs.foldlM step b) (xs.foldlM step' c) := by
  induction xs generalizing b c with
  | nil => exact Φ.pure start
  | cons x xs ih =>
      rw [List.foldlM_cons, List.foldlM_cons]
      apply Φ.bind (steps b c x (.head xs) start)
      exact fun b c => ih fun b c y member => steps b c y (.tail x member)

/-- The searches hand over the same finds, all of them of the given kind, and they do not look
    at what is made of them. -/
def Search.Related {α : Type} (Φ : RunRelation) (kind : α → Prop) (search search' : Search α) :
    Prop :=
  ∀ (β γ : Type) (rel : β → γ → Prop) (step : β → α → Run β) (step' : γ → α → Run γ),
    (∀ b c x, rel b c → kind x → Φ.Holds rel (step b x) (step' c x)) →
      ∀ b c, rel b c → Φ.Holds rel (search.fold step b) (search'.fold step' c)

namespace Search.Related

variable {α β : Type} {Φ : RunRelation} {kind : α → Prop} {kind' : β → Prop}
  {search search' : Search α}

theorem fail (error : QueryError) : Related Φ kind (.fail error) (.fail error) :=
  fun _ _ rel _ _ _ _ _ _ => Φ.fail rel error

theorem each {xs : List α} (all : ∀ x ∈ xs, kind x) : Related Φ kind (.each xs) (.each xs) := by
  intro γ δ rel step step' steps b c start
  exact Φ.foldlM (fun b c x member related => steps b c x related (all x member)) start

theorem append {more more' : Search α} (first : Related Φ kind search search')
    (second : Related Φ kind more more') :
    Related Φ kind (.append search more) (.append search' more') := by
  intro γ δ rel step step' steps b c start
  exact Φ.bind (first γ δ rel step step' steps b c start) (second γ δ rel step step' steps)

theorem bind {next next' : α → Search β} (first : Related Φ kind search search')
    (rest : ∀ x, kind x → Related Φ kind' (next x) (next' x)) :
    Related Φ kind' (search >>= next) (search' >>= next') := by
  intro γ δ rel step step' steps
  apply first γ δ rel
  intro b c x here is
  exact rest x is γ δ rel step step' steps b c here

/-- Collecting an image of what is found. -/
theorem collect (related : Related Φ kind search search') (g : α → β) :
    Φ.Holds (fun ys xs => ys.toList = xs.toList.map g ∧ ∀ x ∈ xs, kind x)
      (search.fold (fun found x => pure (found.push (g x))) (#[] : Array β))
      (search'.fold (fun found x => pure (found.push x)) (#[] : Array α)) := by
  apply related
  · intro ys xs x so_far is
    refine Φ.pure ⟨by simp [so_far.1], fun y member => ?_⟩
    rcases Array.mem_push.mp member with older | rfl
    · exact so_far.2 y older
    · exact is
  · simp

theorem toList (related : Related Φ kind search search') :
    Φ.Holds (fun ys xs => ys = xs ∧ ∀ x ∈ xs, kind x) search.toList search'.toList := by
  apply Φ.bind (related.collect id)
  intro ys xs found
  refine Φ.pure ⟨by simpa using found.1, fun x member => ?_⟩
  exact found.2 x (Array.mem_toList_iff.mp member)

theorem gather {next next' : List α → Search β} (first : Related Φ kind search search')
    (rest : ∀ xs, (∀ x ∈ xs, kind x) → Related Φ kind' (next xs) (next' xs)) :
    Related Φ kind' (.ofRun search.toList >>= next) (.ofRun search'.toList >>= next') := by
  intro γ δ rel step step' steps b c start
  apply Φ.bind first.toList
  intro xs ys found
  rw [found.1]
  exact rest ys found.2 γ δ rel step step' steps b c start

end Search.Related

/-- Where questions have suitable answers, the plan asks good questions only and finds things of
    the given kind. -/
def Plan.Keeps {α : Type} (asks : Question → Prop) (suits : (q : Question) → q.Find → Prop)
    (kind : α → Prop) : Plan α → Prop
  | found xs => ∀ x ∈ xs, kind x
  | fail _ => True
  | forEach xs next => ∀ x ∈ xs, (next x).Keeps asks suits kind
  | ask q next => asks q ∧ ∀ x, suits q x → (next x).Keeps asks suits kind
  | gather q next => asks q ∧ ∀ xs, (∀ x ∈ xs, suits q x) → (next xs).Keeps asks suits kind
  | append first second => first.Keeps asks suits kind ∧ second.Keeps asks suits kind

/-- A plan finds the same if the questions that it asks are answered alike. -/
theorem Plan.Keeps.run {α : Type} {Φ : RunRelation} {asks : Question → Prop}
    {suits : (q : Question) → q.Find → Prop} {kind : α → Prop}
    {answer answer' : (q : Question) → Search q.Find} {p : Plan α}
    (keeps : p.Keeps asks suits kind)
    (answers : ∀ q, asks q → Search.Related Φ (suits q) (answer q) (answer' q)) :
    Search.Related Φ kind (p.run answer) (p.run answer') := by
  induction p with
  | found xs => exact .each keeps
  | fail e => exact .fail e
  | forEach xs next ih =>
      have all : Search.Related Φ (· ∈ xs) (.each xs) (.each xs) := .each fun x member => member
      exact all.bind fun x member => ih x (keeps x member)
  | ask q next ih => exact (answers q keeps.1).bind fun x suits => ih x (keeps.2 x suits)
  | gather q next ih => exact (answers q keeps.1).gather fun xs suit => ih xs (keeps.2 xs suit)
  | append first second ih ih' => exact (ih keeps.1).append (ih' keeps.2)

end JsonnetNav
