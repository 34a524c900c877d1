import JsonnetNav.Definition.Finder
import JsonnetNav.Proofs.Documents
import Mathlib.Data.Set.Finite.Lattice
import Mathlib.Logic.Relation
import Mathlib.Order.Filter.AtTopBot.Basic
import Mathlib.Order.Filter.Finite

/-! # What a question finds and what it asks

A plan followed on plain lists: every question is answered in full before anything is
done with what it finds, and no answer is shared. A question that has no answer, because
the way to it never ends, may still hand over some finds. These say which questions a
question leads to. It has an answer exactly if that comes to an end, and if nothing on the
way is broken.
-/

namespace JsonnetNav

namespace Plan

variable {α : Type}

/-- What a plan finds if the questions have the given answers. -/
def value (answer : (q : Question) → Except QueryError (List q.Find)) :
    Plan α → Except QueryError (List α)
  | found xs => .ok xs
  | fail e => .error e
  | forEach xs next => xs.flatMapM fun x => (next x).value answer
  | ask q next => answer q >>= fun xs => xs.flatMapM fun x => (next x).value answer
  | gather q next => answer q >>= fun xs => (next xs).value answer
  | append first second => do return (← first.value answer) ++ (← second.value answer)

/-- The questions that a plan asks, computed from the answers. -/
def asked (answer : (q : Question) → Except QueryError (List q.Find)) : Plan α → List Question
  | found _ => []
  | fail _ => []
  | forEach xs next => xs.flatMap fun x => (next x).asked answer
  | ask q next => q ::
    match answer q with
    | .ok xs => xs.flatMap fun x => (next x).asked answer
    | .error _ => []
  | gather q next => q ::
    match answer q with
    | .ok xs => (next xs).asked answer
    | .error _ => []
  | append first second => first.asked answer ++ second.asked answer

variable (hands : (q : Question) → q.Find → Prop) (finds : (q : Question) → List q.Find → Prop)

/-- The plan comes to hand over a find, where questions hand over and find what is given. -/
def Hands : Plan α → α → Prop
  | found xs, x => x ∈ xs
  | fail _, _ => False
  | forEach ys next, x => ∃ y ∈ ys, (next y).Hands x
  | ask q next, x => ∃ y, hands q y ∧ (next y).Hands x
  | gather q next, x => ∃ ys, finds q ys ∧ (next ys).Hands x
  | append first second, x => first.Hands x ∨ second.Hands x

/-- What the plan comes to besides its finds: a question that it asks, or a failure. -/
def Meets : Plan α → Option Question → Prop
  | found _, _ => False
  | fail _, m => m = .none
  | forEach ys next, m => ∃ y ∈ ys, (next y).Meets m
  | ask q next, m => m = some q ∨ ∃ y, hands q y ∧ (next y).Meets m
  | gather q next, m => m = some q ∨ ∃ ys, finds q ys ∧ (next ys).Meets m
  | append first second, m => first.Meets m ∨ second.Meets m

/-- The plan comes to ask a question. -/
def Asks (p : Plan α) (q : Question) : Prop :=
  p.Meets hands finds (some q)

/-- The plan comes to a failure. -/
def Breaks (p : Plan α) : Prop :=
  p.Meets hands finds .none

theorem flatMapM_eq_ok {β : Type} {f : β → Except QueryError (List α)} {xs : List β} {l : List α}
    (done : xs.flatMapM f = .ok l) :
    ∃ g : β → List α, (∀ x ∈ xs, f x = .ok (g x)) ∧ l = xs.flatMap g := by
  let g := fun x => (f x).toOption.getD []
  have found {x : β} {l : List α} (one : f x = .ok l) : g x = l := by
    simp only [g, one]
    rfl
  use g
  induction xs generalizing l with
  | nil =>
      cases done
      simp
  | cons y ys ih =>
      rw [List.flatMapM_cons] at done
      obtain ⟨l', first, done⟩ := Except.bind_eq_ok.mp done
      obtain ⟨ls, rest, done⟩ := Except.bind_eq_ok.mp done
      cases done
      obtain ⟨each, rfl⟩ := ih rest
      constructor
      · intro x mem
        cases mem with
        | head => rw [first, found first]
        | tail _ mem => exact each x mem
      · rw [List.flatMap_cons, found first]

theorem flatMapM_mono {β : Type} {f g : β → Except QueryError (List α)}
    (more : ∀ x l, f x = .ok l → g x = .ok l) {xs : List β} {l : List α}
    (done : xs.flatMapM f = .ok l) : xs.flatMapM g = .ok l := by
  induction xs generalizing l with
  | nil => exact done
  | cons y ys ih =>
      rw [List.flatMapM_cons] at done ⊢
      obtain ⟨l', first, done⟩ := Except.bind_eq_ok.mp done
      obtain ⟨ls, rest, done⟩ := Except.bind_eq_ok.mp done
      rw [more y l' first, ih rest]
      exact done

variable {hands finds} {answer answer' : (q : Question) → Except QueryError (List q.Find)}

/-- More answers do not change what a plan finds. -/
theorem value_mono (more : ∀ q l, answer q = .ok l → answer' q = .ok l) (p : Plan α) {l : List α}
    (done : p.value answer = .ok l) : p.value answer' = .ok l := by
  induction p generalizing l with
  | found xs => exact done
  | fail e => cases done
  | forEach xs next ih => exact flatMapM_mono (fun x l => ih x) done
  | ask q next ih =>
      obtain ⟨xs, asked, done⟩ := Except.bind_eq_ok.mp done
      rw [value, more q xs asked]
      exact flatMapM_mono (fun x l => ih x) done
  | gather q next ih =>
      obtain ⟨xs, asked, done⟩ := Except.bind_eq_ok.mp done
      rw [value, more q xs asked]
      exact ih xs done
  | append first second ihFirst ihSecond =>
      obtain ⟨l', one, done⟩ := Except.bind_eq_ok.mp done
      obtain ⟨ls, two, done⟩ := Except.bind_eq_ok.mp done
      rw [value, ihFirst one, ihSecond two]
      exact done

theorem Hands.mono {hands' : (q : Question) → q.Find → Prop} (more : ∀ q x, hands q x → hands' q x)
    (p : Plan α) {x : α} (handed : p.Hands hands finds x) : p.Hands hands' finds x := by
  induction p with
  | found xs => exact handed
  | fail e => exact handed
  | forEach ys next ih =>
      obtain ⟨y, mem, handed⟩ := handed
      exact ⟨y, mem, ih y handed⟩
  | ask q next ih =>
      obtain ⟨y, first, handed⟩ := handed
      exact ⟨y, more q y first, ih y handed⟩
  | gather q next ih =>
      obtain ⟨ys, found, handed⟩ := handed
      exact ⟨ys, found, ih ys handed⟩
  | append first second ihFirst ihSecond => exact handed.imp ihFirst ihSecond

/-- The list is the answer to a question, and all that it hands over. -/
structure Answers (hands : (q : Question) → q.Find → Prop)
    (finds : (q : Question) → List q.Find → Prop) (q : Question) (l : List q.Find) : Prop where
  finds_iff : ∀ l', finds q l' ↔ l' = l
  hands_iff : ∀ x, hands q x ↔ x ∈ l

/-- A plan that finds something hands over just that. -/
theorem hands_iff (answers : ∀ q l, answer q = .ok l → Answers hands finds q l) (p : Plan α)
    {l : List α} (done : p.value answer = .ok l) (x : α) : p.Hands hands finds x ↔ x ∈ l := by
  induction p generalizing l with
  | found xs =>
      cases done
      exact Iff.rfl
  | fail e => cases done
  | forEach ys next ih =>
      obtain ⟨g, each, rfl⟩ := flatMapM_eq_ok done
      rw [List.mem_flatMap]
      exact exists_congr fun y => and_congr_right fun mem => ih y (each y mem)
  | ask q next ih =>
      obtain ⟨ys, asked, done⟩ := Except.bind_eq_ok.mp done
      obtain ⟨g, each, rfl⟩ := flatMapM_eq_ok done
      rw [List.mem_flatMap]
      apply exists_congr
      intro y
      rw [(answers q ys asked).hands_iff]
      exact and_congr_right fun mem => ih y (each y mem)
  | gather q next ih =>
      obtain ⟨ys, asked, done⟩ := Except.bind_eq_ok.mp done
      simp only [Hands, (answers q ys asked).finds_iff, exists_eq_left]
      exact ih ys done
  | append first second ihFirst ihSecond =>
      obtain ⟨l', one, done⟩ := Except.bind_eq_ok.mp done
      obtain ⟨ls, two, done⟩ := Except.bind_eq_ok.mp done
      cases done
      rw [List.mem_append, ← ihFirst one, ← ihSecond two]
      exact Iff.rfl

/-- A plan that finds something met no failure, and every question that it met had an
    answer. -/
theorem answered_of_value (answers : ∀ q l, answer q = .ok l → Answers hands finds q l)
    (p : Plan α) {l : List α} (done : p.value answer = .ok l) {m : Option Question}
    (meets : p.Meets hands finds m) : ∃ q ∈ m, ∃ l, answer q = .ok l := by
  induction p generalizing l with
  | found xs => exact meets.elim
  | fail e => cases done
  | forEach ys next ih =>
      obtain ⟨y, mem, meets⟩ := meets
      obtain ⟨g, each, -⟩ := flatMapM_eq_ok done
      exact ih y (each y mem) meets
  | ask q next ih =>
      obtain ⟨ys, asked, done⟩ := Except.bind_eq_ok.mp done
      rcases meets with rfl | ⟨y, first, meets⟩
      · exact ⟨q, rfl, ys, asked⟩
      · obtain ⟨g, each, -⟩ := flatMapM_eq_ok done
        have mem := ((answers q ys asked).hands_iff y).mp first
        exact ih y (each y mem) meets
  | gather q next ih =>
      obtain ⟨ys, asked, done⟩ := Except.bind_eq_ok.mp done
      rcases meets with rfl | ⟨ys', found, meets⟩
      · exact ⟨q, rfl, ys, asked⟩
      · cases ((answers q ys asked).finds_iff ys').mp found
        exact ih ys done meets
  | append first second ihFirst ihSecond =>
      obtain ⟨l', one, done⟩ := Except.bind_eq_ok.mp done
      obtain ⟨ls, two, -⟩ := Except.bind_eq_ok.mp done
      rcases meets with meets | meets
      · exact ihFirst one meets
      · exact ihSecond two meets

theorem mem_asked (answers : ∀ q l, answer q = .ok l → Answers hands finds q l) (p : Plan α)
    {l : List α} (done : p.value answer = .ok l) (q : Question) :
    q ∈ p.asked answer ↔ p.Asks hands finds q := by
  induction p generalizing l with
  | found xs => exact List.mem_nil_iff q
  | fail e => cases done
  | forEach ys next ih =>
      obtain ⟨g, each, -⟩ := flatMapM_eq_ok done
      rw [asked, List.mem_flatMap]
      exact exists_congr fun y => and_congr_right fun mem => ih y (each y mem)
  | ask q' next ih =>
      obtain ⟨ys, answered, done⟩ := Except.bind_eq_ok.mp done
      obtain ⟨g, each, -⟩ := flatMapM_eq_ok done
      rw [asked, answered, List.mem_cons, List.mem_flatMap]
      apply or_congr
      · exact Option.some_inj.symm
      · apply exists_congr
        intro y
        rw [(answers q' ys answered).hands_iff]
        exact and_congr_right fun mem => ih y (each y mem)
  | gather q' next ih =>
      obtain ⟨ys, answered, done⟩ := Except.bind_eq_ok.mp done
      rw [asked, answered, List.mem_cons]
      apply or_congr
      · exact Option.some_inj.symm
      · simp only [(answers q' ys answered).finds_iff, exists_eq_left]
        exact ih ys done
  | append first second ihFirst ihSecond =>
      obtain ⟨l', one, done⟩ := Except.bind_eq_ok.mp done
      obtain ⟨ls, two, -⟩ := Except.bind_eq_ok.mp done
      rw [asked, List.mem_append, ihFirst one, ihSecond two]
      exact Iff.rfl

end Plan

namespace Workspace

open Filter Relation

variable {w : Workspace} {α β : Type}

/-- The answer to a question, followed on plain lists. -/
def value (w : Workspace) : (depth : Nat) → (q : Question) → Except QueryError (List q.Find)
  | 0, _ => .error .tooDeep
  | depth + 1, q => q.site.demandFile >>= fun _ => (w.plan q).value (w.value depth)

/-- The question has an answer, and this is it. -/
def Finds (w : Workspace) (q : Question) (l : List q.Find) : Prop :=
  ∃ depth, w.value depth q = .ok l

/-- The plan finds this list. -/
def Gives (w : Workspace) (p : Plan α) (l : List α) : Prop :=
  ∃ depth, p.value (w.value depth) = .ok l

/-- What a question hands over within a depth. -/
def handsAt (w : Workspace) : (depth : Nat) → (q : Question) → q.Find → Prop
  | 0, _, _ => False
  | depth + 1, q, x =>
    q.site.demandFile = .ok () ∧ (w.plan q).Hands (w.handsAt depth) w.Finds x

/-- The question hands over a find, whether or not it has an answer. -/
def Hands (w : Workspace) (q : Question) (x : q.Find) : Prop :=
  ∃ depth, w.handsAt depth q x

/-- The first question asks the second one on its way to an answer. -/
def Asks (w : Workspace) (q q' : Question) : Prop :=
  (w.plan q).Asks w.Hands w.Finds q'

/-- The question is about a file, and the way to its answer meets no failure. -/
def Intact (w : Workspace) (q : Question) : Prop :=
  q.site.demandFile = .ok () ∧ ¬ (w.plan q).Breaks w.Hands w.Finds

/-- The questions that a question asks, those that these ask, and so on, come to an end. -/
def Ends (w : Workspace) (q : Question) : Prop :=
  Acc (fun q' q => w.Asks q q') q

/-- More depth does not change an answer. -/
theorem value_mono {depth depth' : Nat} (le : depth ≤ depth') {q : Question} {l : List q.Find}
    (done : w.value depth q = .ok l) : w.value depth' q = .ok l := by
  induction depth generalizing depth' q l with
  | zero => cases done
  | succ depth ih =>
      cases depth' with
      | zero => omega
      | succ depth' =>
          obtain ⟨_, file, done⟩ := Except.bind_eq_ok.mp done
          rw [value, file]
          exact Plan.value_mono (fun q l => ih (by omega)) (w.plan q) done

theorem Finds.eventually {q : Question} {l : List q.Find} (found : w.Finds q l) :
    ∀ᶠ depth in atTop, w.value depth q = .ok l := by
  obtain ⟨depth, done⟩ := found
  filter_upwards [eventually_ge_atTop depth] with depth' le
  exact value_mono le done

theorem Gives.eventually {p : Plan α} {l : List α} (gives : w.Gives p l) :
    ∀ᶠ depth in atTop, p.value (w.value depth) = .ok l := by
  obtain ⟨depth, done⟩ := gives
  filter_upwards [eventually_ge_atTop depth] with depth' le
  exact Plan.value_mono (fun q l => value_mono le) p done

theorem gives_unique {p : Plan α} {l l' : List α} (gives : w.Gives p l) (gives' : w.Gives p l') :
    l = l' := by
  obtain ⟨depth, one, two⟩ := (gives.eventually.and gives'.eventually).exists
  rw [one] at two
  cases two
  rfl

theorem finds_step (q : Question) (l : List q.Find) :
    w.Finds q l ↔ q.site.demandFile = .ok () ∧ w.Gives (w.plan q) l := by
  constructor
  · rintro ⟨depth, done⟩
    cases depth with
    | zero => cases done
    | succ depth =>
        obtain ⟨_, file, done⟩ := Except.bind_eq_ok.mp done
        exact ⟨file, depth, done⟩
  · rintro ⟨file, depth, done⟩
    exact ⟨depth + 1, by rw [value, file]; exact done⟩

theorem finds_unique {q : Question} {l l' : List q.Find} (found : w.Finds q l)
    (found' : w.Finds q l') : l = l' :=
  gives_unique ((finds_step q l).mp found).2 ((finds_step q l').mp found').2

theorem handsAt_mono {depth depth' : Nat} (le : depth ≤ depth') {q : Question} {x : q.Find}
    (handed : w.handsAt depth q x) : w.handsAt depth' q x := by
  induction depth generalizing depth' q x with
  | zero => exact handed.elim
  | succ depth ih =>
      cases depth' with
      | zero => omega
      | succ depth' =>
          obtain ⟨file, handed⟩ := handed
          exact ⟨file, Plan.Hands.mono (fun q x => ih (by omega)) (w.plan q) handed⟩

theorem exists_handsAt (p : Plan α) {x : α} (handed : p.Hands w.Hands w.Finds x) :
    ∃ depth, p.Hands (w.handsAt depth) w.Finds x := by
  induction p with
  | found xs => exact ⟨0, handed⟩
  | fail e => exact ⟨0, handed⟩
  | forEach ys next ih =>
      obtain ⟨y, mem, handed⟩ := handed
      obtain ⟨depth, handed⟩ := ih y handed
      exact ⟨depth, y, mem, handed⟩
  | ask q next ih =>
      obtain ⟨y, ⟨depth, first⟩, handed⟩ := handed
      obtain ⟨depth', handed⟩ := ih y handed
      refine ⟨max depth depth', y, handsAt_mono (by omega) first, ?_⟩
      exact Plan.Hands.mono (fun q x => handsAt_mono (by omega)) (next y) handed
  | gather q next ih =>
      obtain ⟨ys, found, handed⟩ := handed
      obtain ⟨depth, handed⟩ := ih ys handed
      exact ⟨depth, ys, found, handed⟩
  | append first second ihFirst ihSecond =>
      rcases handed with handed | handed
      · exact (ihFirst handed).imp fun _ => .inl
      · exact (ihSecond handed).imp fun _ => .inr

theorem hands_step (q : Question) (x : q.Find) :
    w.Hands q x ↔ q.site.demandFile = .ok () ∧ (w.plan q).Hands w.Hands w.Finds x := by
  constructor
  · rintro ⟨depth, handed⟩
    cases depth with
    | zero => exact handed.elim
    | succ depth =>
        obtain ⟨file, handed⟩ := handed
        exact ⟨file, Plan.Hands.mono (fun q x handed => ⟨depth, handed⟩) (w.plan q) handed⟩
  · rintro ⟨file, handed⟩
    obtain ⟨depth, handed⟩ := exists_handsAt (w.plan q) handed
    exact ⟨depth + 1, file, handed⟩

theorem answers_of_value {depth : Nat} {q : Question} {l : List q.Find}
    (done : w.value depth q = .ok l) : Plan.Answers w.Hands w.Finds q l := by
  induction depth generalizing q l with
  | zero => cases done
  | succ depth ih =>
      have found : w.Finds q l := ⟨depth + 1, done⟩
      obtain ⟨_, file, done⟩ := Except.bind_eq_ok.mp done
      constructor
      · intro l'
        constructor
        · exact fun found' => finds_unique found' found
        · rintro rfl
          exact found
      · intro x
        rw [hands_step, and_iff_right file]
        exact (w.plan q).hands_iff (fun q l => ih) done x

theorem Finds.answers {q : Question} {l : List q.Find} (found : w.Finds q l) :
    Plan.Answers w.Hands w.Finds q l := by
  obtain ⟨depth, done⟩ := found
  exact answers_of_value done

/-- One plan for each member of a list. -/
theorem eventually_flatMapM {next : β → Plan α} {xs : List β} {ls : List (List α)}
    (each : List.Forall₂ (fun x l => w.Gives (next x) l) xs ls) :
    ∀ᶠ depth in atTop, xs.flatMapM (fun x => (next x).value (w.value depth)) = .ok ls.flatten := by
  induction each with
  | nil => exact .of_forall fun _ => rfl
  | cons gives _ ih =>
      filter_upwards [gives.eventually, ih] with depth first rest
      rw [List.flatMapM_cons, first, rest]
      rfl

theorem exists_lists {next : β → Plan α} {xs : List β}
    (each : ∀ x ∈ xs, ∃ l, w.Gives (next x) l) :
    ∃ ls, List.Forall₂ (fun x l => w.Gives (next x) l) xs ls := by
  induction xs with
  | nil => exact ⟨[], .nil⟩
  | cons y ys ih =>
      obtain ⟨l, first⟩ := each y List.mem_cons_self
      obtain ⟨ls, rest⟩ := ih fun x mem => each x (List.mem_cons_of_mem y mem)
      exact ⟨l :: ls, .cons first rest⟩

theorem exists_gives (p : Plan α) (unbroken : ¬ p.Breaks w.Hands w.Finds)
    (answered : ∀ q, p.Asks w.Hands w.Finds q → ∃ l, w.Finds q l) : ∃ l, w.Gives p l := by
  induction p with
  | found xs => exact ⟨xs, 0, rfl⟩
  | fail e => exact (unbroken rfl).elim
  | forEach ys next ih =>
      obtain ⟨ls, lists⟩ := exists_lists fun y mem => ih y
        (fun breaks => unbroken ⟨y, mem, breaks⟩) fun q asks => answered q ⟨y, mem, asks⟩
      exact ⟨ls.flatten, (eventually_flatMapM lists).exists⟩
  | ask q next ih =>
      obtain ⟨ys, found⟩ := answered q (.inl rfl)
      have handed {y} := (found.answers.hands_iff y).mpr
      obtain ⟨ls, lists⟩ := exists_lists fun y mem => ih y
        (fun breaks => unbroken (.inr ⟨y, handed mem, breaks⟩))
        fun q' asks => answered q' (.inr ⟨y, handed mem, asks⟩)
      obtain ⟨depth, first, rest⟩ := (found.eventually.and (eventually_flatMapM lists)).exists
      exact ⟨ls.flatten, depth, by rw [Plan.value, first]; exact rest⟩
  | gather q next ih =>
      obtain ⟨ys, found⟩ := answered q (.inl rfl)
      obtain ⟨l, gives⟩ := ih ys (fun breaks => unbroken (.inr ⟨ys, found, breaks⟩))
        fun q' asks => answered q' (.inr ⟨ys, found, asks⟩)
      obtain ⟨depth, first, rest⟩ := (found.eventually.and gives.eventually).exists
      exact ⟨l, depth, by rw [Plan.value, first]; exact rest⟩
  | append first second ihFirst ihSecond =>
      obtain ⟨l, gives⟩ := ihFirst (fun breaks => unbroken (.inl breaks))
        fun q asks => answered q (.inl asks)
      obtain ⟨ls, gives'⟩ := ihSecond (fun breaks => unbroken (.inr breaks))
        fun q asks => answered q (.inr asks)
      obtain ⟨depth, one, two⟩ := (gives.eventually.and gives'.eventually).exists
      exact ⟨l ++ ls, depth, by rw [Plan.value, one, two]; rfl⟩

/-- A plan finds something exactly if it meets no failure, and every question that it meets
    has an answer. -/
theorem exists_gives_iff (p : Plan α) :
    (∃ l, w.Gives p l) ↔ ¬ p.Breaks w.Hands w.Finds ∧
      ∀ q, p.Asks w.Hands w.Finds q → ∃ l, w.Finds q l := by
  constructor
  · rintro ⟨l, depth, done⟩
    have answered {m : Option Question} (meets : p.Meets w.Hands w.Finds m) :
        ∃ q ∈ m, ∃ l, w.value depth q = .ok l :=
      p.answered_of_value (fun q l => answers_of_value) done meets
    constructor
    · intro breaks
      obtain ⟨_, is, -⟩ := answered breaks
      cases is
    · intro q asks
      obtain ⟨_, is, l', asked⟩ := answered asks
      cases is
      exact ⟨l', depth, asked⟩
  · rintro ⟨unbroken, answered⟩
    exact exists_gives p unbroken answered

/-- A question has an answer exactly if it is intact and the questions that it asks have
    answers. -/
theorem exists_finds_step (q : Question) :
    (∃ l, w.Finds q l) ↔ w.Intact q ∧ ∀ q', w.Asks q q' → ∃ l, w.Finds q' l := by
  simp only [finds_step q, exists_and_left, exists_gives_iff, Intact, Asks, and_assoc]

theorem Finds.ends {q : Question} {l : List q.Find} (found : w.Finds q l) : w.Ends q := by
  obtain ⟨depth, done⟩ := found
  induction depth generalizing q l with
  | zero => cases done
  | succ depth ih =>
      obtain ⟨_, -, done⟩ := Except.bind_eq_ok.mp done
      constructor
      intro q' asks
      obtain ⟨_, is, l', asked⟩ :=
        (w.plan q).answered_of_value (fun q l => answers_of_value) done asks
      cases is
      exact ih asked

/-- No question that comes to an end is asked again on the way. -/
theorem Ends.not_asked_again {q q' : Question} (ends : w.Ends q) (asks : w.Asks q q') :
    ¬ ReflTransGen w.Asks q' q := by
  induction ends generalizing q' with
  | intro q _ ih =>
      intro back
      -- a ring through `q` is also a ring through the next question on it
      rcases back.cases_head with rfl | ⟨q'', asks', back'⟩
      · exact ih q' asks asks .refl
      · exact ih q' asks asks' (back'.tail asks)

/-- A question has an answer exactly if the questions behind it come to an end and are all
    intact. -/
theorem exists_finds_iff (q : Question) :
    (∃ l, w.Finds q l) ↔ w.Ends q ∧ ∀ q', ReflTransGen w.Asks q q' → w.Intact q' := by
  constructor
  · rintro ⟨l, found⟩
    constructor
    · exact found.ends
    · intro q' leads
      have answered : ∃ l, w.Finds q' l := by
        induction leads with
        | refl => exact ⟨l, found⟩
        | tail _ asks ih => exact ((exists_finds_step _).mp ih).2 _ asks
      exact ((exists_finds_step q').mp answered).1
  · rintro ⟨ends, intact⟩
    induction ends with
    | intro q _ ih =>
        apply (exists_finds_step q).mpr
        constructor
        · exact intact q .refl
        · intro q' asks
          exact ih q' asks fun q'' leads => intact q'' (.head asks leads)

end Workspace

end JsonnetNav
