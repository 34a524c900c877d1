import JsonnetNav.Answers.Definition
import JsonnetNav.Proofs.HonestTables
import JsonnetNav.Store.Basic
import Mathlib

/-! # When the definitions of a name are found

Looking up a definition follows variables, calls, fields and imports, and nothing stops it
from running in a circle. Only the calls of a function are not collected twice. So there
is a depth at which the definitions are found exactly if the questions on the way come to
an end and none of them is broken, as long as no circle leads through the calls of a
function.
-/

namespace JsonnetNav

/-- The function whose calls are asked for. -/
def Question.fn? : Question → Option Site
  | callers fn => some fn
  | _ => none

/-- The search fails, whatever is done with its finds. -/
def Search.Fails {α : Type} (search : Search α) (error : QueryError) : Prop :=
  ∀ (β : Type) (step : β → α → Run β) (b : β) (t : CallerTable),
    search.fold step b t = .error error

theorem Run.bind_error {α β : Type} {run : Run α} {next : α → Run β} {t : CallerTable}
    {error : QueryError} (failed : run t = .error error) : (run >>= next) t = .error error := by
  have first : (run >>= next) t = run t >>= fun (a, t) => next a t := rfl
  rw [first, failed]
  rfl

theorem Search.Fails.toList {α : Type} {search : Search α} {error : QueryError}
    (fails : search.Fails error) (t : CallerTable) : search.toList t = .error error :=
  Run.bind_error (fails (Array α) _ #[] t)

theorem Search.Fails.results {α : Type} {search : Search α} {error : QueryError}
    (fails : search.Fails error) : search.results = .error error := by
  rw [Search.results, StateT.run', fails.toList]
  rfl

namespace Plan

variable {α : Type}

/-- The question that a plan asks before it does anything else. -/
def first? : Plan α → Option Question
  | ask q _ => some q
  | gather q _ => some q
  | forEach (x :: _) next => (next x).first?
  | append first _ => first.first?
  | _ => Option.none

theorem run_fails {search : (q : Question) → Search q.Find} {error : QueryError} {q : Question}
    (fails : (search q).Fails error) (p : Plan α) (first : p.first? = some q) :
    (p.run search).Fails error := by
  induction p with
  | found xs => cases first
  | fail e => cases first
  | forEach xs next ih =>
      cases xs with
      | nil => cases first
      | cons x xs =>
          intro β step b t
          have one : ((x :: xs).foldlM (fun b x => ((next x).run search).fold step b) b) t =
              .error error := by
            rw [List.foldlM_cons]
            exact Run.bind_error (ih x first β step b t)
          exact one
  | ask q' next ih =>
      cases first
      intro β step b t
      exact fails β _ b t
  | gather q' next ih =>
      cases first
      intro β step b t
      exact Run.bind_error (fails.toList t)
  | append one two ihOne ihTwo =>
      intro β step b t
      exact Run.bind_error (ihOne first β step b t)

end Plan

namespace Workspace

open Relation

variable {w : Workspace} {α : Type}

/-- The questions that a plan asks, those that these ask, and so on, never come to an end. -/
def Endless (w : Workspace) (p : Plan α) : Prop :=
  ∃ chain : Nat → Question, p.Asks w.Hands w.Finds (chain 0) ∧
    ∀ i, w.Asks (chain i) (chain (i + 1))

/-- Neither the plan nor a question behind it meets a failure. -/
def Unbroken (w : Workspace) (p : Plan α) : Prop :=
  ¬ p.Breaks w.Hands w.Finds ∧ ∀ q, w.Behind p q → w.Intact q

/-- To collect the calls of some function, they have to be known already. -/
def Circular (w : Workspace) (p : Plan α) : Prop :=
  ∃ fn, w.Behind p (.callers fn) ∧ TransGen w.Asks (.callers fn) (.callers fn)

/-- A plan finds something exactly if its questions come to an end and nothing is broken. -/
theorem exists_gives_iff_unbroken (p : Plan α) :
    (∃ l, w.Gives p l) ↔ ¬ w.Endless p ∧ w.Unbroken p := by
  rw [exists_gives_iff]
  constructor
  · rintro ⟨unbroken, answered⟩
    refine ⟨?_, unbroken, ?_⟩
    · rintro ⟨chain, asks, later⟩
      obtain ⟨ends, -⟩ := (exists_finds_iff _).mp (answered _ asks)
      exact not_acc_iff_exists_descending_chain.mpr ⟨chain, rfl, later⟩ ends
    · rintro q ⟨first, asks, leads⟩
      obtain ⟨-, intact⟩ := (exists_finds_iff first).mp (answered first asks)
      exact intact q leads
  · rintro ⟨ends, unbroken, intact⟩
    refine ⟨unbroken, ?_⟩
    intro q asks
    apply (exists_finds_iff q).mpr
    constructor
    · by_contra endless
      obtain ⟨chain, rfl, later⟩ := not_acc_iff_exists_descending_chain.mp endless
      exact ends ⟨chain, asks, later⟩
    · exact fun q' leads => intact q' ⟨q, asks, leads⟩

/-- Nothing stands in the way of the definitions of the name at a site. -/
structure Definable (w : Workspace) (s : Site) : Prop where
  file : s.demandFile = .ok ()
  ends : ¬ w.Endless (w.definitionPlan s)
  unbroken : w.Unbroken (w.definitionPlan s)

theorem definitions_at {d : Document} (resolved : d.isResolved) {target : Range} {s : Site}
    (here : d.nodeAt? target = some s) (depth : Nat) :
    w.definitions d target depth =
      s.demandFile >>= fun _ => ((w.definitionPlan s).run (w.search depth)).results := by
  have inside : w.definitions d target depth = (w.definitionsOf depth s).results := by
    rw [definitions, Document.demandResolved, if_pos resolved, here]
    rfl
  rw [inside, definitionsOf]
  cases s.demandFile <;> rfl

/-- All questions behind a plan, within a depth. -/
def askedBehind (w : Workspace) : (depth : Nat) → {α : Type} → Plan α → List Question
  | 0, _, _ => []
  | depth + 1, _, p =>
    (p.asked (w.value depth)).flatMap fun q => q :: w.askedBehind depth (w.plan q)

theorem mem_askedBehind {depth : Nat} {p : Plan α} {l : List α}
    (done : p.value (w.value depth) = .ok l) {q : Question} (behind : w.Behind p q) :
    q ∈ w.askedBehind (depth + 1) p := by
  induction depth generalizing α with
  | zero =>
      obtain ⟨q', asks, -⟩ := behind
      obtain ⟨_, is, _, answered⟩ := p.answered_of_value (fun q l => answers_of_value) done asks
      cases answered
  | succ depth ih =>
      obtain ⟨q', asks, leads⟩ := behind
      have mem := (p.mem_asked (fun q l => answers_of_value) done q').mpr asks
      apply List.mem_flatMap.mpr
      refine ⟨q', mem, ?_⟩
      rcases leads.cases_head with rfl | ⟨q'', asks', leads'⟩
      · exact List.mem_cons_self
      · obtain ⟨_, is, _, answered⟩ := p.answered_of_value (fun q l => answers_of_value) done asks
        cases is
        obtain ⟨_, -, done'⟩ := Except.bind_eq_ok.mp answered
        exact List.mem_cons_of_mem q' (ih done' ⟨q'', asks', leads'⟩)

theorem apart_of_single {depth : Nat} {p : Plan α} {l : List α}
    (done : p.value (w.value depth) = .ok l)
    (single : ((w.askedBehind (depth + 1) p).filterMap Question.fn?).length = 1) :
    Apart (w.Behind p) := by
  obtain ⟨only, list⟩ := List.length_eq_one_iff.mp single
  have is (fn : Site) (behind : w.Behind p (.callers fn)) : fn = only := by
    have mem : fn ∈ (w.askedBehind (depth + 1) p).filterMap Question.fn? :=
      List.mem_filterMap.mpr ⟨.callers fn, mem_askedBehind done behind, rfl⟩
    rw [list] at mem
    exact List.mem_singleton.mp mem
  intro fn fn' behind behind' _
  rw [is fn behind, is fn' behind']

/-- Outside of all names nothing is defined. The definitions of a name are what its plan
    finds on plain lists, from some depth on, if nothing stands in their way. If they are
    found at any depth, then nothing does, unless the calls of a function are needed to
    collect them. -/
theorem definitions_found (w : Workspace) {d : Document} (resolved : d.isResolved)
    (target : Range) :
    (d.nodeAt? target = none → ∀ depth, w.definitions d target depth = .ok []) ∧
    ∀ s, d.nodeAt? target = some s → Apart (w.Behind (w.definitionPlan s)) →
      (w.Definable s → ∃ l, w.Gives (w.definitionPlan s) l ∧
        ∃ least, ∀ depth ≥ least, w.definitions d target depth = .ok l) ∧
      (¬ w.Circular (w.definitionPlan s) → ∀ depth l, w.definitions d target depth = .ok l →
        w.Gives (w.definitionPlan s) l ∧ w.Definable s) := by
  constructor
  · intro outside depth
    rw [definitions, Document.demandResolved, if_pos resolved, outside]
    rfl
  · intro s here apart
    simp only [definitions_at resolved here]
    constructor
    · rintro ⟨file, ends, unbroken⟩
      obtain ⟨l, gives⟩ := (exists_gives_iff_unbroken (w.definitionPlan s)).mpr ⟨ends, unbroken⟩
      obtain ⟨least, found⟩ := Filter.eventually_atTop.mp (eventually_results gives apart)
      refine ⟨l, gives, least, ?_⟩
      intro depth deep
      rw [file]
      exact found depth deep
    · intro straight depth l done
      obtain ⟨_, file, done⟩ := Except.bind_eq_ok.mp done
      have gives := gives_of_results apart
        (fun fn q behind asks back => straight ⟨fn, behind, .head' asks back⟩) done
      obtain ⟨ends, unbroken⟩ := (exists_gives_iff_unbroken _).mp ⟨l, gives⟩
      exact ⟨gives, file, ends, unbroken⟩

/-- The document of `local f(p) = p.f; f({f: null})`. -/
def calledDocument : Document :=
  let name (line column : Nat) (text : String) : Ident :=
    ⟨Range.ofNats line column line (column + 1), .ofString text⟩
  let object : Expr := .object (Range.ofNats 1 2 1 10) [] []
    [⟨Range.ofNats 1 4 1 8, .fixed (Range.ofNats 1 4 1 5) (name 1 4 "f"),
      .null (Range.ofNats 1 7 1 8), .default, false⟩]
  let param : Param := ⟨Range.ofNats 0 8 0 9, name 0 8 "p", none⟩
  let bind : LocalBind := ⟨Range.ofNats 0 6 0 16, name 0 6 "f",
    .fn (Range.ofNats 0 6 0 16) [param]
      (.fieldAccess (Range.ofNats 0 13 0 16) (.ref (name 0 13 "p")) (name 0 15 "f"))⟩
  let call : Expr := .call (Range.ofNats 1 0 1 11) (.ref (name 1 0 "f"))
    [⟨Range.ofNats 1 2 1 10, object, none⟩]
  let document : Document :=
    { uri := "file:///x"
      root := .expr (.document (Range.ofNats 0 0 1 11)
        (.localIn (Range.ofNats 0 0 1 11) [bind] call)) }
  document.resolve

/-- What is seen of a store that holds one document. -/
def alone (d : Document) : Workspace :=
  ({ config := {}, workspaceUri := "file:///", documents := [(d.uri, d)] } : Store).workspace {}

def calledWorkspace : Workspace :=
  alone calledDocument

theorem called_computed :
    (calledDocument.nodeAt? (Range.ofNats 0 15 0 15)).map (fun s =>
      let plan := calledWorkspace.definitionPlan s
      (s.demandFile, plan.value (calledWorkspace.value 8),
        ((calledWorkspace.askedBehind 9 plan).filterMap Question.fn?).length)) =
      some (.ok (), .ok [⟨"file:///x", Range.ofNats 1 4 1 5⟩], 1) := by
  cbv

/-- The field of a parameter is found in the argument of the only call. -/
theorem called_definition_found :
    calledDocument.isResolved ∧
    ∃ s, calledDocument.nodeAt? (Range.ofNats 0 15 0 15) = some s ∧
      Apart (calledWorkspace.Behind (calledWorkspace.definitionPlan s)) ∧
      calledWorkspace.Definable s ∧
      ∃ least, ∀ depth ≥ least,
        calledWorkspace.definitions calledDocument (Range.ofNats 0 15 0 15) depth =
          .ok [⟨"file:///x", Range.ofNats 1 4 1 5⟩] := by
  have resolved : calledDocument.isResolved := rfl
  obtain ⟨s, here, computed⟩ := Option.map_eq_some_iff.mp called_computed
  obtain ⟨file, computed⟩ := Prod.mk.inj computed
  obtain ⟨value, single⟩ := Prod.mk.inj computed
  have apart := apart_of_single value single
  have gives : calledWorkspace.Gives (calledWorkspace.definitionPlan s) _ := ⟨8, value⟩
  obtain ⟨ends, unbroken⟩ := (exists_gives_iff_unbroken _).mp ⟨_, gives⟩
  have definable : calledWorkspace.Definable s := ⟨file, ends, unbroken⟩
  obtain ⟨-, named⟩ := definitions_found calledWorkspace resolved (Range.ofNats 0 15 0 15)
  obtain ⟨l, gives', least, found⟩ := (named s here apart).1 definable
  cases gives_unique gives gives'
  exact ⟨resolved, s, here, apart, definable, least, found⟩

theorem search_succ_fails {depth : Nat} {q : Question} {error : QueryError}
    (file : q.site.demandFile = .ok ()) (other : q.fn? = none)
    (fails : ((w.plan q).run (w.search depth)).Fails error) :
    (w.search (depth + 1) q).Fails error := by
  rw [search, file]
  cases q with
  | callers fn => cases other
  | scopes s => exact fails
  | fns s => exact fails
  | fields ref => exact fails

/-- A search is given up at every depth if it starts with a question, which starts with a
    question, and so on, and no calls of a function are asked for. -/
theorem search_fails {chain : Nat → Question}
    (file : ∀ i, (chain i).site.demandFile = .ok ()) (other : ∀ i, (chain i).fn? = none)
    (first : ∀ i, (w.plan (chain i)).first? = some (chain (i + 1))) (depth i : Nat) :
    (w.search depth (chain i)).Fails .tooDeep := by
  induction depth generalizing i with
  | zero =>
      intro β step b t
      rfl
  | succ depth ih =>
      apply search_succ_fails (file i) (other i)
      exact Plan.run_fails (ih (i + 1)) (w.plan (chain i)) (first i)

/-- The parse tree of `local a = a; a.f`. -/
def loopTree : ParseTree :=
  let name (column : Nat) (text : String) : ParseTree :=
    { type := "id", range := Range.ofNats 0 column 0 (column + 1), text := some text }
  { type := "document", range := Range.ofNats 0 0 0 16, children :=
    [{ type := "local_bind", range := Range.ofNats 0 0 0 16, children :=
      [{ type := "local", range := Range.ofNats 0 0 0 5 },
        { type := "bind", range := Range.ofNats 0 6 0 11, children := [name 6 "a", name 10 "a"] },
        { type := "fieldaccess", range := Range.ofNats 0 13 0 16, children :=
          [name 13 "a", name 15 "f"] }] }] }

def loopName (column : Nat) (text : String) : Ident :=
  ⟨Range.ofNats 0 column 0 (column + 1), .ofString text⟩

def loopBind : LocalBind :=
  ⟨Range.ofNats 0 6 0 11, loopName 6 "a", .ref (loopName 10 "a")⟩

def loopAccess : Expr :=
  .fieldAccess (Range.ofNats 0 13 0 16) (.ref (loopName 13 "a")) (loopName 15 "f")

def loopLocal : Expr :=
  .localIn (Range.ofNats 0 0 0 16) [loopBind] loopAccess

def loopDocument : Document :=
  { uri := "file:///x", root := .expr (.document (Range.ofNats 0 0 0 16) loopLocal) }

def loopWorkspace : Workspace :=
  alone loopDocument.resolve

def loopSite : Site :=
  loopDocument.site.part .body (.expr loopLocal)

def loopRead : Site :=
  loopSite.part .body (.expr loopAccess)

/-- The field, the variable that it is read from, and then always the value of the variable. -/
def loopChain : Nat → Question
  | 0 => .fields (loopRead.part .field (.fieldRef (loopName 15 "f")))
  | 1 => .scopes (loopRead.part .obj (.expr (.ref (loopName 13 "a"))))
  | _ => .scopes ((loopSite.down ⟨.binds, 0⟩ (.bind loopBind)).part .value
      (.expr (.ref (loopName 10 "a"))))

theorem loop_first (i : Nat) :
    (loopWorkspace.plan (loopChain i)).first? = some (loopChain (i + 1)) := by
  rcases i with _ | _ | i
  · cbv
  · cbv
  · have again : (loopWorkspace.plan (loopChain 2)).first? = some (loopChain 2) := by cbv
    exact again

/-- The field of a variable that stands for itself is not found at any depth. -/
theorem loop_never_found :
    Document.ofParseTree "file:///x" loopTree = .ok loopDocument ∧
    ∀ depth, loopWorkspace.definitions loopDocument.resolve (Range.ofNats 0 15 0 15) depth =
      .error .tooDeep := by
  constructor
  · cbv
  · intro depth
    have file (i : Nat) : (loopChain i).site.demandFile = .ok () := by
      have uri : (loopChain i).site.uri = "file:///x" := by rcases i with _ | _ | i <;> rfl
      rw [Site.demandFile, uri]
      cbv
    have other (i : Nat) : (loopChain i).fn? = none := by
      rcases i with _ | _ | i <;> rfl
    have here : loopDocument.resolve.nodeAt? (Range.ofNats 0 15 0 15) =
        some (loopChain 0).site := by cbv
    have first : (loopWorkspace.definitionPlan (loopChain 0).site).first? = some (loopChain 0) :=
      rfl
    have fails := Plan.run_fails (search_fails file other loop_first depth 0) _ first
    rw [definitions_at rfl here, file 0, fails.results]
    rfl

end Workspace

end JsonnetNav
