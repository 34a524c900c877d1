import JsonnetNav.Proofs.CollectedCalls
import JsonnetNav.Proofs.LiveDefinitions
import Mathlib

/-! # Asking for the calls of functions in turn

A list of calls that was read before it was complete stays in the table for good, and so does
everything that was found with it. Where the calls of two different functions are needed for
each other, the answers depend on which of them was asked for first. Otherwise an answer is
the same in every order, also where the calls of a function are needed to collect them.
-/

namespace JsonnetNav

/-- The table at a later time. It has all lists that it had before, those at certain places
    unchanged. -/
structure CallerTable.Kept (part : Location → Prop) (t u : CallerTable) : Prop where
  within : t.Within u
  same : ∀ place, part place → (t.find? place).isSome → u.find? place = t.find? place

namespace CallerTable.Kept

variable {part : Location → Prop} {t u v : CallerTable}

theorem refl (t : CallerTable) : Kept part t t :=
  ⟨.refl t, fun _ _ _ => rfl⟩

theorem trans (one : Kept part t u) (two : Kept part u v) : Kept part t v := by
  refine ⟨one.within.trans two.within, fun place isIn held => ?_⟩
  rw [two.same place isIn (one.within place held), one.same place isIn held]

theorem add (t : CallerTable) (fn : Location) (call : Site) : Kept (· ≠ fn) t (t.add fn call) := by
  refine ⟨.add t fn call, fun place other _ => ?_⟩
  rw [find?_add, if_neg other]

end CallerTable.Kept

namespace Workspace

variable {w : Workspace} {reached : Question → Prop} {part : Location → Prop}

/-! ## Lists that stay -/

/-- Computations that keep the lists at certain places. -/
def keeping (part : Location → Prop) : RunRelation where
  Holds rel run _ := ∀ t b u, run t = .ok (b, u) → (∃ c, rel b c) ∧ t.Kept part u
  fail _ _ := by
    intro t b u done
    cases done
  pure related := by
    intro t b u done
    cases done
    exact ⟨⟨_, related⟩, .refl t⟩
  bind first rest := by
    intro t b u done
    obtain ⟨⟨a, v⟩, one, two⟩ := Except.bind_eq_ok.mp done
    obtain ⟨⟨c, related⟩, kept⟩ := first t a v one
    obtain ⟨result, kept'⟩ := rest a c related v b u two
    exact ⟨result, kept.trans kept'⟩

theorem keeps_of_reads {fn : Location} {β γ : Type} {rel : β → γ → Prop}
    {step : β → Site → Run β} {step' : γ → Site → Run γ}
    (steps : ∀ b c call, rel b c → True → (keeping part).Holds rel (step b call) (step' c call))
    {index : Nat} {b b' : β} {c : γ} {t u : CallerTable} (related : rel b c)
    (reads : Search.Reads fn step index b t b' u) : (∃ c, rel b' c) ∧ t.Kept part u := by
  induction reads generalizing c with
  | finish none => exact ⟨⟨c, related⟩, .refl _⟩
  | @round index b b₁ b' t t₁ u some read rest ih =>
      obtain ⟨⟨c₁, related⟩, kept⟩ := (keeping part).foldlM
        (fun b c call _ related => steps b c call related trivial) related t b₁ t₁ read
      obtain ⟨result, kept'⟩ := ih related
      exact ⟨result, kept.trans kept'⟩

/-- Looking up the calls of a function changes no list that there is. -/
theorem Ensures.kept (part : Location → Prop) {depth : Nat} {fn : Site}
    (searches : ∀ q, Search.Related (keeping (· ≠ fn.location)) (fun _ => True) (w.search depth q)
      (w.search depth q)) {t u : CallerTable} (ensures : w.Ensures depth fn t u) :
    t.Kept part u ∧ (u.find? fn.location).isSome := by
  cases ensures with
  | known held => exact ⟨.refl t, held⟩
  | collected absent done =>
      have keeps : (w.plan (.callers fn)).Keeps (fun _ => True) (fun _ _ => True) fun _ => True :=
        Plan.keeps_of _ (fun _ _ => trivial) fun _ _ => trivial
      have collects := keeps.run fun q _ => searches q
      have adds := collects Unit Unit (fun _ _ => True)
        (fun _ call => modify (·.add fn.location call)) (fun _ _ => pure ()) (by
          intro _ _ call _ _ t _ u done
          cases done
          exact ⟨⟨(), trivial⟩, .add t fn.location call⟩) () () trivial
      obtain ⟨-, kept⟩ := adds _ () u done
      have started := CallerTable.Within.start t fn.location
      refine ⟨⟨started.trans kept.within, fun place _ held => ?_⟩, ?_⟩
      · have other : place ≠ fn.location := by
          rintro rfl
          rw [absent] at held
          cases held
        rw [kept.same place other (started place held), CallerTable.find?_start, if_neg other]
      · apply kept.within
        rw [CallerTable.find?_start, if_pos rfl]
        rfl

/-- A search that goes on while calls are being collected changes no list but the one that these
    are collected in. -/
theorem search_keeps (part : Location → Prop) (depth : Nat) (q : Question) :
    Search.Related (keeping part) (fun _ => True) (w.search depth q) (w.search depth q) := by
  induction depth generalizing part q with
  | zero => exact .fail .tooDeep
  | succ depth ih =>
      have keeps : (w.plan q).Keeps (fun _ => True) (fun _ _ => True) fun _ => True :=
        Plan.keeps_of _ (fun _ _ => trivial) fun _ _ => trivial
      have planned := keeps.run fun q' _ => ih part q'
      cases file : q.site.demandFile with
      | error e =>
          rw [search, file]
          exact .fail e
      | ok _ =>
          cases q with
          | callers k =>
              intro β γ rel step step' steps b c related t b' u done
              obtain ⟨v, ensures, reads⟩ := ensures_of_search file done
              obtain ⟨kept, -⟩ := ensures.kept part (ih _)
              obtain ⟨result, kept'⟩ := keeps_of_reads steps related reads
              exact ⟨result, kept.trans kept'⟩
          | _ =>
              rw [search, file]
              exact planned

/-! ## Answers in turn -/

/-- Asks for the calls of functions in turn, with one table. -/
def callersInTurn (w : Workspace) (depth : Nat) (fns : List Site) : Run (List (List Site)) :=
  fns.mapM fun fn => (w.callers depth fn).toList

theorem pushed_of_reads {fn : Location} {index : Nat} {found found' : Array Site}
    {t u : CallerTable}
    (reads : Search.Reads fn (fun found call => pure (found.push call)) index found t found' u) :
    u = t ∧ found'.toList = found.toList ++ t.callsFrom fn index := by
  induction reads with
  | finish none => simp [none]
  | @round index found found₁ found' t t₁ u some read rest ih =>
      rw [Search.foldlM_push] at read
      cases read
      -- nothing was added in the meantime, so the next round finds nothing
      have none : t.callsFrom fn (index + (t.callsFrom fn index).length) = [] := by
        rw [CallerTable.callsFrom, CallerTable.callsFrom, List.drop_eq_nil_iff, List.length_drop]
        omega
      rw [none] at ih
      simpa using ih

/-- The answer is what the table holds then. -/
theorem ensures_of_toList {depth : Nat} {fn : Site} {t u : CallerTable} {answer : List Site}
    (done : (w.callers depth fn).toList t = .ok (answer, u)) :
    ∃ n, w.Ensures n fn t u ∧ u.find? fn.location = some answer.toArray := by
  obtain ⟨⟨found, u'⟩, fold, last⟩ := Except.bind_eq_ok.mp done
  cases last
  cases depth with
  | zero => cases fold
  | succ depth =>
      cases file : fn.demandFile with
      | error e =>
          rw [callers, search, Question.site, file] at fold
          cases fold
      | ok _ =>
          obtain ⟨v, ensures, reads⟩ := ensures_of_search file fold
          obtain ⟨-, held⟩ := ensures.kept (fun _ => True) (search_keeps _ depth)
          obtain ⟨calls, entry⟩ := Option.isSome_iff_exists.mp held
          obtain ⟨rfl, read⟩ := pushed_of_reads reads
          rw [CallerTable.callsFrom_eq entry] at read
          refine ⟨depth, ensures, ?_⟩
          simp [entry, read]

/-- With complete lists in the table, an answer is complete, and so are the lists after it. -/
theorem callers_complete {complete : Site → List Site → Prop} (layered : w.Layered reached)
    (sensible : w.Sensible complete) (closes : ∀ n, w.Closes reached complete n) {depth : Nat}
    {fn : Site} (isReached : reached (.callers fn)) {t u : CallerTable} {answer : List Site}
    (before : t.Filled complete fun k => reached (.callers k))
    (done : (w.callers depth fn).toList t = .ok (answer, u)) :
    complete fn answer ∧ u.Filled complete fun k => reached (.callers k) := by
  obtain ⟨n, ensures, entry⟩ := ensures_of_toList done
  have maintains := maintains_of_closes layered sensible fun m (_ : m ≤ n) => closes m
  obtain ⟨after, -⟩ := ensures.complete layered maintains (fun k => reached (.callers k))
    (fun _ is => is) (fun _ _ is needs => layered.reached_of_needs is needs) isReached before
  exact ⟨after fn answer.toArray isReached entry, after⟩

/-- A search with a table of its own collects the calls. -/
theorem collected_of_results (layered : w.Layered reached) {depth : Nat} {fn : Site}
    (isReached : reached (.callers fn)) {calls : List Site}
    (done : (w.callers depth fn).results = .ok calls) : w.Collected fn calls := by
  cases found : (w.callers depth fn).toList [] with
  | error e =>
      rw [Search.results, StateT.run', found] at done
      cases done
  | ok out =>
      rw [Search.results, StateT.run', found] at done
      cases done
      exact (callers_complete layered sensible_collected closes_collected isReached
        (fun k list _ entry => by cases entry) found).1

theorem Layered.callersInTurn (layered : w.Layered reached) {depth : Nat} {fns : List Site}
    (isReached : ∀ fn ∈ fns, reached (.callers fn)) {t u : CallerTable}
    {answers : List (List Site)}
    (before : t.Filled w.Settled fun k => reached (.callers k))
    (done : w.callersInTurn depth fns t = .ok (answers, u)) :
    List.Forall₂ (fun fn answer => ∀ depth' calls, (w.callers depth' fn).results = .ok calls →
      answer = calls) fns answers := by
  induction fns generalizing t answers with
  | nil =>
      cases done
      exact .nil
  | cons fn fns ih =>
      rw [Workspace.callersInTurn, List.mapM_cons] at done
      obtain ⟨⟨answer, v⟩, first, rest⟩ := Except.bind_eq_ok.mp done
      obtain ⟨⟨others, v'⟩, rest, last⟩ := Except.bind_eq_ok.mp rest
      cases last
      have isFirst := isReached fn (.head fns)
      obtain ⟨settled, after⟩ := callers_complete layered sensible_settled
        (closes_settled layered) isFirst before first
      refine .cons ?_ (ih (fun k member => isReached k (.tail fn member)) after rest)
      intro depth' calls alone
      exact (settled.only calls (collected_of_results layered isFirst alone)).symm

/-- The answers are what the table holds in the end. -/
theorem callersInTurn_held {depth : Nat} {fns : List Site} {t u : CallerTable}
    {answers : List (List Site)} (done : w.callersInTurn depth fns t = .ok (answers, u)) :
    t.Kept (fun _ => True) u ∧
      List.Forall₂ (fun fn answer => u.find? fn.location = some answer.toArray) fns answers := by
  induction fns generalizing t answers with
  | nil =>
      cases done
      exact ⟨.refl _, .nil⟩
  | cons fn fns ih =>
      rw [callersInTurn, List.mapM_cons] at done
      obtain ⟨⟨answer, v⟩, first, rest⟩ := Except.bind_eq_ok.mp done
      obtain ⟨⟨others, v'⟩, rest, last⟩ := Except.bind_eq_ok.mp rest
      cases last
      obtain ⟨n, ensures, entry⟩ := ensures_of_toList first
      obtain ⟨kept, held⟩ := ensures.kept (fun _ => True) (search_keeps _ n)
      obtain ⟨kept', others⟩ := ih rest
      refine ⟨kept.trans kept', .cons ?_ others⟩
      rw [kept'.same fn.location trivial held, entry]

/-- What has been answered is in the table for good. Where no two different functions need the
    calls of each other, what has been asked before makes no difference: whoever asks for the calls
    of functions in turn gets for each of them what asking for it alone gives. -/
theorem callersInTurn_eq_results {fns : List Site} {depth : Nat} {answers : List (List Site)}
    {t : CallerTable} (done : w.callersInTurn depth fns [] = .ok (answers, t)) :
    List.Forall₂ (fun fn answer => t.find? fn.location = some answer.toArray) fns answers ∧
    (Apart (w.NeededFor fns) →
      (∀ fn fn', w.NeededFor fns (.callers fn) → w.Needs fn fn' → w.Needs fn' fn → fn = fn') →
      List.Forall₂ (fun fn answer => ∀ depth' calls, (w.callers depth' fn).results = .ok calls →
        answer = calls) fns answers) := by
  refine ⟨(callersInTurn_held done).2, fun apart straight => ?_⟩
  have layered : w.Layered (w.NeededFor fns) := by
    refine ⟨?_, apart, straight⟩
    intro q q' isReached asks
    obtain ⟨fn, member, leads⟩ := isReached
    exact ⟨fn, member, leads.tail asks⟩
  exact layered.callersInTurn (fun fn member => ⟨fn, member, .refl⟩)
    (fun k list _ entry => by cases entry) done

end Workspace

namespace Store

/-- The parameter of a function, in one line. -/
def lineParams (start : Nat) (name : String) : ParseTree :=
  let id := { lineLeaf "id" start name with field := some "identifier" }
  lineNode "params" start (start + 1) [lineNode "param" start (start + 1) [id]]

/-- An object with one field, in one line. -/
def lineObject (start stop : Nat) (name : String) (value : ParseTree) : ParseTree :=
  let colon := { lineLeaf ":" (start + 3) ":" with named := false }
  lineNode "object" start stop
    [lineNode "member" (start + 2) (stop - 2)
      [lineNode "field" (start + 2) (stop - 2)
        [lineNode "fieldname" (start + 2) (start + 3) [lineLeaf "id" (start + 2) name], colon,
          value]]]

/-- The files of a workspace with one document. -/
def singleFiles (tree : ParseTree) : FileTree :=
  { files := [([.ofString "m"], .source tree)] }

def singleStore (tree : ParseTree) : Store :=
  Call.after (singleFiles tree) { config := {}, workspaceUri := "file:///" }
    (.loadPaths [.ofString "/m"])

def singleWorkspace (tree : ParseTree) : Workspace :=
  (singleStore tree).workspace (singleFiles tree)

theorem singleStore_reachable (tree : ParseTree) : (singleStore tree).Reachable :=
  .call (.fresh {} "file:///" .increasing) (singleFiles tree) _

/-- The sites of its document. -/
def singleSites (tree : ParseTree) : List Site :=
  ((singleStore tree).document? "file:///m").toList.flatMap Document.sites

/-- The functions of its document. -/
def singleFns (tree : ParseTree) : List Site :=
  (singleSites tree).filter (·.kind = .fn)

def singlePlace (start stop : Nat) : Location :=
  ⟨"file:///m", Range.ofNats 0 start 0 stop⟩

/-- Without imports, nothing is imported anywhere. -/
theorem singleWorkspace_eq {tree : ParseTree}
    (unlinked : (singleStore tree).graph.importedBy = []) :
    singleWorkspace tree = { singleWorkspace tree with importers := fun _ => [] } := by
  have nobody (uri : Uri) : (singleStore tree).importers uri = [] := by
    have none := ((singleStore tree).order.perm uri []).eq_nil
    simpa [importers, ImportGraph.importers, unlinked, LinkMap.get, LinkMap.reach] using none
  rw [← funext nobody]
  rfl

/-- The document of
    `{ k: function(p) (function(q) [[p, q].k({ x: null }), [q, p].x])(self) }`. -/
def tangledTree : ParseTree :=
  let pair (start : Nat) (first second : String) := lineNode "array" start (start + 6)
    [lineLeaf "id" (start + 1) first, lineLeaf "id" (start + 4) second]
  let call := lineNode "functioncall" 31 52
    [lineNode "fieldaccess" 31 39 [pair 31 "p" "q", lineLeaf "id" 38 "k"],
      lineNode "args" 40 51 [lineObject 40 51 "x" (lineLeaf "null" 45 "null")]]
  let read := lineNode "fieldaccess" 54 62 [pair 54 "q" "p", lineLeaf "id" 61 "x"]
  let inner := lineNode "anonymous_function" 18 63
    [lineParams 27 "q", lineNode "array" 30 63 [call, read]]
  let outer := lineNode "anonymous_function" 5 70
    [lineParams 14 "p", lineNode "functioncall" 17 70
      [lineNode "parenthesis" 17 64 [inner], lineNode "args" 65 69 [lineLeaf "self" 65 "self"]]]
  lineNode "document" 0 72 [lineObject 0 72 "k" outer]

/-- The outer function is called. If the calls of the inner function are asked for first, this call
    is missed. -/
theorem tangled_call_missed :
    (singleStore tangledTree).Reachable ∧
    ((singleWorkspace tangledTree).callersInTurn Workspace.depthLimit
      (singleFns tangledTree).reverse []).map (fun out => out.1.map (·.map Site.location)) =
        .ok [[singlePlace 17 70], []] ∧
    (singleFns tangledTree).reverse.map (fun fn =>
      ((singleWorkspace tangledTree).callers Workspace.depthLimit fn).results.map
        (·.map Site.location)) = [.ok [singlePlace 17 70], .ok [singlePlace 31 52]] := by
  rw [singleWorkspace_eq (by decide +kernel)]
  exact ⟨singleStore_reachable tangledTree, by decide +kernel, by decide +kernel⟩

/-- The document of `local f = function(p) p.h(); f({ h: function() null })`. -/
def methodTree : ParseTree :=
  let access := lineNode "fieldaccess" 22 25 [lineLeaf "id" 22 "p", lineLeaf "id" 24 "h"]
  let method := lineNode "anonymous_function" 36 51 [lineLeaf "null" 47 "null"]
  lineNode "document" 0 54
    [lineNode "local_bind" 0 54
      [lineLeaf "local" 0 "local",
        lineNode "bind" 6 27 [lineLeaf "id" 6 "f", lineNode "anonymous_function" 10 27
          [lineParams 19 "p", lineNode "functioncall" 22 27 [access]]],
        lineNode "functioncall" 29 54
          [lineLeaf "id" 29 "f", lineNode "args" 31 53 [lineObject 31 53 "h" method]]]]

theorem method_resolved : (singleWorkspace methodTree).Resolved :=
  (singleStore_reachable methodTree).resolved (singleFiles methodTree)

theorem method_has_fn {fn : Site} (member : fn ∈ singleFns methodTree) :
    (singleWorkspace methodTree).Has fn := by
  obtain ⟨d, known, inside⟩ := List.mem_flatMap.mp (List.mem_of_mem_filter member)
  exact method_resolved.has (Option.mem_toList.mp known) inside

/-- Only the first of the two functions has a parameter. -/
theorem method_fnOfParam {s fn : Site} (has : (singleWorkspace methodTree).Has s)
    (param : s.fnOfParam? = some fn) : (singleFns methodTree).head? = some fn := by
  have uris : (singleStore methodTree).documents.map Prod.fst = ["file:///m"] := by decide +kernel
  have first : (singleSites methodTree).filterMap Site.fnOfParam? =
      (singleFns methodTree).head?.toList := by cbv
  obtain ⟨d, known, inside⟩ := has
  have member : s.uri ∈ (singleStore methodTree).documents.map Prod.fst :=
    List.mem_map_of_mem (mem_documents known)
  rw [uris, List.mem_singleton] at member
  rw [member] at known
  have listed : s ∈ singleSites methodTree :=
    List.mem_flatMap.mpr ⟨d, Option.mem_toList.mpr known, inside⟩
  have isFirst := List.mem_filterMap.mpr ⟨s, listed, param⟩
  rw [first] at isFirst
  exact Option.mem_toList.mp isFirst

theorem method_needed {fn : Site}
    (needed : (singleWorkspace methodTree).NeededFor (singleFns methodTree) (.callers fn)) :
    fn ∈ singleFns methodTree := by
  obtain ⟨fn', member, needs⟩ := needed
  rcases method_resolved.fnOfParam_of_needs (method_has_fn member) needs with rfl | ⟨s, has, param⟩
  · exact member
  · exact List.mem_of_mem_head? (method_fnOfParam has param)

theorem method_computed :
    ∃ answers t, (singleWorkspace methodTree).callersInTurn Workspace.depthLimit
        (singleFns methodTree) [] = .ok (answers, t) ∧
      answers.map (·.map Site.location) = [[singlePlace 29 54], [singlePlace 22 27]] := by
  have computed : ((singleWorkspace methodTree).callersInTurn Workspace.depthLimit
      (singleFns methodTree) []).map (fun out => out.1.map (·.map Site.location)) =
        .ok [[singlePlace 29 54], [singlePlace 22 27]] := by
    rw [singleWorkspace_eq (by decide +kernel)]
    decide +kernel
  cases done : (singleWorkspace methodTree).callersInTurn Workspace.depthLimit
      (singleFns methodTree) [] with
  | error e =>
      rw [done] at computed
      cases computed
  | ok out =>
      rw [done] at computed
      exact ⟨out.1, out.2, rfl, Except.ok.inj computed⟩

/-- The calls of the first function are needed to collect its calls and those of the method. Both
    are found in turn as they are found alone. -/
theorem method_calls_in_turn :
    Workspace.Apart ((singleWorkspace methodTree).NeededFor (singleFns methodTree)) ∧
    (∀ fn fn', (singleWorkspace methodTree).NeededFor (singleFns methodTree) (.callers fn) →
      (singleWorkspace methodTree).Needs fn fn' → (singleWorkspace methodTree).Needs fn' fn →
        fn = fn') ∧
    ∃ answers t, (singleWorkspace methodTree).callersInTurn Workspace.depthLimit
        (singleFns methodTree) [] = .ok (answers, t) ∧
      answers.map (·.map Site.location) = [[singlePlace 29 54], [singlePlace 22 27]] ∧
      List.Forall₂ (fun fn answer => t.find? fn.location = some answer.toArray)
        (singleFns methodTree) answers ∧
      List.Forall₂ (fun fn answer => ∀ depth calls,
        ((singleWorkspace methodTree).callers depth fn).results = .ok calls → answer = calls)
        (singleFns methodTree) answers := by
  have distinct : ((singleFns methodTree).map Site.location).Nodup := by decide +kernel
  have apart : Workspace.Apart
      ((singleWorkspace methodTree).NeededFor (singleFns methodTree)) := by
    intro fn fn' needed needed' same
    exact List.inj_on_of_nodup_map distinct (method_needed needed) (method_needed needed') same
  have straight : ∀ fn fn',
      (singleWorkspace methodTree).NeededFor (singleFns methodTree) (.callers fn) →
      (singleWorkspace methodTree).Needs fn fn' → (singleWorkspace methodTree).Needs fn' fn →
        fn = fn' := by
    intro fn fn' needed needs back
    refine method_resolved.eq_of_needs (fun s s' k k' has has' param param' => ?_)
      (method_has_fn (method_needed needed)) needs back
    exact Option.some.inj ((method_fnOfParam has param).symm.trans (method_fnOfParam has' param'))
  obtain ⟨answers, t, done, places⟩ := method_computed
  obtain ⟨held, alone⟩ := Workspace.callersInTurn_eq_results done
  exact ⟨apart, straight, answers, t, done, places, held, alone apart straight⟩

end Store

end JsonnetNav
