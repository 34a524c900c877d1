import JsonnetNav.Answers.Error

/-! # Searches

A search hands over what it finds one by one, and what is done with a find happens
before the search goes on. This matters because searches share a table of the calls
found for each function: a search may read the calls of a function while they are still
being collected, and then it sees those that were added in the meantime.
-/

namespace JsonnetNav

/-- The calls found so far for the function at each location. -/
abbrev CallerTable := List (Location × Array Site)

namespace CallerTable

def find? (t : CallerTable) (fn : Location) : Option (Array Site) :=
  t.lookup fn

/-- The calls found so far for a function, from an index on. -/
def callsFrom (t : CallerTable) (fn : Location) (index : Nat) : List Site :=
  ((t.find? fn).getD #[]).toList.drop index

/-- Starts an empty list of calls for a function. -/
def start (t : CallerTable) (fn : Location) : CallerTable :=
  (fn, #[]) :: t

/-- Adds a call to the list of a function. -/
def add (t : CallerTable) (fn : Location) (call : Site) : CallerTable :=
  t.map fun (key, calls) => if key = fn then (key, calls.push call) else (key, calls)

end CallerTable

/-- A computation that reads and extends the table of calls, and may fail. -/
abbrev Run := StateT CallerTable (Except QueryError)

/-- A search for things of a type: it folds over what it finds. -/
structure Search (α : Type) where
  fold : {β : Type} → (β → α → Run β) → β → Run β

namespace Search

/-- Fails. -/
def fail {α : Type} (error : QueryError) : Search α :=
  ⟨fun _ _ => throw error⟩

/-- Searches if the condition holds, and fails otherwise. -/
def after {α : Type} (condition : Except QueryError Unit) (search : Search α) : Search α :=
  match condition with
  | .ok _ => search
  | .error e => fail e

/-- Finds the members of a list in order. -/
def each {α : Type} (xs : List α) : Search α :=
  ⟨fun step b => xs.foldlM step b⟩

/-- Finds what the first search finds, and then what the second one finds. -/
def append {α : Type} (first second : Search α) : Search α :=
  ⟨fun step b => do
    let b ← first.fold step b
    second.fold step b⟩

instance : Monad Search where
  pure x := ⟨fun step b => step b x⟩
  bind search next := ⟨fun step b => search.fold (fun b x => (next x).fold step b) b⟩

/-- Everything that the search finds, as a list. -/
def toList {α : Type} (search : Search α) : Run (List α) := do
  let found ← search.fold (fun found x => pure (found.push x)) (#[] : Array α)
  return found.toList

/-- Finds one thing: the result of a computation. -/
def ofRun {α : Type} (run : Run α) : Search α :=
  ⟨fun step b => do step b (← run)⟩

/-- Runs a search with an empty table of calls. -/
def results {α : Type} (search : Search α) : Except QueryError (List α) :=
  (search.toList).run' []

/-- Reads the calls of a function from an index on, also those that are added while they are
    being read: these are read in the next round. Reading fails if calls are still being added
    when there are no more rounds. -/
def readCalls (fn : Location) {β : Type} (step : β → Site → Run β) :
    (rounds : Nat) → (index : Nat) → β → Run β
  | 0, _, _ => throw .tooDeep
  | rounds + 1, index, b => do
    match (← get).callsFrom fn index with
    | [] => pure b
    | calls =>
      let b ← calls.foldlM step b
      readCalls fn step rounds (index + calls.length) b

/-- Finds the calls of a function, as many as there are. They are collected by the given search,
    unless that is done already or under way. If all calls are there, the first round reads
    them. Only where what is done with a call adds calls are there more rounds, and a search
    that goes on like this is given up. -/
def sharedCalls (rounds : Nat) (fn : Location) (collect : Search Site) : Search Site :=
  ⟨fun step b => do
    if ((← get).find? fn).isNone then
      modify (·.start fn)
      collect.fold (fun _ call => modify (·.add fn call)) ()
    readCalls fn step rounds 0 b⟩

end Search

end JsonnetNav
