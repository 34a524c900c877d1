import JsonnetNav.Proofs.FoundInside
import Mathlib.Logic.Relation

/-! # Needed calls

Collecting the calls of a function can need the calls of other functions: what a parameter
stands for is known from the calls of its function. What can be needed is settled without
knowing any calls, by following every find that some part of the calls could lead to. In
resolved documents, only functions with parameters are ever needed.
-/

namespace JsonnetNav

/-- A plan keeps to what it asks and what it hands over. -/
theorem Plan.keeps_of {α : Type} {hands : (q : Question) → q.Find → Prop} {asks : Question → Prop}
    {kind : α → Prop} (p : Plan α)
    (asked : ∀ q, p.Asks hands (fun q xs => ∀ x ∈ xs, hands q x) q → asks q)
    (found : ∀ x, p.Hands hands (fun q xs => ∀ x ∈ xs, hands q x) x → kind x) :
    p.Keeps asks hands kind := by
  induction p with
  | found xs => exact found
  | fail e => trivial
  | forEach xs next ih =>
      intro x member
      exact ih x (fun q asks => asked q ⟨x, member, asks⟩)
        fun y handed => found y ⟨x, member, handed⟩
  | ask q next ih =>
      refine ⟨asked q (.inl rfl), fun x first => ?_⟩
      exact ih x (fun q' asks => asked q' (.inr ⟨x, first, asks⟩))
        fun y handed => found y ⟨x, first, handed⟩
  | gather q next ih =>
      refine ⟨asked q (.inl rfl), fun xs first => ?_⟩
      exact ih xs (fun q' asks => asked q' (.inr ⟨xs, first, asks⟩))
        fun y handed => found y ⟨xs, first, handed⟩
  | append first second ih ih' =>
      exact ⟨ih (fun q asks => asked q (.inl asks)) fun x handed => found x (.inl handed),
        ih' (fun q asks => asked q (.inr asks)) fun x handed => found x (.inr handed)⟩

theorem Plan.hands_mono {α : Type} {hands hands' : (q : Question) → q.Find → Prop}
    (more : ∀ q x, hands q x → hands' q x) (p : Plan α) {x : α}
    (handed : p.Hands hands (fun q xs => ∀ x ∈ xs, hands q x) x) :
    p.Hands hands' (fun q xs => ∀ x ∈ xs, hands' q x) x := by
  induction p with
  | found xs => exact handed
  | fail e => exact handed
  | forEach ys next ih =>
      obtain ⟨y, member, handed⟩ := handed
      exact ⟨y, member, ih y handed⟩
  | ask q next ih =>
      obtain ⟨y, first, handed⟩ := handed
      exact ⟨y, more q y first, ih y handed⟩
  | gather q next ih =>
      obtain ⟨ys, first, handed⟩ := handed
      exact ⟨ys, fun y member => more q y (first y member), ih ys handed⟩
  | append first second ih ih' => exact handed.imp ih ih'

/-- A plan that keeps to suitable answers hands over what it should. -/
theorem Plan.Keeps.hands {α : Type} {hands suits : (q : Question) → q.Find → Prop}
    {asks : Question → Prop} {kind : α → Prop} {p : Plan α} (keeps : p.Keeps asks suits kind)
    (suit : ∀ q x, asks q → hands q x → suits q x) {x : α}
    (handed : p.Hands hands (fun q xs => ∀ x ∈ xs, hands q x) x) : kind x := by
  induction p with
  | found xs => exact keeps x handed
  | fail e => cases handed
  | forEach ys next ih =>
      obtain ⟨y, member, handed⟩ := handed
      exact ih y (keeps y member) handed
  | ask q next ih =>
      obtain ⟨y, first, handed⟩ := handed
      exact ih y (keeps.2 y (suit q y keeps.1 first)) handed
  | gather q next ih =>
      obtain ⟨ys, first, handed⟩ := handed
      exact ih ys (keeps.2 ys fun y member => suit q y keeps.1 (first y member)) handed
  | append first second ih ih' => exact handed.elim (ih keeps.1) (ih' keeps.2)

theorem Plan.Keeps.asks {α : Type} {hands suits : (q : Question) → q.Find → Prop}
    {asks : Question → Prop} {kind : α → Prop} {p : Plan α} (keeps : p.Keeps asks suits kind)
    (suit : ∀ q x, asks q → hands q x → suits q x) {q : Question}
    (asked : p.Asks hands (fun q xs => ∀ x ∈ xs, hands q x) q) : asks q := by
  induction p with
  | found xs => cases asked
  | fail e => cases asked
  | forEach ys next ih =>
      obtain ⟨y, member, asked⟩ := asked
      exact ih y (keeps y member) asked
  | ask q' next ih =>
      rcases asked with this | ⟨y, first, asked⟩
      · cases this
        exact keeps.1
      · exact ih y (keeps.2 y (suit q' y keeps.1 first)) asked
  | gather q' next ih =>
      rcases asked with this | ⟨ys, first, asked⟩
      · cases this
        exact keeps.1
      · exact ih ys (keeps.2 ys fun y member => suit q' y keeps.1 (first y member)) asked
  | append first second ih ih' => exact asked.elim (ih keeps.1) (ih' keeps.2)

/-- The function that a parameter belongs to. -/
def Site.fnOfParam? (s : Site) : Option Site :=
  match s.node with
  | .param _ => s.enclosing? (.only .fn) (some 1)
  | _ => none

namespace Workspace

open Relation

/-- Whatever a plan hands over, from such finds of the questions that it asks, is one as well. -/
def ClosedFinds (w : Workspace) (finds : (q : Question) → q.Find → Prop) : Prop :=
  ∀ q x, (w.plan q).Hands finds (fun q xs => ∀ x ∈ xs, finds q x) x → finds q x

/-- The question can come to a find, whatever part of the calls of functions is known. -/
def CanFind (w : Workspace) (q : Question) (x : q.Find) : Prop :=
  ∀ finds, w.ClosedFinds finds → finds q x

/-- The first question can come to ask the second one. -/
def CanAsk (w : Workspace) (q q' : Question) : Prop :=
  (w.plan q).Asks w.CanFind (fun q xs => ∀ x ∈ xs, w.CanFind q x) q'

/-- To collect the calls of the first function, those of the second one can be needed. -/
def Needs (w : Workspace) (fn fn' : Site) : Prop :=
  ReflTransGen w.CanAsk (.callers fn) (.callers fn')

/-- The questions that the calls of the given functions can come to. -/
def NeededFor (w : Workspace) (fns : List Site) (q : Question) : Prop :=
  ∃ fn ∈ fns, ReflTransGen w.CanAsk (.callers fn) q

variable {w : Workspace}

theorem canFind_closed : w.ClosedFinds w.CanFind := by
  intro q x handed finds closed
  exact closed q x ((w.plan q).hands_mono (fun q x can => can finds closed) handed)

theorem keeps_plan (q : Question) : (w.plan q).Keeps (w.CanAsk q) w.CanFind (w.CanFind q) :=
  (w.plan q).keeps_of (fun _ asks => asks) (canFind_closed q)

/-! ## Functions with parameters -/

/-- What can be found in the workspace is of the workspace. -/
theorem Resolved.suits_of_canFind (resolved : w.Resolved) {q : Question} (has : w.Has q.site)
    {x : q.Find} (can : w.CanFind q x) : w.Suits q x := by
  refine can (fun q x => w.Has q.site → w.Suits q x) ?_ has
  intro q x handed has
  exact (resolved.stays_plan has).hands (fun q x isIn suits => suits isIn) handed

theorem Resolved.has_of_canAsk (resolved : w.Resolved) {q q' : Question} (has : w.Has q.site)
    (asks : w.CanAsk q q') : w.Has q'.site :=
  (resolved.stays_plan has).asks (fun _ _ isIn can => resolved.suits_of_canFind isIn can) asks

/-- If the second question is for the calls of a function, then the first one is about a parameter
    of this function. -/
def AtParam (q q' : Question) : Prop :=
  ∀ fn, q' = .callers fn → ∃ s, q = .scopes s ∧ s.fnOfParam? = some fn

/-- The plan asks for the calls of functions at their parameters only. -/
abbrev AsksAtParam (q : Question) {α : Type} (p : Plan α) : Prop :=
  p.Keeps (AtParam q) (fun _ _ => True) fun _ => True

theorem asksAtParam_none (q : Question) {α : Type} : AsksAtParam q (.none : Plan α) :=
  fun _ _ => trivial

theorem asksAtParam_scopes (q : Question) (s : Site) : AsksAtParam q (.find (.scopes s)) :=
  ⟨fun _ same => (nomatch same), fun _ _ _ _ => trivial⟩

theorem asksAtParam_fns (q : Question) (s : Site) : AsksAtParam q (.find (.fns s)) :=
  ⟨fun _ same => (nomatch same), fun _ _ _ _ => trivial⟩

theorem asksAtParam_imported (q : Question) {α : Type} {importee : Site}
    {next : Document → Plan α} (rest : ∀ d, AsksAtParam q (next d)) :
    AsksAtParam q (w.imported importee next) := by
  unfold imported
  split
  · exact fun d _ => rest d
  · trivial

theorem asksAtParam_scopePlan (s : Site) : AsksAtParam (.scopes s) (w.scopePlan s) := by
  have find := asksAtParam_scopes (.scopes s)
  have way := w.scopeWay s
  generalize w.scopePlan s = plan at way
  cases way with
  | array node => exact fun value _ => find value
  | plus node =>
      refine ⟨fun _ same => (nomatch same), fun _ _ => ?_⟩
      exact ⟨fun _ same => (nomatch same), fun _ _ _ _ => trivial⟩
  | call node => exact ⟨fun _ same => (nomatch same), fun _ _ tail _ => find tail⟩
  | dollar node => exact fun _ _ _ _ => trivial
  | fieldAccess node =>
      refine ⟨fun _ same => (nomatch same), fun b _ => ?_⟩
      dsimp only
      split
      · exact find _
      · exact asksAtParam_none _
  | forSpec node => exact find _
  | fieldRef node => exact fun access _ => find access
  | ref node => exact fun b _ => find b.target
  | importFile node => exact asksAtParam_imported _ fun d => find d.site
  | object node => exact fun _ _ => trivial
  | param node =>
      refine ⟨fun e _ => find _, fun fn around => ⟨fun fn' same => ?_, ?_⟩⟩
      · cases same
        refine ⟨s, rfl, ?_⟩
        rw [Site.fnOfParam?, node]
        exact Option.mem_toList.mp around
      · exact fun call _ value _ => find value
  | self node => exact fun _ _ _ _ => trivial
  | tails => exact fun tail _ => find tail
  | none => exact asksAtParam_none _

theorem asksAtParam_fnPlan (s : Site) : AsksAtParam (.fns s) (w.fnPlan s) := by
  have find := asksAtParam_fns (.fns s)
  have way := w.fnWay s
  generalize w.fnPlan s = plan at way
  cases way with
  | call node => exact ⟨fun _ same => (nomatch same), fun _ _ tail _ => find tail⟩
  | method node => exact fun _ _ => trivial
  | fieldAccess node => exact find _
  | fn node => exact fun _ _ => trivial
  | fieldRef node => exact ⟨fun _ same => (nomatch same), fun b _ => find b.target⟩
  | ref node => exact fun b _ => find b.target
  | importFile node => exact asksAtParam_imported _ fun d => find d.site
  | tails => exact fun tail _ => find tail
  | none => exact asksAtParam_none _

theorem asksAtParam_fieldPlan (ref : Site) : AsksAtParam (.fields ref) (fieldPlan ref) := by
  intro access _
  dsimp only
  split
  · exact ⟨fun _ same => (nomatch same), fun _ _ _ _ => trivial⟩
  · exact asksAtParam_none _

theorem asksAtParam_callerPlan (fn : Site) : AsksAtParam (.callers fn) (w.callerPlan fn) := by
  intro uri _ d _ call _
  dsimp only
  split
  · refine ⟨fun _ same => (nomatch same), fun found _ => ?_⟩
    dsimp only
    split
    · exact fun _ _ => trivial
    · exact asksAtParam_none _
  · exact asksAtParam_none _

theorem fnOfParam_of_canAsk {q : Question} {fn : Site} (asks : w.CanAsk q (.callers fn)) :
    ∃ s, q = .scopes s ∧ s.fnOfParam? = some fn := by
  have keeps : AsksAtParam q (w.plan q) := by
    cases q with
    | scopes s => exact asksAtParam_scopePlan s
    | fns s => exact asksAtParam_fnPlan s
    | fields ref => exact asksAtParam_fieldPlan ref
    | callers fn => exact asksAtParam_callerPlan fn
  exact keeps.asks (fun _ _ _ _ => trivial) asks fn rfl

theorem Resolved.has_of_leads (resolved : w.Resolved) {q q' : Question} (has : w.Has q.site)
    (leads : ReflTransGen w.CanAsk q q') : w.Has q'.site := by
  induction leads with
  | refl => exact has
  | tail _ asks ih => exact resolved.has_of_canAsk ih asks

/-- A function whose calls are needed, besides those that are asked for, has a parameter. -/
theorem Resolved.fnOfParam_of_needs (resolved : w.Resolved) {fn fn' : Site} (has : w.Has fn)
    (needs : w.Needs fn fn') : fn' = fn ∨ ∃ s, w.Has s ∧ s.fnOfParam? = some fn' := by
  rcases needs.cases_tail with same | ⟨q, leads, asks⟩
  · cases same
    exact .inl rfl
  · obtain ⟨s, rfl, param⟩ := fnOfParam_of_canAsk asks
    exact .inr ⟨s, resolved.has_of_leads (q := .callers fn) has leads, param⟩

/-- With parameters in one function only, no two functions need the calls of each other. -/
theorem Resolved.eq_of_needs (resolved : w.Resolved)
    (single : ∀ s s' fn fn', w.Has s → w.Has s' → s.fnOfParam? = some fn →
      s'.fnOfParam? = some fn' → fn = fn') {fn fn' : Site} (has : w.Has fn)
    (needs : w.Needs fn fn') (back : w.Needs fn' fn) : fn = fn' := by
  have has' : w.Has fn' := resolved.has_of_leads (q := .callers fn) has needs
  rcases resolved.fnOfParam_of_needs has needs with same | ⟨s, inside, param⟩
  · exact same.symm
  rcases resolved.fnOfParam_of_needs has' back with same | ⟨s', inside', param'⟩
  · exact same
  · exact single s' s fn fn' inside' inside param' param

end Workspace

end JsonnetNav
