import JsonnetNav.Answers.Fold
import JsonnetNav.Proofs.DocumentIndex
import Mathlib

/-! # What can be folded

A container is folded if it starts and ends on different lines. A walk leaves every container of
a document once, wherever it stands: in a key, a default, a clause or a message. It leaves what is
inside of a container first, so the range of a container is listed after the ranges inside of it.
-/

namespace JsonnetNav

/-- The node that is folded at an event. -/
def Event.folded? : Event → Option Site
  | .leave s => if s.kind.isFoldable && s.range.isMultiline then some s else none
  | _ => none

namespace Site

/-- Functions, objects, arrays and comprehensions over several lines. -/
def IsFolded (s : Site) : Prop :=
  s.kind ∈ [Kind.fn, .object, .objComp, .array, .listComp] ∧
    s.range.start.line ≠ s.range.stop.line

instance (s : Site) : Decidable s.IsFolded :=
  inferInstanceAs (Decidable (_ ∧ _))

theorem isFolded_iff {s : Site} :
    s.IsFolded ↔ (s.kind.isFoldable && s.range.isMultiline) = true := by
  have foldable : s.kind ∈ [Kind.fn, .object, .objComp, .array, .listComp] ↔
      s.kind.isFoldable = true := by
    cases s.kind <;> simp [Kind.isFoldable]
  simp [IsFolded, foldable, Range.isMultiline]

theorem folded_leave (s : Site) :
    (Event.leave s).folded? = Option.guard (fun s => decide s.IsFolded) s := by
  by_cases folded : s.IsFolded
  · simp [Event.folded?, folded, isFolded_iff.mp folded]
  · have single : ¬ (s.kind.isFoldable && s.range.isMultiline) = true :=
      fun spans => folded (isFolded_iff.mpr spans)
    simp [Event.folded?, Option.guard, folded, single]

/-- Only expressions are containers. -/
theorem IsFolded.exists_expr {s : Site} (folded : s.IsFolded) : ∃ e, s.node = .expr e := by
  have foldable := folded.1
  obtain ⟨uri, node, above⟩ := s
  cases node with
  | expr e => exact ⟨e, rfl⟩
  | key k => cases k <;> simp [kind, Node.kind] at foldable
  | _ => simp [kind, Node.kind] at foldable

end Site

namespace Document

variable {d : Document} {uri : Uri}

theorem folds_eq (d : Document) :
    d.folds = ((Walk.events .keysFirst d.site).filterMap Event.folded?).map Site.range := by
  rw [folds, List.map_filterMap]
  refine List.filterMap_congr fun event _ => ?_
  cases event with
  | leave s =>
      simp only [Event.folded?]
      split <;> rfl
  | enter s => rfl
  | opened s => rfl
  | closed s => rfl

/-- The nodes that are folded are the containers over several lines. -/
theorem Built.folded_perm (built : d.Built uri) :
    ((Walk.events .keysFirst d.site).filterMap Event.folded?).Perm
      (d.sites.filter fun s => s.IsFolded) := by
  rw [← List.filterMap_eq_filter]
  apply built.filterMap_events
  · intro s
    rw [Walk.filterMap_ownEvents rfl rfl, Site.folded_leave]
    rfl
  · intro s t folded
    obtain ⟨rfl, isFolded⟩ := Option.guard_eq_some_iff.mp folded
    obtain ⟨e, node⟩ := (of_decide_eq_true isFolded).exists_expr
    simp [Walk.isWalked, node]

/-- A container inside of another one is folded first. -/
theorem Built.folded_before (built : d.Built uri) {inner outer : Site} (member : outer ∈ d.sites)
    (folded : outer.IsFolded) (folded' : inner.IsFolded) (inside : inner ∈ outer.preorder)
    (other : inner ≠ outer) :
    [inner, outer].Sublist ((Walk.events .keysFirst d.site).filterMap Event.folded?) := by
  obtain ⟨e, node⟩ := folded.exists_expr
  obtain ⟨e', node'⟩ := folded'.exists_expr
  have order := built.leave_before member node inside (by simp [Walk.isWalked, node']) other
  simpa [Site.folded_leave, Option.guard, folded, folded'] using order.filterMap Event.folded?

/-- The ranges to fold are those of the functions, objects, arrays and comprehensions of the
    document that start and end on different lines. Each of them has one range, which comes after
    the ranges of those inside of it. -/
theorem folds_of_containers {tree : ParseTree} (done : ofParseTree uri tree = .ok d) :
    ∃ folded : List Site, d.folds = folded.map Site.range ∧
      folded.Perm (d.sites.filter fun s => s.IsFolded) ∧ (folded.map Site.path).Nodup ∧
      ∀ outer ∈ folded, ∀ inner ∈ folded, inner ∈ outer.preorder → inner ≠ outer →
        [inner, outer].Sublist folded := by
  have built := built done
  have perm := built.folded_perm
  have listed {s : Site} (member : s ∈ (Walk.events .keysFirst d.site).filterMap Event.folded?) :
      s ∈ d.sites ∧ s.IsFolded := by
    simpa using perm.mem_iff.mp member
  refine ⟨_, d.folds_eq, perm, ?_, ?_⟩
  · rw [(perm.map Site.path).nodup_iff]
    exact d.nodup_paths.sublist (List.filter_sublist.map Site.path)
  · intro outer isOuter inner isInner inside other
    obtain ⟨member, folded⟩ := listed isOuter
    exact built.folded_before member folded (listed isInner).2 inside other

/-- The tree of an array on six lines, with an object on four of them, with an empty array on two
    of these. -/
def nestedTree : ParseTree :=
  let node (type : String) (range : Range) (children : List ParseTree) : ParseTree :=
    { type := type, range := range, children := children }
  let leaf (type : String) (range : Range) (text : String) : ParseTree :=
    { type := type, range := range, text := some text }
  let name := node "fieldname" (Range.ofNats 2 4 2 5) [leaf "id" (Range.ofNats 2 4 2 5) "a"]
  let colon := { leaf ":" (Range.ofNats 2 5 2 6) ":" with named := false }
  let array := node "array" (Range.ofNats 2 7 3 5) []
  let field := node "field" (Range.ofNats 2 4 3 5) [name, colon, array]
  let object := node "object" (Range.ofNats 1 2 4 3) [node "member" (Range.ofNats 2 4 3 5) [field]]
  node "document" (Range.ofNats 0 0 5 1) [node "array" (Range.ofNats 0 0 5 1) [object]]

def nestedInner : Expr :=
  .array (Range.ofNats 2 7 3 5) []

def nestedField : Field :=
  let name := Range.ofNats 2 4 2 5
  ⟨Range.ofNats 2 4 3 5, .fixed name ⟨name, .ofString "a"⟩, nestedInner, .default, false⟩

def nestedObject : Expr :=
  .object (Range.ofNats 1 2 4 3) [] [] [nestedField]

def nestedOuter : Expr :=
  .array (Range.ofNats 0 0 5 1) [nestedObject]

def nestedDocument : Document :=
  { uri := "file:///x", root := .expr (.document (Range.ofNats 0 0 5 1) nestedOuter) }

theorem nested_built : ofParseTree "file:///x" nestedTree = .ok nestedDocument := by
  cbv

def nestedOuterSite : Site :=
  nestedDocument.site.part .body (.expr nestedOuter)

def nestedInnerSite : Site :=
  let object := nestedOuterSite.down ⟨.values, 0⟩ (.expr nestedObject)
  (object.down ⟨.fields, 0⟩ (.field nestedField)).part .value (.expr nestedInner)

/-- The array inside is folded before the array around it. -/
theorem nested_folded_in_order :
    ofParseTree "file:///x" nestedTree = .ok nestedDocument ∧
    ∃ folded, nestedDocument.folds = folded.map Site.range ∧
      [nestedInnerSite, nestedOuterSite].Sublist folded := by
  obtain ⟨folded, ranges, perm, -, order⟩ := folds_of_containers nested_built
  have outer : nestedOuterSite ∈ nestedDocument.sites := List.mem_of_getElem? (i := 1) (by cbv)
  have object : nestedOuterSite.down ⟨.values, 0⟩ (.expr nestedObject) ∈ nestedOuterSite.preorder :=
    Site.mem_preorder_of_part (.head _) (.head _)
  have inner : nestedInnerSite ∈ nestedOuterSite.preorder :=
    Site.mem_preorder_trans (Site.mem_preorder_trans object
      (Site.mem_preorder_of_part (.tail _ (.tail _ (.head _))) (.head _)))
      (Site.mem_preorder_of_part (.tail _ (.head _)) (.head _))
  have listed {s : Site} (member : s ∈ nestedDocument.sites) (folded' : s.IsFolded) :
      s ∈ folded :=
    perm.mem_iff.mpr (List.mem_filter.mpr ⟨member, decide_eq_true folded'⟩)
  refine ⟨nested_built, folded, ranges, ?_⟩
  refine order _ (listed outer (by decide)) _
    (listed (Site.mem_preorder_trans outer inner) (by decide)) inner fun same => ?_
  exact absurd (congrArg Site.path same) (by decide)

end Document

end JsonnetNav
