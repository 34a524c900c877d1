import JsonnetNav.Answers.Occurrence
import JsonnetNav.Proofs.LiveDefinitions
import JsonnetNav.Proofs.References
import Mathlib

/-! # The occurrences of a variable

Renaming a variable, highlighting it, looking up what a reference stands for and listing the
references of a variable all tell the same story, whichever occurrence of the variable they
are asked at. But in a document that is no file nothing can be said about definitions, not
even about those in the document itself.
-/

namespace JsonnetNav

namespace Document

variable {d : Document} {uri : Uri} {var s : Site} {id : Ident} {target : Range}

/-- The variable occurs at a site: it is bound there, or the site refers to it. -/
def OccursAt (d : Document) (var s : Site) : Prop :=
  s = var ∨ (d.bindingOfRef? s).map Binding.id = some var

theorem Built.renameRanges_eq (built : d.Built uri) (node : var.node = .var id)
    (here : d.nodeAt? target = some s) (occurs : d.resolve.OccursAt var s) :
    d.resolve.renameRanges target = (d.resolve.references var ++ [var]).map Site.range := by
  have inside : s ∈ d.sites := Site.mem_preorder_of_nodeAt here
  have named : Rename.variableAt? d.resolve s = some var := by
    rcases occurs with rfl | stands
    · simp [Rename.variableAt?, node]
    · have member := (built.bindingOfRef_eq_some inside).mp stands
      obtain ⟨-, id', -, ref, -⟩ := built.names_of_found member
      simp [Rename.variableAt?, ref, stands]
  have here : d.resolve.nodeAt? target = some s := here
  simp [renameRanges, here, named]

/-- The sites to highlight at an occurrence are the references and the variable. -/
theorem Built.sites_eq (built : d.Built uri) (node : var.node = .var id) (inside : s ∈ d.sites)
    (occurs : d.resolve.OccursAt var s) :
    Highlight.sites d.resolve s = d.resolve.references var ++ [var] ∨
      Highlight.sites d.resolve s = var :: d.resolve.references var := by
  rcases occurs with rfl | stands
  · left
    simp [Highlight.sites, node]
  · right
    have member := (built.bindingOfRef_eq_some inside).mp stands
    obtain ⟨-, id', -, ref, -⟩ := built.names_of_found member
    obtain ⟨binding, bound, rfl⟩ := Option.map_eq_some_iff.mp stands
    simp [Highlight.sites, ref, bound]

theorem Built.highlights_eq (built : d.Built uri) (member : var ∈ d.sites)
    (node : var.node = .var id) (here : d.nodeAt? target = some s)
    (occurs : d.resolve.OccursAt var s) :
    ∃ marked, d.resolve.highlights target = .ok marked ∧
      (marked.map Highlight.range).Perm ((d.resolve.references var ++ [var]).map Site.range) ∧
      marked.filter (·.kind = .write) = [⟨var.range, .write⟩] := by
  have read : ∀ ref ∈ d.resolve.references var, (Highlight.ofSite ref).kind = .read := by
    intro ref listed
    obtain ⟨-, id', -, isRef, -⟩ := built.names_of_found ((built.mem_references member).mp listed)
    simp [Highlight.ofSite, Site.kind, isRef, Node.kind, Expr.kind]
  have written : Highlight.ofSite var = ⟨var.range, .write⟩ := by
    simp [Highlight.ofSite, Site.kind, node, Node.kind]
  have none : ((d.resolve.references var).map Highlight.ofSite).filter (·.kind = .write) = [] := by
    rw [List.filter_eq_nil_iff]
    intro mark listed
    obtain ⟨ref, inList, rfl⟩ := List.mem_map.mp listed
    simp [read ref inList]
  have marks : d.resolve.highlights target =
      .ok ((Highlight.sites d.resolve s).map Highlight.ofSite) := by
    have here : d.resolve.nodeAt? target = some s := here
    rw [highlights, here]
    rfl
  have ranges (sites : List Site) :
      (sites.map Highlight.ofSite).map Highlight.range = sites.map Site.range := by
    rw [List.map_map]
    rfl
  refine ⟨_, marks, ?_⟩
  rw [ranges]
  rcases built.sites_eq node (Site.mem_preorder_of_nodeAt here) occurs with atVar | atRef
  · rw [atVar]
    refine ⟨.refl _, ?_⟩
    rw [List.map_append, List.filter_append, none]
    simp [written]
  · rw [atRef]
    refine ⟨(List.perm_append_singleton var _).symm.map _, ?_⟩
    rw [List.map_cons, List.filter_cons_of_pos (by simp [written]), none, written]

theorem Built.definitions_eq (built : d.Built uri) (file : FilePath.isFileUri uri) {w : Workspace}
    (known : w.document? uri = some d.resolve) (here : d.nodeAt? target = some s)
    (stands : (d.resolve.bindingOfRef? s).map Binding.id = some var) (depth : Nat) :
    w.definitions d.resolve target depth = .ok [var.location] := by
  have inside : s ∈ d.sites := Site.mem_preorder_of_nodeAt here
  have found := (built.bindingOfRef_eq_some inside).mp stands
  obtain ⟨-, id', -, ref, -⟩ := built.names_of_found found
  have place : s.uri = uri := (Site.above_of_mem_preorder inside).1.trans built.uri
  have plan : w.definitionPlan s = .found [var.location] := by
    obtain ⟨binding, bound, rfl⟩ := Option.map_eq_some_iff.mp stands
    simp [Workspace.definitionPlan, ref, Workspace.varBinding?, Workspace.documentOf?, place,
      known, bound]
  rw [Workspace.definitions_at rfl (d := d.resolve) here, plan, Site.demandFile, place, file]
  rfl

theorem references_at (w : Workspace) (node : var.node = .var id)
    (here : d.nodeAt? target = some var) (depth : Nat) :
    w.references d.resolve target depth =
      .ok (if (d.resolve.references var).isEmpty then none
        else some ((d.resolve.references var).map Site.location)) := by
  have here : d.resolve.nodeAt? target = some var := here
  rw [Workspace.references, here]
  simp only [Workspace.referencesOf, node]
  rfl

/-- A variable is referred to by the references that stand for it, each of which is listed
    once and with no other variable. All answers about the variable agree on this. Definitions
    are found in documents that are files, and so are all documents of a store. -/
theorem answers_agree {tree : ParseTree} (done : ofParseTree uri tree = .ok d)
    (member : var ∈ d.sites) (node : var.node = .var id) :
    (∀ ref ∈ d.sites, (d.resolve.bindingOfRef? ref).map Binding.id = some var ↔
      ref ∈ d.resolve.references var) ∧
    (d.resolve.references var).Nodup ∧
    (∀ ref ∈ d.resolve.references var,
      (ref ∈ d.sites ∧ ∃ id', ref.node = .expr (.ref id') ∧ id'.name = id.name) ∧
      ∀ other ∈ d.sites, ref ∈ d.resolve.references other → other = var) ∧
    (∀ target s, d.nodeAt? target = some s → d.resolve.OccursAt var s →
      d.resolve.renameRanges target = (d.resolve.references var ++ [var]).map Site.range ∧
      ∃ marked, d.resolve.highlights target = .ok marked ∧
        (marked.map Highlight.range).Perm (d.resolve.renameRanges target) ∧
        marked.filter (·.kind = .write) = [⟨var.range, .write⟩]) ∧
    (∀ w : Workspace, w.document? uri = some d.resolve → ∀ target depth,
      (FilePath.isFileUri uri → ∀ ref ∈ d.resolve.references var, d.nodeAt? target = some ref →
        w.definitions d.resolve target depth = .ok [var.location]) ∧
      (d.nodeAt? target = some var → w.references d.resolve target depth =
        .ok (if (d.resolve.references var).isEmpty then none
          else some ((d.resolve.references var).map Site.location)))) ∧
    ∀ s : Store, s.Reachable → (s.document? uri).isSome → FilePath.isFileUri uri := by
  have built := built done
  have stands {ref : Site} (inside : ref ∈ d.sites) :
      (d.resolve.bindingOfRef? ref).map Binding.id = some var ↔ ref ∈ d.resolve.references var :=
    (built.bindingOfRef_eq_some inside).trans (built.mem_references member).symm
  refine ⟨fun ref inside => stands inside, built.nodup_references var, ?_, ?_, ?_,
    fun s reached known => reached.isFileUri known⟩
  · intro ref listed
    have found := (built.mem_references member).mp listed
    obtain ⟨-, id', id'', isRef, isVar, same⟩ := built.names_of_found found
    rw [node] at isVar
    cases isVar
    refine ⟨⟨(built.mem_found.mp found).1, id', isRef, same.symm⟩, ?_⟩
    intro other inside listed
    have also := (built.mem_references inside).mp listed
    cases List.inj_on_of_nodup_map built.nodup_found found also rfl
    rfl
  · intro target s here occurs
    have ranges := built.renameRanges_eq node here occurs
    rw [ranges]
    exact ⟨rfl, built.highlights_eq member node here occurs⟩
  · intro w known target depth
    refine ⟨?_, fun here => references_at w node here depth⟩
    intro file ref listed here
    have inside : ref ∈ d.sites := Site.mem_preorder_of_nodeAt here
    exact built.definitions_eq file known here ((stands inside).mpr listed) depth

open Workspace in
/-- The variable of `local a = a; a.f`. -/
def loopVar : Site :=
  (loopSite.down ⟨.binds, 0⟩ (.bind loopBind)).part .id (.var (loopName 6 "a"))

open Workspace in
def loopRef : Site :=
  loopRead.part .obj (.expr (.ref (loopName 13 "a")))

open Workspace in
/-- A variable with two references is renamed in the same way at its binder and at a reference. -/
theorem loop_answers_agree :
    ofParseTree "file:///x" loopTree = .ok loopDocument ∧
    (loopVar ∈ loopDocument.sites ∧ loopVar.node = .var (loopName 6 "a")) ∧
    loopDocument.resolve.renameRanges (Range.ofNats 0 13 0 13) =
      loopDocument.resolve.renameRanges (Range.ofNats 0 6 0 6) ∧
    loopWorkspace.definitions loopDocument.resolve (Range.ofNats 0 13 0 13) =
      .ok [loopVar.location] ∧
    loopWorkspace.references loopDocument.resolve (Range.ofNats 0 6 0 6) =
      .ok (some
        [⟨"file:///x", Range.ofNats 0 10 0 11⟩, ⟨"file:///x", Range.ofNats 0 13 0 14⟩]) := by
  have done : ofParseTree "file:///x" loopTree = .ok loopDocument := by cbv
  have member : loopVar ∈ loopDocument.sites := by
    refine Site.mem_preorder_trans (t := loopSite) ?_ (Site.mem_preorder_trans
      (t := loopSite.down ⟨.binds, 0⟩ (.bind loopBind)) ?_ ?_)
    · exact Site.mem_preorder_of_part (.head _) (.head _)
    · exact Site.mem_preorder_of_part (.head _) (.head _)
    · exact Site.mem_preorder_of_part (.head _) (.head _)
  have atVar : loopDocument.nodeAt? (Range.ofNats 0 6 0 6) = some loopVar := by cbv
  have atRef : loopDocument.nodeAt? (Range.ofNats 0 13 0 13) = some loopRef := by cbv
  have locations : (loopDocument.resolve.references loopVar).map Site.location =
      [⟨"file:///x", Range.ofNats 0 10 0 11⟩, ⟨"file:///x", Range.ofNats 0 13 0 14⟩] := by cbv
  have stands : (loopDocument.resolve.bindingOfRef? loopRef).map Binding.id = some loopVar := by cbv
  have node : loopVar.node = .var (loopName 6 "a") := rfl
  obtain ⟨listed, -, -, renames, answers, -⟩ := answers_agree done member node
  have inside : loopRef ∈ loopDocument.sites := Site.mem_preorder_of_nodeAt atRef
  have ref := (listed loopRef inside).mp stands
  have known : loopWorkspace.document? "file:///x" = some loopDocument.resolve := by cbv
  refine ⟨done, ⟨member, node⟩, ?_, ?_, ?_⟩
  · rw [(renames _ _ atRef (.inr stands)).1, (renames _ _ atVar (.inl rfl)).1]
  · have file : FilePath.isFileUri "file:///x" = true := by cbv
    exact (answers _ known _ _).1 file loopRef ref atRef
  · rw [(answers _ known _ _).2 atVar, locations]
    have some : (loopDocument.resolve.references loopVar).isEmpty = false := by cbv
    rw [some]
    rfl

end Document

end JsonnetNav
