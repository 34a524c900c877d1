import JsonnetNav.Proofs.LiveDefinitions
import Mathlib

/-! # Connected documents

A search leaves a document through its imports and through the documents that import it. Where
both lead back into a part of the workspace, a search that starts in the part stays there, and
what lies outside of the part makes no difference to what it finds, or to why it fails.
-/

namespace JsonnetNav

namespace Plan

variable {α : Type} {w : Workspace} {kind : α → Prop}

/-- The plans differ at most in what follows on things that are never found. -/
inductive Alike (w : Workspace) : Plan α → Plan α → Prop where
  | refl (p : Plan α) : Alike w p p
  | forEach {β : Type} {xs : List β} {next next' : β → Plan α}
      (each : ∀ x ∈ xs, Alike w (next x) (next' x)) : Alike w (.forEach xs next) (.forEach xs next')
  | ask {q : Question} {next next' : q.Find → Plan α}
      (each : ∀ x, w.Suits q x → Alike w (next x) (next' x)) : Alike w (.ask q next) (.ask q next')

theorem Alike.run {answer answer' : (q : Question) → Search q.Find} {p p' : Plan α}
    (alike : Alike w p p') (stays : p'.Stays w kind)
    (answers : ∀ q, w.Has q.site → Search.Agree w.Has (w.Suits q) (answer q) (answer' q)) :
    Search.Agree w.Has kind (p.run answer) (p'.run answer') := by
  induction alike with
  | refl p => exact stays.run answers
  | @forEach _ xs _ _ _ ih =>
      have all : Search.Only w.Has (· ∈ xs) (.each xs) := .each fun x member => member
      exact all.bind fun x member => ih x member (stays x member)
  | ask _ ih => exact (answers _ stays.1).bind fun x suits => ih x suits (stays.2 x suits)

end Plan

namespace Workspace

/-- The workspace with nothing outside of a part. -/
def within (w : Workspace) (part : Uri → Prop) [DecidablePred part] : Workspace where
  document? uri := if part uri then w.document? uri else none
  importTarget := w.importTarget
  importers uri := if part uri then w.importers uri else []

/-- Neither the importers of documents nor their imports lead out of the part. -/
structure Closed (w : Workspace) (part : Uri → Prop) : Prop where
  importers : ∀ uri, part uri → ∀ v ∈ w.importers uri, part v
  imports : ∀ importee, w.Has importee → part importee.uri → importee.kind = .importee →
    ∀ v, w.importTarget importee = .ok (some v) → part v

variable {w : Workspace} {part : Uri → Prop} [DecidablePred part]

theorem importers_within {uri : Uri} (inside : part uri) :
    (w.within part).importers uri = w.importers uri :=
  if_pos inside

end Workspace

namespace Store

/-- The stores look up imports in the same folders, and they have the same documents in the
    part, with the same importers. Searches go through these in the same order. -/
structure AgreeOn (part : Uri → Prop) (s s' : Store) : Prop where
  workspaceUri : s.workspaceUri = s'.workspaceUri
  libraryPaths : s.libraryPaths = s'.libraryPaths
  documents : ∀ uri, part uri → s.document? uri = s'.document? uri
  importedBy : ∀ uri, part uri → ∀ v,
    v ∈ s.graph.importedBy.get uri ↔ v ∈ s'.graph.importedBy.get uri
  order : ∀ uri, part uri → (s.importers uri).Perm (s'.importers uri) →
    s.importers uri = s'.importers uri

/-- What imports the documents of the part, and what they import, is in the part as well. -/
structure ClosedOn (t : FileTree) (part : Uri → Prop) (s : Store) : Prop where
  importedBy : ∀ uri, part uri → ∀ v ∈ s.graph.importedBy.get uri, part v
  imports : ∀ uri, part uri → ∀ d, s.document? uri = some d → ∀ importee ∈ d.sites,
    importee.kind = .importee → ∀ v, s.importTarget t importee = .ok (some v) → part v

variable {s s' : Store} {t : FileTree} {part : Uri → Prop}

theorem AgreeOn.importTarget (agree : AgreeOn part s s') :
    s.importTarget t = s'.importTarget t := by
  funext importee
  simp only [Store.importTarget, resolveImport, searchPath, workspacePath, agree.workspaceUri,
    agree.libraryPaths]

theorem ClosedOn.workspace (closed : ClosedOn t part s) : (s.workspace t).Closed part where
  importers uri inside v member :=
    (ImportGraph.importers_within (fun _ _ _ => Iff.rfl) closed.importedBy inside s.order
      s.order).2 v member
  imports importee has inside isImportee v target := by
    obtain ⟨d, known, member⟩ := has
    exact closed.imports importee.uri inside d known importee member isImportee v target

theorem AgreeOn.within (agree : AgreeOn part s s') (closed : ClosedOn t part s)
    [DecidablePred part] : (s.workspace t).within part = (s'.workspace t).within part := by
  have documents : ((s.workspace t).within part).document? =
      ((s'.workspace t).within part).document? := by
    funext uri
    exact if_ctx_congr Iff.rfl (agree.documents uri) fun _ => rfl
  have importers : ((s.workspace t).within part).importers =
      ((s'.workspace t).within part).importers := by
    funext uri
    refine if_ctx_congr Iff.rfl (fun inside => ?_) fun _ => rfl
    exact agree.order uri inside
      (ImportGraph.importers_within agree.importedBy closed.importedBy inside s.order s'.order).1
  have targets : ((s.workspace t).within part).importTarget =
      ((s'.workspace t).within part).importTarget := agree.importTarget
  rw [Workspace.mk.injEq]
  exact ⟨documents, targets, importers⟩

end Store

end JsonnetNav
