import JsonnetNav.Proofs.Occurrences
import JsonnetNav.Proofs.RenamedSearches
import Mathlib

/-! # Renaming a parameter

A rename edits a parameter and the references to it. An argument can be given by the name of the
parameter too, and this name is no reference: it is left as it is, and means the parameter no
more. Where no call gives the parameter by name, everything is defined where it was.
-/

namespace JsonnetNav

theorem Node.var_of_rename {f : Renaming} {path : Path} {n : Node} {id : Ident}
    (isVar : n.rename f path = .var id) : ∃ id', n = .var id' ∧ id = id'.rename f path := by
  cases n with
  | var id' =>
      cases isVar
      exact ⟨id', rfl, rfl⟩
  | _ => cases isVar

namespace Document

variable {d : Document} {uri : Uri} {name : Text}

/-- The names by which arguments are given. -/
def argNames (d : Document) : List Text :=
  d.sites.filterMap fun s =>
    match s.node with
    | .paramRef id => some id.name
    | _ => none

theorem mem_argNames {ref : Site} {id : Ident} (inside : ref ∈ d.sites)
    (node : ref.node = .paramRef id) : id.name ∈ d.argNames := by
  refine List.mem_filterMap.mpr ⟨ref, inside, ?_⟩
  simp only [node]

theorem var_mem_sites {param : Site} {p : Param} (inside : param ∈ d.sites)
    (node : param.node = .param p) : param.part .id (.var p.id) ∈ d.sites := by
  have listed : .child .id (.var p.id) ∈ param.node.parts := by simp [node, Node.parts]
  exact Site.mem_preorder_trans inside (Site.mem_preorder_of_part listed (.head _))

/-- The document with another name for a variable, here and at all references to it. -/
def withName (d : Document) (var : Site) (name : Text) : Document :=
  d.renamed (d.resolve.newNames var name)

theorem Built.newNames_self (built : d.Built uri) {var : Site} (member : var ∈ d.sites) {id : Ident}
    (node : var.node = .var id) : d.resolve.newNames var name var.path id.name = name :=
  if_pos ((built.var_mem_places member member node).mpr rfl)

theorem Built.newNames_other (built : d.Built uri) {var s : Site} (member : var ∈ d.sites)
    (inside : s ∈ d.sites) {id : Ident} (node : s.node = .var id) (differs : s ≠ var) :
    d.resolve.newNames var name s.path id.name = id.name :=
  if_neg (mt (built.var_mem_places member inside node).mp differs)

end Document

namespace Store

variable {s : Store} {t : FileTree} {d : Document} {uri : Uri} {f : Renaming} {param : Site}
  {p : Param} {name : Text}

/-- The store with no document but this one. -/
def alone (s : Store) (d : Document) : Store :=
  { s with documents := [(d.uri, d)] }

theorem document_alone (s : Store) (d : Document) (uri : Uri) :
    (s.alone d).document? uri = if uri = d.uri then some d else none := by
  simp only [document?, alone, List.lookup_cons, List.lookup_nil]
  by_cases same : uri = d.uri
  · simp [same]
  · simp [same, beq_eq_false_iff_ne.mpr same]

theorem known_alone (s : Store) (d : Document) : (s.alone d).document? d.uri = some d := by
  rw [document_alone, if_pos rfl]

theorem eq_of_alone {d' : Document} (found : (s.alone d).document? uri = some d') :
    uri = d.uri ∧ d' = d := by
  rw [document_alone, Option.ite_none_right_eq_some] at found
  exact ⟨found.1, (Option.some.inj found.2).symm⟩

theorem importTarget_rename (s : Store) (d d' : Document) (t : FileTree) (f : Renaming)
    (importee : Site) :
    (s.alone d').importTarget t (importee.rename f) = (s.alone d).importTarget t importee := by
  obtain ⟨uri, node, above⟩ := importee
  cases node with
  | expr e => cases e <;> rfl
  | _ => rfl

theorem resolved_alone (built : d.Built d.uri) (s : Store) (t : FileTree) :
    ((s.alone d.resolve).workspace t).Resolved := by
  intro uri d' found
  obtain ⟨rfl, rfl⟩ := eq_of_alone (s := s) found
  exact ⟨d, built, rfl⟩

/-- Under its new name the variable is not what the name of an argument means. -/
theorem other_of_defined (built : d.Built d.uri) {var : Site} (member : var ∈ d.sites)
    (fresh : name ∉ d.argNames) {target : Range} {ref : Site} {id : Ident}
    (here : d.nodeAt? target = some ref) (node : ref.node = .paramRef id) {depth : Nat}
    {locations : List Location}
    (answered : ((s.alone (d.withName var name).resolve).workspace t).definitions
      (d.withName var name).resolve target depth = .ok locations)
    {l : Location} (listed : l ∈ locations) :
    ∃ other ∈ d.sites, other ≠ var ∧ other.location = l ∧
      ∃ ident, other.node = .var ident ∧ ident.name = id.name := by
  let f := d.resolve.newNames var name
  obtain ⟨ref', here', found, ⟨d', known', inside⟩, place, defines⟩ :=
    (resolved_alone (built.renamed f) s t).definitions_defined (known_alone s _) answered listed
  have moved : (d.renamed f).nodeAt? target = some (ref.rename f) := by
    rw [← Option.map_some, ← here]
    exact Site.nodeAt_rename f d.site target
  cases moved.symm.trans here'
  have isName : (ref.rename f).node = .paramRef id := by
    rw [Site.rename, node]
    rfl
  rw [Workspace.Defines, isName] at defines
  obtain ⟨fn, param, p, -, -, same, named⟩ := defines
  -- what is found has its place in the document before, under the name that it had there
  obtain ⟨-, rfl⟩ := eq_of_alone (s := s) known'
  obtain ⟨other, wasInside, rfl⟩ := List.mem_map.mp (Document.sites_renamed d f ▸ inside)
  obtain ⟨ident', isVar', renamed⟩ := Node.var_of_rename (congrArg Site.node same)
  have named : f other.path ident'.name = id.name := by
    rw [← named, renamed]
    rfl
  have differs : other ≠ var := by
    rintro rfl
    apply fresh
    rw [(built.newNames_self member isVar').symm.trans named]
    exact Document.mem_argNames (Site.mem_preorder_of_nodeAt here) node
  refine ⟨other, wasInside, differs, ?_, ident', isVar', ?_⟩
  · rw [← place, Site.location_rename]
  · exact (built.newNames_other member wasInside isVar' differs).symm.trans named

/-- A parameter that is nowhere given by name gets its new name unnoticed. -/
theorem renames_of_not_given (built : d.Built d.uri) (apart : d.ToldApart)
    (inside : param ∈ d.sites) (node : param.node = .param p) (fresh : name ∉ d.names)
    (freshArg : name ∉ d.argNames)
    (notGiven : ¬((s.alone d.resolve).workspace t).GivenByName param p) :
    Workspace.Renames (d.resolve.newNames (param.part .id (.var p.id)) name) d
      ((s.alone d.resolve).workspace t)
      ((s.alone (d.withName (param.part .id (.var p.id)) name).resolve).workspace t) where
  built := built
  faithful := fun ref isRef id isName =>
    built.lookup_renamed (Document.var_mem_sites inside node) rfl fresh isRef isName
  apart := apart
  document := document_alone s d.resolve
  document' := document_alone s _
  target := importTarget_rename s _ _ t _
  importers := fun _ => rfl
  args := by
    rintro ref isRef id isName fn isFn passes ⟨param', p'⟩ member
    obtain ⟨inside', node'⟩ := Document.param_of_mem isFn member
    have isVar := Document.var_mem_sites inside node
    have isVar' := Document.var_mem_sites inside' node'
    by_cases same : param'.part .id (.var p'.id) = param.part .id (.var p.id)
    · obtain rfl : param' = param := Option.some.inj (congrArg Site.parent? same)
      cases node.symm.trans node'
      have has : ((s.alone d.resolve).workspace t).Has ref :=
        (resolved_alone built s t).has (known_alone s d.resolve) isRef
      have before : p'.id.name ≠ id.name := fun sameName =>
        notGiven ⟨fn, ref, id, member, has, isName, sameName.symm, passes⟩
      have after : name ≠ id.name :=
        fun sameName => freshArg (sameName ▸ Document.mem_argNames isRef isName)
      have renamed : d.resolve.newNames _ name _ p'.id.name = name := built.newNames_self isVar rfl
      exact iff_of_false (renamed.trans_ne after) before
    · have kept : d.resolve.newNames _ name _ p'.id.name = p'.id.name :=
        built.newNames_other isVar isVar' rfl same
      exact iff_of_eq (congrArg (· = id.name) kept)

/-- A rename of a parameter edits its variable and the references to it. Then no argument that is
    given by name means this variable any more: what it means are other variables, which have its
    name. Where no call gives the parameter by name, and functions, parameters and variables have
    places of their own, whatever is looked up is found where it was. -/
theorem definitions_of_renamed_parameter {tree : ParseTree}
    (done : Document.ofParseTree uri tree = .ok d) (inside : param ∈ d.sites)
    (node : param.node = .param p) (fresh : name ∉ d.names) (freshArg : name ∉ d.argNames)
    (s : Store) (t : FileTree) :
    let var := param.part .id (.var p.id)
    let before := (s.alone d.resolve).workspace t
    let after := (s.alone (d.withName var name).resolve).workspace t
    (∀ target, d.nodeAt? target = some var →
      d.resolve.renameRanges target = (d.resolve.references var ++ [var]).map Site.range) ∧
    (∀ target ref id depth locations, d.nodeAt? target = some ref → ref.node = .paramRef id →
      after.definitions (d.withName var name).resolve target depth = .ok locations →
        (∀ l ∈ locations, ∃ other ∈ d.sites, other ≠ var ∧ other.location = l ∧
          ∃ ident, other.node = .var ident ∧ ident.name = id.name) ∧
        (d.ToldApart → var.location ∉ locations)) ∧
    (d.ToldApart → ¬before.GivenByName param p → ∀ target depth,
      after.definitions (d.withName var name).resolve target depth =
        before.definitions d.resolve target depth) := by
  intro var before after
  have built : d.Built d.uri := by
    have built := Document.built done
    rwa [built.uri]
  have member : var ∈ d.sites := Document.var_mem_sites inside node
  refine ⟨?_, ?_, ?_⟩
  · intro target here
    exact built.renameRanges_eq rfl here (.inl rfl)
  · intro target ref id depth locations here isName answered
    have others {l : Location} (listed : l ∈ locations) :=
      other_of_defined built member freshArg here isName answered listed
    refine ⟨fun l listed => others listed, fun apart listed => ?_⟩
    obtain ⟨other, wasInside, differs, place, ident, isVar, -⟩ := others listed
    have kinds : other.kind = .var := by
      rw [Site.kind, isVar]
      rfl
    exact differs (apart other wasInside var member kinds (.inr (.inr kinds))
      (congrArg Location.range place))
  · intro apart notGiven target depth
    exact (renames_of_not_given built apart inside node fresh freshArg notGiven).definitions target
      depth

/-! ## A parameter that is given by name and one that is not -/

open Site (namingDocument namingTree namingParam namingParamSite)

/-- The variable of a parameter of `local f = function(x, y) x; [f(null, y=null), f(y=null)]`. -/
def namingVar (i start : Nat) (name : String) : Site :=
  (namingParamSite i start name).part .id (.var (namingParam start name).id)

/-- What a search sees where the document is alone. -/
def namingWorkspace (d : Document) : Workspace :=
  (alone { config := {}, workspaceUri := "file:///" } d.resolve).workspace {}

/-- The document after a parameter got the name `n`. -/
def namingRenamed (var : Site) : Document :=
  namingDocument.withName var (.ofString "n")

theorem naming_params : namingParamSite 0 19 "x" ∈ namingDocument.sites ∧
    namingParamSite 1 22 "y" ∈ namingDocument.sites := by
  have fn := Site.naming_mem_sites.1
  constructor
  · exact Site.mem_preorder_trans fn (Site.mem_preorder_of_part (.head _) (.head _))
  · exact Site.mem_preorder_trans fn (Site.mem_preorder_of_part (.head _) (.tail _ (.head _)))

theorem naming_argNames : namingDocument.argNames = [.ofString "y", .ofString "y"] := by cbv

theorem naming_fresh : Text.ofString "n" ∉ namingDocument.names ∧
    Text.ofString "n" ∉ namingDocument.argNames := by
  have names : namingDocument.names = ["f", "x", "y", "x", "f", "f"].map Text.ofString := by cbv
  rw [names, naming_argNames]
  decide

theorem naming_toldApart : namingDocument.ToldApart := by
  apply Document.toldApart_of_nodup
  have places : ((namingDocument.sites.filter fun s =>
      s.kind = .fn ∨ s.kind = .param ∨ s.kind = .var).map fun s => (s.kind, s.range)) =
        [(.var, Range.ofNats 0 6 0 7), (.fn, Range.ofNats 0 10 0 26),
          (.param, Range.ofNats 0 19 0 20), (.var, Range.ofNats 0 19 0 20),
          (.param, Range.ofNats 0 22 0 23), (.var, Range.ofNats 0 22 0 23)] := by cbv
  rw [places]
  decide

/-- Only the second parameter is given by name. -/
theorem naming_not_given :
    ¬(namingWorkspace namingDocument).GivenByName (namingParamSite 0 19 "x")
      (namingParam 19 "x") := by
  rintro ⟨fn, ref, id, -, ⟨d, known, inside⟩, node, sameName, -⟩
  obtain ⟨-, rfl⟩ := eq_of_alone (s := { config := {}, workspaceUri := "file:///" }) known
  have listed : id.name ∈ namingDocument.argNames := Document.mem_argNames inside node
  rw [naming_argNames, sameName] at listed
  revert listed
  decide

theorem naming_definitions :
    (namingWorkspace namingDocument).definitions namingDocument.resolve (Range.ofNats 0 37 0 37) =
      .ok [(namingVar 1 22 "y").location] := by
  cbv

/-- After its first parameter is renamed, the argument `y=null` means the second one still. -/
theorem naming_first_renamed :
    let var := namingVar 0 19 "x"
    Document.ofParseTree "file:///x" namingTree = .ok namingDocument ∧
    (namingParamSite 0 19 "x" ∈ namingDocument.sites ∧
      (namingParamSite 0 19 "x").node = .param (namingParam 19 "x")) ∧
    (Text.ofString "n" ∉ namingDocument.names ∧ Text.ofString "n" ∉ namingDocument.argNames) ∧
    namingDocument.ToldApart ∧
    ¬(namingWorkspace namingDocument).GivenByName (namingParamSite 0 19 "x") (namingParam 19 "x") ∧
    (namingWorkspace (namingRenamed var)).definitions (namingRenamed var).resolve
      (Range.ofNats 0 37 0 37) = .ok [(namingVar 1 22 "y").location] := by
  intro var
  obtain ⟨-, -, same⟩ := definitions_of_renamed_parameter Site.naming_built naming_params.1 rfl
    naming_fresh.1 naming_fresh.2 { config := {}, workspaceUri := "file:///" } {}
  refine ⟨Site.naming_built, ⟨naming_params.1, rfl⟩, naming_fresh, naming_toldApart,
    naming_not_given, ?_⟩
  exact (same naming_toldApart naming_not_given _ _).trans naming_definitions

/-- After its second parameter is renamed, the argument `y=null` means nothing any more. -/
theorem naming_second_renamed :
    let var := namingVar 1 22 "y"
    Document.ofParseTree "file:///x" namingTree = .ok namingDocument ∧
    (namingParamSite 1 22 "y" ∈ namingDocument.sites ∧
      (namingParamSite 1 22 "y").node = .param (namingParam 22 "y")) ∧
    (Text.ofString "n" ∉ namingDocument.names ∧ Text.ofString "n" ∉ namingDocument.argNames) ∧
    namingDocument.resolve.renameRanges (Range.ofNats 0 22 0 22) = [var.range] ∧
    (namingWorkspace namingDocument).definitions namingDocument.resolve (Range.ofNats 0 37 0 37) =
      .ok [var.location] ∧
    (namingWorkspace (namingRenamed var)).definitions (namingRenamed var).resolve
      (Range.ofNats 0 37 0 37) = .ok [] := by
  intro var
  have edits : namingDocument.resolve.renameRanges (Range.ofNats 0 22 0 22) = [var.range] := by cbv
  refine ⟨Site.naming_built, ⟨naming_params.2, rfl⟩, naming_fresh, edits, naming_definitions, ?_⟩
  cbv

end Store

end JsonnetNav
