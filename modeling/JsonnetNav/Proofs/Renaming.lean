import JsonnetNav.Proofs.References
import JsonnetNav.Proofs.RenamedTrees
import Mathlib

/-! # Renaming a variable

If a variable and all references to it get a name that occurs nowhere in the document, then
every reference of the document still stands for the variable it stood for. So renaming
changes no meaning: no reference is captured, lost or gained.
-/

namespace JsonnetNav

/-- A name is found under its new name if that is the new name of what it finds and of
    nothing that has another name. -/
theorem Site.lookup_renameEntry {f : Renaming} {env : Env} {name name' : Text}
    (other : ∀ entry ∈ env, entry.1 ≠ name → f entry.2.path entry.1 ≠ name')
    (hit : ∀ var, env.lookup name = some var → f var.path name = name') :
    (env.map (renameEntry f)).lookup name' = (env.lookup name).map (rename f) := by
  induction env with
  | nil => rfl
  | cons entry env ih =>
      obtain ⟨x, var⟩ := entry
      by_cases same : x = name
      · subst same
        have renamed := hit var List.lookup_cons_self
        simp [renameEntry, renamed]
      · have old : (name == x) = false := beq_eq_false_iff_ne.mpr (Ne.symm same)
        have new : (name' == f var.path x) = false :=
          beq_eq_false_iff_ne.mpr (other (x, var) (.head _) same).symm
        simp only [List.lookup_cons, old] at hit
        have rest := ih (fun entry member => other entry (.tail _ member)) hit
        simp only [List.map_cons, renameEntry, List.lookup_cons, old, new]
        exact rest

namespace Document

/-- The places of a variable and the references to it. -/
def places (d : Document) (var : Site) : List Path :=
  (d.references var ++ [var]).map Site.path

/-- The variable and the references to it get a new name, and nothing else does. -/
def newNames (d : Document) (var : Site) (name : Text) : Renaming := fun place old =>
  if place ∈ d.places var then name else old

/-- The document with other names, not resolved yet. -/
def renamed (d : Document) (f : Renaming) : Document :=
  { uri := d.uri, root := d.root.rename f [] }

/-- The names of the variables and of the references to variables. -/
def names (d : Document) : List Text :=
  d.sites.filterMap fun s =>
    match s.node with
    | .var id | .expr (.ref id) => some id.name
    | _ => none

variable {d : Document} {uri : Uri} {var s : Site} {id id' : Ident} {name : Text}

theorem Built.renamed (built : d.Built uri) (f : Renaming) : (d.renamed f).Built uri := by
  obtain ⟨range, body, root⟩ := built.root
  refine ⟨built.uri, ⟨range, body.rename f [⟨.body, 0⟩], ?_⟩, rfl⟩
  rw [Document.renamed, root]
  rfl

theorem mem_names (inside : s ∈ d.sites) (node : s.node = .var id ∨ s.node = .expr (.ref id)) :
    id.name ∈ d.names := by
  refine List.mem_filterMap.mpr ⟨s, inside, ?_⟩
  rcases node with isVar | isRef
  · simp only [isVar]
  · simp only [isRef]

theorem sites_renamed (d : Document) (f : Renaming) :
    (d.renamed f).sites = d.sites.map (Site.rename f) :=
  Site.preorder_rename f d.site

theorem Built.mem_places (built : d.Built uri) (member : var ∈ d.sites) (inside : s ∈ d.sites) :
    s.path ∈ d.resolve.places var ↔ (s, var) ∈ d.found ∨ s = var := by
  rw [← built.mem_references member, ← List.mem_singleton, ← List.mem_append, places, List.mem_map]
  constructor
  · intro ⟨t, listed, same⟩
    have inSites : t ∈ d.sites := by
      rcases List.mem_append.mp listed with isRef | isVar
      · exact (built.mem_found.mp ((built.mem_references member).mp isRef)).1
      · rw [List.mem_singleton.mp isVar]
        exact member
    rw [← Site.eq_of_path_eq inSites inside same]
    exact listed
  · intro listed
    exact ⟨s, listed, rfl⟩

/-- Of the variables only the one that is renamed gets the new name. -/
theorem Built.var_mem_places (built : d.Built uri) (member : var ∈ d.sites) (inside : s ∈ d.sites)
    (node : s.node = .var id) : s.path ∈ d.resolve.places var ↔ s = var := by
  rw [built.mem_places member inside]
  constructor
  · rintro (found | same)
    · obtain ⟨-, id', -, isRef, -⟩ := built.names_of_found found
      rw [node] at isRef
      cases isRef
    · exact same
  · exact .inr

/-- Of the references only those that stand for the variable get the new name. -/
theorem Built.ref_mem_places (built : d.Built uri) (member : var ∈ d.sites)
    (isVar : var.node = .var id) (inside : s ∈ d.sites) (node : s.node = .expr (.ref id')) :
    s.path ∈ d.resolve.places var ↔ s.visible.lookup id'.name = some var := by
  rw [built.mem_places member inside, built.mem_found]
  constructor
  · rintro (⟨-, id'', isRef, visible⟩ | rfl)
    · rw [node] at isRef
      cases isRef
      exact visible
    · rw [node] at isVar
      cases isVar
  · intro visible
    exact .inl ⟨inside, id', node, visible⟩

/-- Where a reference is looked up, its new name leads to the same variable as its old one. -/
theorem Built.lookup_renamed (built : d.Built uri) (member : var ∈ d.sites)
    (isVar : var.node = .var id) (fresh : name ∉ d.names) (inside : s ∈ d.sites)
    (node : s.node = .expr (.ref id')) :
    (s.rename (d.resolve.newNames var name)).visible.lookup
        (d.resolve.newNames var name s.path id'.name) =
      (s.visible.lookup id'.name).map (Site.rename (d.resolve.newNames var name)) := by
  have unusedRef : id'.name ≠ name := fun same => fresh (same ▸ mem_names inside (.inr node))
  have isRenamed := built.ref_mem_places member isVar inside node
  rw [Site.visible_rename]
  apply Site.lookup_renameEntry
  · intro ⟨x, u⟩ visible differs
    obtain ⟨inSites, idU, isVarU, rfl⟩ := built.mem_visible inside visible
    have unused : idU.name ≠ name := fun same => fresh (same ▸ mem_names inSites (.inl isVarU))
    unfold newNames
    by_cases same : u = var
    · rw [if_pos ((built.var_mem_places member inSites isVarU).mpr same)]
      -- the renamed variable is not found, as its old name is another one
      have notFound : s.path ∉ d.resolve.places var := by
        intro renamed
        obtain ⟨-, idV, isVarV, found⟩ := built.mem_visible_of_lookup inside (isRenamed.mp renamed)
        rw [← same, isVarU] at isVarV
        cases isVarV
        exact differs found
      rw [if_neg notFound]
      exact unusedRef.symm
    · rw [if_neg (mt (built.var_mem_places member inSites isVarU).mp same)]
      split
      · exact unused
      · exact differs
  · intro u found
    obtain ⟨inSites, idU, isVarU, -⟩ := built.mem_visible_of_lookup inside found
    have together : u.path ∈ d.resolve.places var ↔ s.path ∈ d.resolve.places var := by
      rw [isRenamed, found, Option.some.injEq, built.var_mem_places member inSites isVarU]
    simp only [newNames, together]

/-- A document in which a variable got a fresh name has the same places, and every reference
    stands for the variable at the same place as before, or still for none. -/
theorem bindingOfRef_renamed {tree : ParseTree} (done : ofParseTree uri tree = .ok d)
    (member : var ∈ d.sites) (isVar : var.node = .var id) (fresh : name ∉ d.names) :
    (d.renamed (d.resolve.newNames var name)).sites =
      d.sites.map (Site.rename (d.resolve.newNames var name)) ∧
    (∀ s : Site, (s.rename (d.resolve.newNames var name)).path = s.path) ∧
    ∀ ref ∈ d.sites, ∀ id', ref.node = .expr (.ref id') →
      ((d.renamed (d.resolve.newNames var name)).resolve.bindingOfRef?
          (ref.rename (d.resolve.newNames var name))).map Binding.id =
        ((d.resolve.bindingOfRef? ref).map Binding.id).map
          (Site.rename (d.resolve.newNames var name)) := by
  refine ⟨sites_renamed d _, Site.path_rename _, fun ref inside id' node => ?_⟩
  have built := built done
  have insideNew : ref.rename (d.resolve.newNames var name) ∈
      (d.renamed (d.resolve.newNames var name)).sites := by
    rw [sites_renamed]
    exact List.mem_map_of_mem inside
  have nodeNew : (ref.rename (d.resolve.newNames var name)).node =
      .expr (.ref (id'.rename (d.resolve.newNames var name) ref.path)) := by
    rw [Site.rename, node]
    rfl
  rw [(built.renamed _).bindingOfRef_lookup insideNew nodeNew,
    built.bindingOfRef_lookup inside node]
  exact built.lookup_renamed member isVar fresh inside node

/-- The second variable of `local x = null, x = x; x`. -/
def shadowVar : Site :=
  (shadowSite.down ⟨.binds, 1⟩ (.bind shadowSecond)).part .id (.var shadowX)

/-- After its second variable is renamed the document is `local x = null, y = y; y`. -/
def shadowRenamed : Document :=
  let range := Range.ofNats 0 0 0 24
  let y : Ident := ⟨range, .ofString "y"⟩
  { uri := "file:///x"
    root := .expr (.document range (.localIn range
      [⟨range, shadowX, .null range⟩, ⟨range, y, .ref y⟩] (.ref y))) }

/-- The reference in the body stands for the second variable also under its new name. -/
theorem shadow_renamed_body :
    ofParseTree "file:///x" shadowTree = .ok shadowDocument ∧
    (shadowVar ∈ shadowDocument.sites ∧ shadowVar.node = .var shadowX) ∧
    Text.ofString "y" ∉ shadowDocument.names ∧
    shadowDocument.renamed (shadowDocument.resolve.newNames shadowVar (.ofString "y")) =
      shadowRenamed ∧
    (shadowRenamed.resolve.bindingOfRef? ((shadowSite.part .body (.expr (.ref shadowX))).rename
      (shadowDocument.resolve.newNames shadowVar (.ofString "y")))).map Binding.id =
        some (shadowVar.rename (shadowDocument.resolve.newNames shadowVar (.ofString "y"))) := by
  have done : ofParseTree "file:///x" shadowTree = .ok shadowDocument := by cbv
  have body : shadowSite ∈ shadowDocument.sites := Site.mem_preorder_of_part (.head _) (.head _)
  have ref : shadowSite.part .body (.expr (.ref shadowX)) ∈ shadowDocument.sites :=
    Site.mem_preorder_trans body (Site.mem_preorder_of_part (.tail _ (.head _)) (.head _))
  have member : shadowVar ∈ shadowDocument.sites := by
    refine Site.mem_preorder_trans body (Site.mem_preorder_trans
      (t := shadowSite.down ⟨.binds, 1⟩ (.bind shadowSecond)) ?_ ?_)
    · exact Site.mem_preorder_of_part (.head _) (.tail _ (.head _))
    · exact Site.mem_preorder_of_part (.head _) (.head _)
  have node : shadowVar.node = .var shadowX := rfl
  have names : shadowDocument.names = List.replicate 4 (.ofString "x") := by cbv
  have fresh : Text.ofString "y" ∉ shadowDocument.names := by
    rw [names]
    decide
  have stands : (shadowDocument.resolve.bindingOfRef?
      (shadowSite.part .body (.expr (.ref shadowX)))).map Binding.id = some shadowVar := by cbv
  obtain ⟨-, -, same⟩ := bindingOfRef_renamed done member node fresh
  have answer := same _ ref shadowX rfl
  have tree : shadowDocument.renamed
      (shadowDocument.resolve.newNames shadowVar (.ofString "y")) = shadowRenamed := by cbv
  rw [tree, stands] at answer
  exact ⟨done, ⟨member, node⟩, fresh, tree, answer⟩

end Document

end JsonnetNav
