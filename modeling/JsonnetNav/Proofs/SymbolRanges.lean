import JsonnetNav.Proofs.SymbolForests
import Mathlib

/-! # The ranges of symbols

A name is written inside of what it names. A symbol takes the range of the name for its own and
selects the whole declaration, so it is the selection that contains the range. The selection lies
in the range only if a declaration is nothing but its name.
-/

namespace JsonnetNav

theorem exists_of_forall₂ {α β : Type} {R : α → β → Prop} {xs : List α} {ys : List β} {y : β}
    (pairs : List.Forall₂ R xs ys) (member : y ∈ ys) : ∃ x ∈ xs, R x y := by
  induction pairs with
  | nil => cases member
  | cons here _ ih =>
      rcases List.mem_cons.mp member with rfl | later
      · exact ⟨_, .head _, here⟩
      · obtain ⟨x, listed, related⟩ := ih later
        exact ⟨x, .tail _ listed, related⟩

namespace Symbol

def name : Symbol → Text
  | mk name _ _ _ _ => name

def kind : Symbol → SymbolKind
  | mk _ kind _ _ _ => kind

def range : Symbol → Range
  | mk _ _ range _ _ => range

def selection : Symbol → Range
  | mk _ _ _ selection _ => selection

mutual

/-- The symbol and all symbols in it. -/
def withInner : Symbol → List Symbol
  | s@(mk _ _ _ _ children) => s :: all children

/-- The symbols and all symbols in them. -/
def all : List Symbol → List Symbol
  | [] => []
  | s :: rest => s.withInner ++ all rest

end

end Symbol

/-- The symbol shows what the node declares. -/
def Site.ShownBy (s : Site) (symbol : Symbol) : Prop :=
  Symbol.Shows s.node symbol.name symbol.kind symbol.range symbol.selection

/-- The range of the name of a declaration, or of the key of a field. -/
def Site.nameRange? (s : Site) : Option Range :=
  match s.node with
  | .bind b => some b.id.range
  | .param p => some p.id.range
  | .forSpec f => some f.id.range
  | .field f => some f.key.range
  | _ => none

theorem Site.ShownBy.ranges {symbol : Symbol} {s : Site} (shown : s.ShownBy symbol) :
    s.nameRange? = some symbol.range ∧ s.range = symbol.selection := by
  obtain ⟨uri, node, above⟩ := s
  obtain ⟨name, kind, range, selection, children⟩ := symbol
  cases shown <;> exact ⟨rfl, rfl⟩

/-- The symbols stand for the sites of the forest, one by one. -/
theorem SiteTree.forall₂_allSites {forest : List SiteTree} {symbols : List Symbol}
    (mirrors : List.Forall₂ Mirrors forest symbols) :
    List.Forall₂ Site.ShownBy (allSites forest) (Symbol.all symbols) := by
  cases mirrors with
  | nil => exact .nil
  | cons first rest =>
      cases first with
      | @mk s children name kind range selection symbols shows below =>
          have shown : s.ShownBy (.mk name kind range selection symbols) := shows
          exact List.rel_append (.cons shown (forall₂_allSites below)) (forall₂_allSites rest)
termination_by sizeOf forest

/-- Names are written inside of what they name. -/
theorem Site.contains_nameRange {tree : ParseTree} (nests : tree.Nests) {s : Site}
    (named : s.node.Named tree) {name : Range} (written : s.nameRange? = some name) :
    s.range.contains name = true := by
  obtain ⟨uri, node, above⟩ := s
  cases node with
  | bind b | param b | forSpec b | field b =>
      cases written
      exact nests.contains named
  | _ => cases written

namespace Document

variable {d : Document} {uri : Uri} {tree : ParseTree}

/-- The range of every symbol lies in its selection, and the selection in the range only if they
    are the same. So the selections of all symbols lie in their ranges just if every declaration
    is nothing but its name. -/
theorem selections_contain_ranges (nests : tree.Nests) (done : ofParseTree uri tree = .ok d) :
    (∀ symbol ∈ Symbol.all d.symbols, symbol.selection.contains symbol.range = true ∧
      (symbol.range.contains symbol.selection = true ↔ symbol.selection = symbol.range)) ∧
    ((∀ symbol ∈ Symbol.all d.symbols, symbol.range.contains symbol.selection = true) ↔
      ∀ s ∈ d.sites, s.declares → s.nameRange? = some s.range) := by
  obtain ⟨forest, -, mirrors, perm⟩ := exists_mirrored done
  have pairs := SiteTree.forall₂_allSites mirrors
  have declared {s : Site} : s ∈ SiteTree.allSites forest ↔ s ∈ d.sites ∧ s.declares := by
    rw [perm.mem_iff, List.mem_filter]
  have swapped : ∀ symbol ∈ Symbol.all d.symbols,
      symbol.selection.contains symbol.range = true ∧
        (symbol.range.contains symbol.selection = true ↔ symbol.selection = symbol.range) := by
    intro symbol member
    obtain ⟨s, listed, shown⟩ := exists_of_forall₂ pairs member
    obtain ⟨written, whole⟩ := shown.ranges
    have named := named_sites done s (declared.mp listed).1
    have outer := Site.contains_nameRange nests named written
    rw [whole] at outer
    refine ⟨outer, fun inner => Range.contains_antisymm outer inner, fun same => ?_⟩
    rw [same]
    exact Range.contains_self _
  refine ⟨swapped, fun valid s inside isDeclared => ?_, fun alone symbol member => ?_⟩
  · have flipped : List.Forall₂ (fun symbol s => s.ShownBy symbol) (Symbol.all d.symbols)
        (SiteTree.allSites forest) := pairs.flip
    obtain ⟨symbol, member, shown⟩ :=
      exists_of_forall₂ flipped (declared.mpr ⟨inside, isDeclared⟩)
    obtain ⟨written, whole⟩ := shown.ranges
    rw [written, whole, (swapped symbol member).2.mp (valid symbol member)]
  · obtain ⟨s, listed, shown⟩ := exists_of_forall₂ pairs member
    obtain ⟨written, whole⟩ := shown.ranges
    obtain ⟨inside, isDeclared⟩ := declared.mp listed
    have same := alone s inside isDeclared
    rw [written, whole] at same
    exact (swapped symbol member).2.mpr (Option.some.inj same).symm

/-- The tree of `local x = null; x`. -/
def boundTree : ParseTree :=
  let node (type : String) (start stop : Nat) (children : List ParseTree) : ParseTree :=
    { type := type, range := Range.ofNats 0 start 0 stop, children := children }
  let mark (start : Nat) (text : String) : ParseTree :=
    { Build.wordTree text start text with named := false }
  let bind := node "bind" 6 14 [Build.wordTree "id" 6 "x", mark 8 "=", Build.nullTree 10]
  node "document" 0 17
    [node "local_bind" 0 17
      [Build.wordTree "local" 0 "local", bind, mark 14 ";", Build.wordTree "id" 16 "x"]]

def boundDocument : Document :=
  let id (start : Nat) : Ident := ⟨Range.ofNats 0 start 0 (start + 1), .ofString "x"⟩
  let bind : LocalBind := ⟨Range.ofNats 0 6 0 14, id 6, .null (Range.ofNats 0 10 0 14)⟩
  { uri := "file:///x"
    root := .expr
      (.document (Range.ofNats 0 0 0 17) (.localIn (Range.ofNats 0 0 0 17) [bind] (.ref (id 16)))) }

def boundSymbol : Symbol :=
  .mk (.ofString "x") .variable (Range.ofNats 0 6 0 7) (Range.ofNats 0 6 0 14) []

theorem bound_built : ofParseTree "file:///x" boundTree = .ok boundDocument := by
  cbv

/-- The symbol of a bind has the range of the name, and selects the whole bind. -/
theorem bound_selection_contains_range :
    boundTree.Nests ∧ ofParseTree "file:///x" boundTree = .ok boundDocument ∧
    ∀ symbol ∈ Symbol.all boundDocument.symbols,
      symbol.selection.contains symbol.range = true ∧
        (symbol.range.contains symbol.selection = true ↔ symbol.selection = symbol.range) := by
  have nests : boundTree.Nests := by decide +kernel
  exact ⟨nests, bound_built, (selections_contain_ranges nests bound_built).1⟩

/-- The selection of a bind does not lie in its range. -/
theorem bound_range_misses_selection :
    boundTree.Nests ∧ ofParseTree "file:///x" boundTree = .ok boundDocument ∧
    ∃ symbol ∈ Symbol.all boundDocument.symbols,
      symbol.range = Range.ofNats 0 6 0 7 ∧ symbol.selection = Range.ofNats 0 6 0 14 ∧
        symbol.range.contains symbol.selection = false := by
  have only : boundDocument.symbols = [boundSymbol] := by cbv
  refine ⟨by decide +kernel, bound_built, boundSymbol, ?_, rfl, rfl, by decide⟩
  rw [only]
  exact .head _

end Document

end JsonnetNav
