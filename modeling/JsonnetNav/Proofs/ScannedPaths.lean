import JsonnetNav.Proofs.Importers
import JsonnetNav.Store.Scan
import Mathlib

/-! # What a scan finds

A scan goes down from the root of the workspace as long as nothing is excluded, so it finds a path
only if no path on the way is excluded. Of the paths it comes to it lists the source files and the
library folders. It comes to every path once, and to a folder before what is in it.
-/

namespace JsonnetNav

namespace FilePath

/-- The path that leads on from a path through these names. -/
def descend (p : FilePath) (names : List Text) : FilePath :=
  { p with parts := p.parts ++ names }

/-- The path is that of the folder or leads on from there, and never back out of a folder. -/
def Below (p folder : FilePath) : Prop :=
  ∃ names, up ∉ names ∧ p = folder.descend names

section descend

variable (p : FilePath) (names more : List Text) (name : Text)

theorem descend_nil : p.descend [] = p := by
  simp [descend]

theorem descend_cons : p.descend (name :: names) = (p.child name).descend names := by
  simp [descend, child]

theorem descend_append : p.descend (names ++ more) = (p.descend names).descend more := by
  simp [descend]

variable {p names more}

theorem descend_inj : p.descend names = p.descend more ↔ names = more := by
  simp [descend]

theorem descend_eq_self : p.descend names = p ↔ names = [] := by
  rw [← descend_inj (p := p), descend_nil]

/-- The paths from a path down to one below it belong to the beginnings of the names between. -/
theorem forall_between_iff {P : FilePath → Prop} (plain : up ∉ names) :
    (∀ q : FilePath, q.Below p → (p.descend names).Below q → P q) ↔
      ∀ above, above <+: names → P (p.descend above) := by
  constructor
  · rintro all above ⟨rest, rfl⟩
    rw [List.mem_append, not_or] at plain
    exact all _ ⟨above, plain.1, rfl⟩ ⟨rest, plain.2, descend_append ..⟩
  · rintro all q ⟨above, -, rfl⟩ ⟨rest, -, whole⟩
    rw [← descend_append, descend_inj] at whole
    exact all above ⟨rest, whole.symm⟩

end descend

end FilePath

namespace FileTree

/-- What every file system grants: no name is two dots, and no file is a folder. -/
structure Proper (t : FileTree) : Prop where
  plain : ∀ place ∈ t.places, FilePath.up ∉ place
  apart : ∀ file ∈ t.files, ¬ t.hasFolder file.1

variable {t : FileTree} {c : Config} {test : PatternTest} {here folder place : Place} {name : Text}
  {names : List Text}

/-! ## Places of files and folders -/

theorem hasFile_iff : t.hasFile place ↔ ∃ file ∈ t.files, file.1 = place := by
  simp [hasFile]

theorem hasFolder_iff : t.hasFolder place ↔ place = [] ∨ (∃ folder ∈ t.folders, place <+: folder) ∨
    ∃ file ∈ t.files, place <+: file.1 ∧ place ≠ file.1 := by
  simp [hasFolder, List.isPrefixOf_iff_prefix, or_assoc, and_comm]

/-- Around everything there are folders. -/
theorem hasFolder_of_inside (inside : place ∈ t.places) (around : here ++ [name] <+: place) :
    t.hasFolder here := by
  have shorter : here <+: place := (List.prefix_append here [name]).trans around
  rw [hasFolder_iff]
  rcases List.mem_append.mp inside with isFile | isFolder
  · obtain ⟨file, listed, rfl⟩ := List.mem_map.mp isFile
    refine .inr (.inr ⟨file, listed, shorter, fun same => ?_⟩)
    have length := around.length_le
    rw [← same] at length
    simp at length
  · exact .inr (.inl ⟨place, isFolder, shorter⟩)

/-- A place at which there is something other than the root is the beginning of a listed place. -/
theorem exists_inside (something : t.hasFile place ∨ t.hasFolder place) (inner : place ≠ []) :
    ∃ listed ∈ t.places, place <+: listed := by
  rw [hasFile_iff, hasFolder_iff] at something
  rcases something with
    ⟨file, listed, rfl⟩ | root | ⟨folder, listed, around⟩ | ⟨file, listed, around, -⟩
  · exact ⟨file.1, List.mem_append_left _ (List.mem_map_of_mem listed), List.prefix_rfl⟩
  · exact absurd root inner
  · exact ⟨folder, List.mem_append_right _ listed, around⟩
  · exact ⟨file.1, List.mem_append_left _ (List.mem_map_of_mem listed), around⟩

theorem entryName_eq_some : entryName? folder place = some name ↔ folder ++ [name] <+: place := by
  unfold entryName?
  split
  · rename_i around
    obtain ⟨rest, rfl⟩ := List.isPrefixOf_iff_prefix.mp around
    rw [List.getElem?_append_right (Nat.le_refl _), Nat.sub_self, List.prefix_append_right_inj]
    cases rest <;> simp [eq_comm]
  · rename_i outside
    refine iff_of_false (by simp) fun inside => outside ?_
    exact List.isPrefixOf_iff_prefix.mpr ((List.prefix_append folder [name]).trans inside)

theorem mem_entries :
    name ∈ t.entries folder ↔ ∃ place ∈ t.places, folder ++ [name] <+: place := by
  simp only [entries, List.mem_mergeSort, List.mem_eraseDups, List.mem_filterMap, entryName_eq_some]

theorem nodup_entries (t : FileTree) (folder : Place) : (t.entries folder).Nodup :=
  (List.mergeSort_perm _ _).nodup_iff.mpr (nodup_eraseDups _)

/-- The way to something leads through entries of folders. -/
theorem mem_entries_of_inside
    (something : t.hasFile (here ++ name :: names) ∨ t.hasFolder (here ++ name :: names)) :
    name ∈ t.entries here := by
  obtain ⟨listed, member, around⟩ := exists_inside something (by simp)
  refine mem_entries.mpr ⟨listed, member, .trans ?_ around⟩
  exact ⟨names, by simp⟩

theorem hasFolder_of_entry (entry : name ∈ t.entries here) : t.hasFolder here := by
  obtain ⟨place, listed, around⟩ := mem_entries.mp entry
  exact hasFolder_of_inside listed around

/-- What can be said of places to which the way leads through entries of folders can be said of
    the paths that lead there. -/
theorem any_go {P : Place → Bool} (plain : FilePath.up ∉ names)
    (inside : ∀ here name names, P (here ++ name :: names) → name ∈ t.entries here) :
    (t.go here names).any P = P (here ++ names) := by
  induction names generalizing here with
  | nil => simp [go]
  | cons name names ih =>
      rw [List.mem_cons, not_or] at plain
      rw [go]
      by_cases isFolder : t.hasFolder here = true
      · rw [if_pos isFolder, if_neg (Ne.symm plain.1), ih plain.2, List.append_assoc,
          List.singleton_append]
      · rw [if_neg isFolder, Option.any_none, eq_comm, Bool.eq_false_iff]
        exact fun holds => isFolder (hasFolder_of_entry (inside here name names holds))

theorem go_append (here : Place) (parts more : List Text) :
    t.go here (parts ++ more) = (t.go here parts).bind (t.go · more) := by
  induction parts generalizing here with
  | nil => rfl
  | cons part parts ih =>
      rw [List.cons_append, go, go]
      split
      · exact ih _
      · rfl

theorem locate_descend {root : FilePath} (absolute : root.isAbsolute) (names : List Text) :
    t.locate? (root.descend names) = (t.locate? root).bind (t.go · names) := by
  have absolute' : (root.descend names).isAbsolute := absolute
  rw [locate?, if_pos absolute', locate?, if_pos absolute]
  exact go_append [] root.parts names

theorem isFile_descend {root : FilePath} (absolute : root.isAbsolute)
    (found : t.locate? root = some here) (plain : FilePath.up ∉ names) :
    t.isFile (root.descend names) = t.hasFile (here ++ names) := by
  rw [isFile, locate_descend absolute, found, Option.bind_some]
  exact any_go plain fun here name names file => mem_entries_of_inside (.inl file)

theorem isFolder_descend {root : FilePath} (absolute : root.isAbsolute)
    (found : t.locate? root = some here) (plain : FilePath.up ∉ names) :
    t.isFolder (root.descend names) = t.hasFolder (here ++ names) := by
  rw [isFolder, locate_descend absolute, found, Option.bind_some]
  exact any_go plain fun here name names folder => mem_entries_of_inside (.inr folder)

theorem Proper.plain_of_inside (proper : t.Proper)
    (something : t.hasFile (here ++ names) ∨ t.hasFolder (here ++ names)) :
    FilePath.up ∉ names := by
  by_cases root : here ++ names = []
  · simp [List.append_eq_nil_iff.mp root]
  · obtain ⟨listed, member, around⟩ := exists_inside something root
    intro up
    exact proper.plain listed member (around.subset (List.mem_append_right here up))

theorem Proper.hasFolder_of_hasFile (proper : t.Proper) (file : t.hasFile place) :
    ¬ t.hasFolder place := by
  obtain ⟨entry, listed, rfl⟩ := hasFile_iff.mp file
  exact proper.apart entry listed

/-! ## Scanning -/

/-- What there is at a place belongs to the workspace. -/
def Belongs (t : FileTree) (c : Config) (test : PatternTest) (p : FilePath) (place : Place) :
    Prop :=
  t.hasFile place ∧ c.isSource p test ∨ t.hasFolder place ∧ c.isLibrary p test

/-- What a scan lists at a place itself. -/
def listedAt (t : FileTree) (c : Config) (test : PatternTest) (p : FilePath) (place : Place) :
    List FilePath :=
  (if t.hasFile place && c.isSource p test then [p] else [])
    ++ if t.hasFolder place && c.isLibrary p test then [p] else []

variable {p q : FilePath}

theorem mem_listedAt : q ∈ t.listedAt c test p place ↔ q = p ∧ t.Belongs c test p place := by
  simp only [listedAt, Belongs, List.mem_append, List.mem_ite_nil_right, List.mem_singleton,
    Bool.and_eq_true]
  tauto

theorem Proper.nodup_listedAt (proper : t.Proper) : (t.listedAt c test p place).Nodup := by
  unfold listedAt
  by_cases isFile : t.hasFile place = true
  · have noFolder := proper.hasFolder_of_hasFile isFile
    split <;> simp [noFolder]
  · split <;> split <;> simp_all

theorem scanFrom_eq (t : FileTree) (c : Config) (test : PatternTest) (p : FilePath)
    (place : Place) :
    t.scanFrom c test p place = if c.excludes p test then [] else t.listedAt c test p place ++
      (t.entries place).flatMap fun name => t.scanFrom c test (p.child name) (place ++ [name]) := by
  rw [scanFrom]
  split
  · rfl
  · by_cases isFolder : t.hasFolder place = true
    · simp [listedAt, isFolder, List.flatMap_subtype]
    · have noEntries : t.entries place = [] :=
        List.eq_nil_iff_forall_not_mem.mpr fun name entry => isFolder (hasFolder_of_entry entry)
      simp [listedAt, isFolder, noEntries]

/-- A scan finds what belongs to the workspace if nothing on the way down to it is excluded. -/
theorem mem_scanFrom (t : FileTree) (c : Config) (test : PatternTest) (p q : FilePath)
    (place : Place) :
    q ∈ t.scanFrom c test p place ↔ ∃ names, q = p.descend names ∧
      (∀ above, above <+: names → ¬ c.excludes (p.descend above) test) ∧
        t.Belongs c test q (place ++ names) := by
  rw [scanFrom_eq]
  split
  · rename_i excluded
    refine iff_of_false List.not_mem_nil ?_
    rintro ⟨names, -, passed, -⟩
    have := passed [] List.nil_prefix
    rw [FilePath.descend_nil] at this
    exact this excluded
  · rename_i passed
    rw [List.mem_append, mem_listedAt, List.mem_flatMap]
    constructor
    · rintro (⟨rfl, belongs⟩ | ⟨name, entry, inner⟩)
      · refine ⟨[], q.descend_nil.symm, fun above start => ?_, by rwa [List.append_nil]⟩
        rwa [List.prefix_nil.mp start, FilePath.descend_nil]
      · have smaller := length_lt_depth entry
        obtain ⟨names, rfl, passed', belongs⟩ := (mem_scanFrom ..).mp inner
        rw [List.append_assoc, List.singleton_append] at belongs
        refine ⟨name :: names, (FilePath.descend_cons ..).symm, fun above start => ?_, belongs⟩
        rcases List.prefix_cons_iff.mp start with rfl | ⟨rest, rfl, shorter⟩
        · rwa [FilePath.descend_nil]
        · rw [FilePath.descend_cons]
          exact passed' rest shorter
    · rintro ⟨names, rfl, passed', belongs⟩
      cases names with
      | nil =>
          rw [FilePath.descend_nil, List.append_nil] at belongs
          exact .inl ⟨p.descend_nil, belongs⟩
      | cons name names =>
          have entry := mem_entries_of_inside (belongs.imp And.left And.left)
          have smaller := length_lt_depth entry
          refine .inr ⟨name, entry, (mem_scanFrom ..).mpr ⟨names, FilePath.descend_cons .., ?_, ?_⟩⟩
          · intro above start
            rw [← FilePath.descend_cons]
            exact passed' _ (List.cons_prefix_cons.mpr ⟨rfl, start⟩)
          · rwa [List.append_assoc]
termination_by t.depth - place.length
decreasing_by
  all_goals
    simp only [List.length_append, List.length_singleton]
    omega

/-- What is found in a folder leads on from an entry of the folder. -/
theorem exists_of_mem_scanFrom {t : FileTree} {c : Config} {test : PatternTest} {p q : FilePath}
    {place : Place} {name : Text} (found : q ∈ t.scanFrom c test (p.child name) (place ++ [name])) :
    ∃ names, q = p.descend (name :: names) := by
  obtain ⟨names, rfl, -⟩ := (mem_scanFrom ..).mp found
  exact ⟨names, (FilePath.descend_cons ..).symm⟩

theorem Proper.nodup_scanFrom {t : FileTree} (proper : t.Proper) (c : Config)
    (test : PatternTest) (p : FilePath) (place : Place) : (t.scanFrom c test p place).Nodup := by
  rw [scanFrom_eq]
  split
  · exact List.nodup_nil
  · refine List.Nodup.append proper.nodup_listedAt ?_ ?_
    · refine List.nodup_flatMap.mpr ⟨fun name entry => ?_, ?_⟩
      · have smaller := length_lt_depth entry
        exact proper.nodup_scanFrom c test _ _
      · refine (t.nodup_entries place).imp ?_
        intro name other different q first second
        obtain ⟨names, rfl⟩ := exists_of_mem_scanFrom first
        obtain ⟨names', same⟩ := exists_of_mem_scanFrom second
        rw [FilePath.descend_inj] at same
        exact different (List.cons.inj same).1
    · intro q here inner
      obtain ⟨name, -, found⟩ := List.mem_flatMap.mp inner
      obtain ⟨names, rfl⟩ := exists_of_mem_scanFrom found
      cases FilePath.descend_eq_self.mp (mem_listedAt.mp here).1
termination_by t.depth - place.length
decreasing_by
  simp only [List.length_append, List.length_singleton]
  omega

/-- A path is found before the paths below it. -/
theorem scanFrom_before {t : FileTree} {c : Config} {test : PatternTest} {p q r : FilePath}
    {place : Place} (found : q ∈ t.scanFrom c test p place)
    (found' : r ∈ t.scanFrom c test p place) (inside : r.Below q) (other : r ≠ q) : [q, r].Sublist (t.scanFrom c test p place) := by
  rw [scanFrom_eq] at found found' ⊢
  split at found
  · cases found
  · rename_i passed
    rw [if_neg passed, List.mem_append] at found'
    rw [if_neg passed]
    rcases List.mem_append.mp found with here | deeper
    · obtain ⟨rfl, -⟩ := mem_listedAt.mp here
      rcases found' with here' | deeper'
      · exact absurd (mem_listedAt.mp here').1 other
      · exact (List.singleton_sublist.mpr here).append (List.singleton_sublist.mpr deeper')
    · obtain ⟨name, entry, found⟩ := List.mem_flatMap.mp deeper
      have smaller := length_lt_depth entry
      have found' : r ∈ t.scanFrom c test (p.child name) (place ++ [name]) := by
        obtain ⟨names, rfl⟩ := exists_of_mem_scanFrom found
        obtain ⟨more, -, rfl⟩ := inside
        rw [← FilePath.descend_append] at found' ⊢
        rcases found' with here' | deeper'
        · cases FilePath.descend_eq_self.mp (mem_listedAt.mp here').1
        · obtain ⟨name', -, found'⟩ := List.mem_flatMap.mp deeper'
          obtain ⟨names', same⟩ := exists_of_mem_scanFrom found'
          cases (List.cons.inj (FilePath.descend_inj.mp same)).1
          exact found'
      have inOrder := scanFrom_before found found' inside other
      refine inOrder.trans (.trans ?_ (List.sublist_append_right _ _))
      exact List.sublist_flatten_of_mem (List.mem_map_of_mem entry)
termination_by t.depth - place.length
decreasing_by
  simp only [List.length_append, List.length_singleton]
  omega

/-- What belongs to the workspace, by the paths that lead to it. -/
theorem belongs_iff {root : FilePath} (absolute : root.isAbsolute)
    (located : t.locate? root = some place) (plain : FilePath.up ∉ names) :
    t.Belongs c test (root.descend names) (place ++ names) ↔
      t.isFile (root.descend names) ∧ (root.descend names).fitsAny c.included test ∧
          (∃ suffix ∈ c.suffixes, Text.ofString suffix <:+ (root.descend names).name) ∨
        t.isFolder (root.descend names) ∧ (root.descend names).fitsAny c.libraryPaths test := by
  rw [isFile_descend absolute located plain, isFolder_descend absolute located plain]
  simp [Belongs, Config.isSource, Config.isLibrary]

end FileTree

namespace Store

variable {s : Store} {t : FileTree} {test : PatternTest} {root : FilePath}

theorem scan_eq (workspace : s.workspacePath = .ok root) (absolute : root.isAbsolute) :
    s.scan t test = .ok ((t.locate? root).elim [] (t.scanFrom s.config test root)) := by
  simp only [scan, workspace, Except.mapError, bind, Except.bind, absolute, if_true]
  cases t.locate? root <;> rfl

/-- However paths are tested for patterns, a scan lists the paths from the root of the workspace
    down that are not excluded, with no excluded path on the way, and that belong to a source file
    or a library folder. It lists each of them once, and a folder before what is in it. -/
theorem scan_finds_sources (test : PatternTest) (proper : t.Proper)
    (workspace : s.workspacePath = .ok root) (absolute : root.isAbsolute) :
    ∃ paths, s.scan t test = .ok paths ∧
      (∀ p, p ∈ paths ↔ p.Below root ∧
        (∀ q : FilePath, q.Below root → p.Below q → ¬ q.fitsAny s.config.excluded test) ∧
        (t.isFile p ∧ p.fitsAny s.config.included test ∧
            (∃ suffix ∈ s.config.suffixes, Text.ofString suffix <:+ p.name) ∨
          t.isFolder p ∧ p.fitsAny s.config.libraryPaths test)) ∧
      paths.Nodup ∧
      ∀ p ∈ paths, ∀ q ∈ paths, q.Below p → q ≠ p → [p, q].Sublist paths := by
  refine ⟨_, scan_eq workspace absolute, ?_⟩
  cases located : t.locate? root with
  | none =>
      refine ⟨fun p => iff_of_false List.not_mem_nil ?_, List.nodup_nil, by simp⟩
      rintro ⟨⟨names, -, rfl⟩, -, something⟩
      simp [FileTree.isFile, FileTree.isFolder, FileTree.locate_descend absolute, located]
        at something
  | some place =>
      refine ⟨fun p => ?_, proper.nodup_scanFrom _ _ _ _, fun p found q found' inside other =>
        FileTree.scanFrom_before found found' inside other⟩
      rw [Option.elim_some, FileTree.mem_scanFrom]
      constructor
      · rintro ⟨names, rfl, passed, belongs⟩
        have plain := proper.plain_of_inside (belongs.imp And.left And.left)
        exact ⟨⟨names, plain, rfl⟩, (FilePath.forall_between_iff plain).mpr passed,
          (FileTree.belongs_iff absolute located plain).mp belongs⟩
      · rintro ⟨⟨names, plain, rfl⟩, passed, something⟩
        exact ⟨names, rfl, (FilePath.forall_between_iff plain).mp passed,
          (FileTree.belongs_iff absolute located plain).mpr something⟩

/-- A source file, one in a library folder, and one in a folder that is excluded. -/
def vendoredFiles : FileTree :=
  let file (path : String) := ((FilePath.ofString path).parts, FileContent.undecodable)
  { files := [file "/ws/a.jsonnet", file "/ws/vendor/b.libsonnet", file "/ws/.git/c.jsonnet"] }

def vendoredStore : Store :=
  { config := {}, workspaceUri := "file:///ws" }

theorem vendored_proper : vendoredFiles.Proper :=
  ⟨by decide, by decide⟩

/-- The library folder is found before the file in it, and the file in the excluded folder is not
    found. -/
theorem vendored_scanned :
    vendoredFiles.Proper ∧ vendoredStore.workspacePath = .ok (.ofString "/ws") ∧
    ∃ paths, vendoredStore.scan vendoredFiles = .ok paths ∧
      [.ofString "/ws/vendor", .ofString "/ws/vendor/b.libsonnet"].Sublist paths ∧
      .ofString "/ws/.git/c.jsonnet" ∉ paths := by
  have workspace : vendoredStore.workspacePath = .ok (.ofString "/ws") := by decide +kernel
  obtain ⟨paths, scanned, found, -, inOrder⟩ :=
    scan_finds_sources FilePath.fits vendored_proper workspace (by decide)
  let root := FilePath.ofString "/ws"
  have passed {names : List Text} (plain : FilePath.up ∉ names)
      (all : ∀ above ∈ names.inits, ¬ (root.descend above).fitsAny vendoredStore.config.excluded) :
      ∀ q : FilePath, q.Below root → (root.descend names).Below q →
        ¬ q.fitsAny vendoredStore.config.excluded :=
    (FilePath.forall_between_iff plain).mpr fun above start =>
      all above ((List.mem_inits ..).mpr start)
  have folder : root.descend [.ofString "vendor"] ∈ paths :=
    (found _).mpr ⟨⟨_, by decide, rfl⟩, passed (by decide) (by decide +kernel), by decide +kernel⟩
  have file : root.descend [.ofString "vendor", .ofString "b.libsonnet"] ∈ paths :=
    (found _).mpr ⟨⟨_, by decide, rfl⟩, passed (by decide) (by decide +kernel), by decide +kernel⟩
  refine ⟨vendored_proper, workspace, paths, scanned, ?_, fun hidden => ?_⟩
  · exact inOrder _ folder _ file ⟨[.ofString "b.libsonnet"], by decide, rfl⟩ (by decide)
  · obtain ⟨-, passed, -⟩ := (found _).mp hidden
    exact passed (root.descend [.ofString ".git"]) ⟨[.ofString ".git"], by decide, rfl⟩
      ⟨[.ofString "c.jsonnet"], by decide, by decide⟩ (by decide +kernel)

end Store

end JsonnetNav
