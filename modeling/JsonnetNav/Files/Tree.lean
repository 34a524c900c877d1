import JsonnetNav.Files.Path
import JsonnetNav.ParseTree.Basic
import JsonnetNav.Store.Config

/-! # Trees of files

The files that can be read, each with what its text parses to, and the folders around
them. Folders exist on their own, or because there is something in them.
-/

namespace JsonnetNav

/-- What there is to read in a file. -/
inductive FileContent where
  /-- Source text, by its parse tree. -/
  | source (tree : ParseTree)
  /-- A configuration. -/
  | config (c : Config)
  /-- Bytes that are no text. -/
  | undecodable

/-- A place in a file tree: the parts of a path from the root, without dots. -/
abbrev Place := List Text

structure FileTree where
  files : List (Place × FileContent) := []
  /-- Folders that exist also when there is nothing in them. -/
  folders : List Place := []

/-- Why a file cannot be read. -/
inductive ReadError where
  | notFound
  | isFolder
  | undecodable
  deriving Repr, DecidableEq

namespace FileTree

/-- Everything that stands in the tree, some of it several times. -/
def places (t : FileTree) : List Place :=
  t.files.map Prod.fst ++ t.folders

/-- There is a file at a place. -/
def hasFile (t : FileTree) (place : Place) : Bool :=
  t.files.any (·.1 = place)

/-- There is a folder at a place. -/
def hasFolder (t : FileTree) (place : Place) : Bool :=
  place = [] || t.folders.any (place.isPrefixOf ·)
    || t.files.any (fun (file, _) => place ≠ file && place.isPrefixOf file)

/-- Goes from a place along the parts of a path. Only a folder can be left, inwards or
    outwards, and the folder around the root is the root. -/
def go (t : FileTree) : Place → List Text → Option Place
  | here, [] => some here
  | here, part :: parts =>
    if t.hasFolder here then
      t.go (if part = FilePath.up then here.dropLast else here ++ [part]) parts
    else none

/-- The place of an absolute path. -/
def locate? (t : FileTree) (p : FilePath) : Option Place :=
  if p.isAbsolute then t.go [] p.parts else none

def isFile (t : FileTree) (p : FilePath) : Bool :=
  (t.locate? p).any t.hasFile

def isFolder (t : FileTree) (p : FilePath) : Bool :=
  (t.locate? p).any t.hasFolder

/-- The path without two dots that leads to the same place. Where there is no way to go,
    the dots are taken back with the parts before them. -/
def resolve (t : FileTree) (p : FilePath) : FilePath :=
  match t.locate? p with
  | some place => { root := .slash, parts := place }
  | none => p.normalized

/-- The content of a file. -/
def read (t : FileTree) (p : FilePath) : Except ReadError FileContent :=
  match t.locate? p with
  | none => throw .notFound
  | some place =>
    match t.files.lookup place with
    | some .undecodable => throw .undecodable
    | some content => return content
    | none => throw (if t.hasFolder place then .isFolder else .notFound)

/-- Replaces a file or adds it. -/
def write (t : FileTree) (place : Place) (content : FileContent) : FileTree :=
  { t with files := (place, content) :: t.files.filter (·.1 ≠ place) }

/-- Takes a file away. -/
def remove (t : FileTree) (place : Place) : FileTree :=
  { t with files := t.files.filter (·.1 ≠ place) }

/-! ## Entries of a folder -/

/-- The name under which a place stands in a folder, if it is below the folder. -/
def entryName? (folder place : Place) : Option Text :=
  if folder.isPrefixOf place then place[folder.length]? else none

/-- The names in a folder in increasing order. -/
def entries (t : FileTree) (folder : Place) : List Text :=
  (t.places.filterMap (entryName? folder)).eraseDups.mergeSort Text.precedes

/-- The length of the longest place. -/
def depth (t : FileTree) : Nat :=
  (t.places.map List.length).foldr max 0

theorem le_foldr_max {n : Nat} : ∀ {ns : List Nat}, n ∈ ns → n ≤ ns.foldr max 0
  | m :: ms, h => by
    rcases List.mem_cons.1 h with rfl | h
    · exact Nat.le_max_left _ _
    · exact Nat.le_trans (le_foldr_max h) (Nat.le_max_right _ _)

theorem length_le_depth {t : FileTree} {place : Place} (h : place ∈ t.places) :
    place.length ≤ t.depth :=
  le_foldr_max (List.mem_map_of_mem h)

/-- What stands in a folder stands deeper than the folder. -/
theorem length_lt_depth {t : FileTree} {folder : Place} {name : Text}
    (h : name ∈ t.entries folder) : folder.length < t.depth := by
  rw [entries, List.mem_mergeSort, List.mem_eraseDups, List.mem_filterMap] at h
  obtain ⟨place, hp, he⟩ := h
  unfold entryName? at he
  split at he
  · exact Nat.lt_of_lt_of_le (List.getElem?_eq_some_iff.1 he).1 (length_le_depth hp)
  · cases he

end FileTree

end JsonnetNav
