import JsonnetNav.Store.Basic

/-! # Scanning a workspace

A scan goes from a path down through all folders and lists source files and library
folders. What is excluded is passed over together with everything in it.
-/

namespace JsonnetNav

namespace Config

/-- Files and folders that are passed over together with everything in them. -/
def excludes (c : Config) (p : FilePath) (test : PatternTest := FilePath.fits) : Bool :=
  p.fitsAny c.excluded test

/-- Files that are source files by their path and name. -/
def isSource (c : Config) (p : FilePath) (test : PatternTest := FilePath.fits) : Bool :=
  p.fitsAny c.included test &&
    c.suffixes.any fun suffix => (Text.ofString suffix).isSuffixOf p.name

/-- Folders in which imports are looked up. -/
def isLibrary (c : Config) (p : FilePath) (test : PatternTest := FilePath.fits) : Bool :=
  p.fitsAny c.libraryPaths test

end Config

namespace FileTree

/-- The source files and library folders at a path and below it. A folder comes before
    what is in it, and the entries of a folder come by their names. -/
def scanFrom (t : FileTree) (c : Config) (test : PatternTest) (p : FilePath) (place : Place) :
    List FilePath :=
  if c.excludes p test then []
  else
    (if t.hasFile place && c.isSource p test then [p] else [])
      ++ if t.hasFolder place then
          (if c.isLibrary p test then [p] else [])
            ++ (t.entries place).attach.flatMap fun ⟨name, _h⟩ =>
                t.scanFrom c test (p.child name) (place ++ [name])
        else []
termination_by t.depth - place.length
decreasing_by
  have := length_lt_depth _h
  simp only [List.length_append, List.length_cons, List.length_nil]
  omega

end FileTree

/-- The source files and library folders of the workspace. -/
def Store.scan (s : Store) (t : FileTree) (test : PatternTest := FilePath.fits) :
    Except StoreError (List FilePath) := do
  let root ← s.workspacePath.mapError .uri
  if root.isAbsolute then
    return match t.locate? root with
      | some place => t.scanFrom s.config test root place
      | none => []
  else throw .relativeWorkspace

end JsonnetNav
