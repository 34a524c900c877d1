import JsonnetNav.Files.Tree
import JsonnetNav.ParseTree.Listing

/-! # Listed file trees

A file tree as a list of entries. The first line of an entry says what it is, `file`,
`binary`, `folder` or `config`, and after a tab where. Below a file stands its listed
parse tree, and below a configuration stand its values, each as the name of a section, a
tab and a pattern.
-/

namespace JsonnetNav

namespace Settings

/-- The settings with a value added in front of a section. -/
def addValue? (s : Settings) (name value : String) : Option Settings :=
  let grow := fun (values : Option (List String)) => some (value :: values.getD [])
  match name with
  | "library_paths" => some { s with libraryPaths := grow s.libraryPaths }
  | "exclude" => some { s with excluded := grow s.excluded }
  | "include" => some { s with included := grow s.included }
  | "suffixes" => some { s with suffixes := grow s.suffixes }
  | _ => none

/-- The settings in a list of lines. -/
def ofLines? (lines : List String) : Option Settings :=
  lines.foldr (fun line settings => do
    match line.splitOn "\t" with
    | [name, value] => (← settings).addValue? name value
    | _ => none) (some {})

end Settings

namespace FileTree

/-- An entry on its way, seen from its end: the lines below its first line. -/
structure Listing where
  tree : FileTree := {}
  pending : List String := []

namespace Listing

/-- Takes in a line in front of the lines that were taken in before. -/
def addLine? (l : Listing) (line : String) : Option Listing :=
  let add := fun (path : String) (content : FileContent) =>
    some { tree := l.tree.write (FilePath.ofString path).parts content }
  match line.splitOn "\t" with
  | ["file", path] => do
    match ← ParseTree.ofLines? l.pending with
    | [tree] => add path (.source tree)
    | _ => none
  | ["config", path] => do add path (.config (← Settings.ofLines? l.pending).config)
  | ["binary", path] => if l.pending.isEmpty then add path .undecodable else none
  | ["folder", path] =>
    if l.pending.isEmpty then
      some { tree := { l.tree with folders := (FilePath.ofString path).parts :: l.tree.folders } }
    else none
  | _ => some { l with pending := line :: l.pending }

end Listing

/-- The file tree in a list of lines. -/
def ofLines? (lines : List String) : Option FileTree := do
  let listing ← lines.foldr (fun line (listing : Option Listing) => do (← listing).addLine? line)
    (some {})
  if listing.pending.isEmpty then return listing.tree else none

end FileTree

end JsonnetNav
