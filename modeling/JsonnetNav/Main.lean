import JsonnetNav.Commands
import JsonnetNav.Files.Listing

/-! # The command line

The parser is another program. What it has to say about the files of a workspace is
listed on the standard input, and for the path `-` the listing is that of one document.
-/

namespace JsonnetNav.CommandLine

/-- Says what is wrong, and fails. -/
def complain (problem : String) : IO UInt32 := do
  IO.eprintln problem
  return 1

/-- What is wrong with a command. -/
def describe : CommandError → String
  | .unknownTreeType => "The tree type is none of j, t and v."
  | .store (.read .notFound) => "There is no such file."
  | .store (.read .isFolder) => "A folder is no file."
  | .store (.read .undecodable) => "The file is no text."
  | .store (.build e) => e.message?.getD "The file is no document."
  | .store _ => "The workspace cannot be loaded."

/-- The lines of the standard input. -/
def inputLines : IO (List String) := do
  let input ← (← IO.getStdin).readToEnd
  return (input.splitOn "\n").filter (!·.isEmpty)

/-- Prints the tree at a path. -/
def printTree (path letter : String) : IO UInt32 := do
  let lines ← inputLines
  let path := FilePath.ofString path
  let given :=
    if path = Command.inputPath then
      match ParseTree.ofLines? lines with
      | some [input] => some ({}, input)
      | _ => none
    else (FileTree.ofLines? lines).map (·, default)
  match given with
  | none => complain "The listing cannot be read."
  | some (files, input) =>
    match Command.tree files input path letter with
    | .ok text =>
      IO.println text
      return 0
    | .error e => complain (describe e)

/-- Indexes the workspace at a path. -/
def indexWorkspace (path : String) (config : Option String) : IO UInt32 := do
  match FileTree.ofLines? (← inputLines) with
  | none => complain "The listing cannot be read."
  | some files =>
    match Command.index files (.ofString path) (config.map .ofString) with
    | .ok _ => return 0
    | .error e => complain (describe (.store e))

end JsonnetNav.CommandLine

open JsonnetNav.CommandLine in
/-- Runs the command in the arguments. -/
def main : List String → IO UInt32
  | ["tree", path] => printTree path "j"
  | ["tree", "-t", letter, path] | ["tree", path, "-t", letter] => printTree path letter
  | ["index", path] => indexWorkspace path none
  | ["index", "-c", config, path] | ["index", path, "-c", config] =>
    indexWorkspace path (some config)
  | _ => complain "usage: tree [-t j|t|v] PATH, or index [-c CONFIG] PATH"
