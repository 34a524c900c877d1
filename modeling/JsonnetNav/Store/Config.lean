/-! # Configuration

A configuration says which files and folders belong to a workspace. Settings are the
parts of a configuration that someone has chosen; the others stay as they are.
-/

namespace JsonnetNav

/-- What belongs to a workspace, by glob patterns and endings of file names. -/
structure Config where
  /-- Folders in which imports are looked up. -/
  libraryPaths : List String := ["**/vendor"]
  /-- Files and folders that are passed over. -/
  excluded : List String := ["**/.*"]
  included : List String := ["**"]
  /-- The endings of the names of source files. -/
  suffixes : List String := ["jsonnet", "libsonnet"]
  deriving Repr, DecidableEq

/-- New values for parts of a configuration. -/
structure Settings where
  libraryPaths : Option (List String) := none
  excluded : Option (List String) := none
  included : Option (List String) := none
  suffixes : Option (List String) := none
  deriving Repr, DecidableEq

namespace Settings

/-- The sections of the settings, in the order in which a client answers them. -/
def sections : List String :=
  ["library_paths", "exclude", "include", "suffixes"]

/-- The settings in an answer of a client, which may be too short or too long. -/
def ofValues (values : List (Option (List String))) : Settings :=
  { libraryPaths := values[0]?.join
    excluded := values[1]?.join
    included := values[2]?.join
    suffixes := values[3]?.join }

/-- The standard configuration with the given values in place of its own. -/
def config (s : Settings) : Config :=
  let standard : Config := {}
  { libraryPaths := s.libraryPaths.getD standard.libraryPaths
    excluded := s.excluded.getD standard.excluded
    included := s.included.getD standard.included
    suffixes := s.suffixes.getD standard.suffixes }

end Settings

end JsonnetNav
