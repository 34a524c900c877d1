import JsonnetNav.Document
import JsonnetNav.Files.Path

/-! # Why a question has no answer

Questions about names need a resolved document, some questions need a node of a certain
class, a search may have to be given up, and a document or an import may be no file.
-/

namespace JsonnetNav

inductive QueryError where
  /-- The names of the document are not resolved. -/
  | unresolved
  /-- The node is not of the class that the question is about. -/
  | wrongClass (expected : NodeClass) (actual : Kind)
  /-- The search went deeper than any search that ends. -/
  | tooDeep
  /-- A document or an import that is no file. -/
  | uri (e : UriError)
  deriving Repr, DecidableEq

namespace QueryError

/-- The text shown for an error, if it has one. -/
def message? : QueryError → Option String
  | wrongClass expected actual => some s!"Expected {expected.name}, but got {actual.name}"
  | _ => none

end QueryError

/-- Stops if the document is not resolved. -/
def Document.demandResolved (d : Document) : Except QueryError Unit :=
  if d.isResolved then pure () else throw .unresolved

/-- Stops if the document around the site is no file. -/
def Site.demandFile (s : Site) : Except QueryError Unit :=
  if FilePath.isFileUri s.uri then pure () else throw (.uri .notAFile)

/-- The site, if its node belongs to the class. -/
def Site.expect (s : Site) (cls : NodeClass) : Except QueryError Site :=
  if s.node.isA cls then pure s else throw (.wrongClass cls s.kind)

end JsonnetNav
