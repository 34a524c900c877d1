import JsonnetNav.Ast.Printer
import JsonnetNav.Scope.Table
import JsonnetNav.Text.Printable

/-! # Scopes of fields on one line

A scope of fields is written as a record, `Name(label=value, …)`, with all its values
inside. What is met again while it is still being written is replaced by dots.
-/

namespace JsonnetNav

namespace CodePoint

/-- Hexadecimal digits in lower case, with zeros in front up to a width. -/
def hexDigits (width : Nat) (p : CodePoint) : String :=
  let digits := Nat.toDigits 16 p.val
  String.ofList (List.replicate (width - digits.length) '0' ++ digits)

/-- A code point spelled by its number. -/
def spelled (p : CodePoint) : String :=
  if p.val < 0x100 then "\\x" ++ p.hexDigits 2
  else if p.val < 0x10000 then "\\u" ++ p.hexDigits 4
  else "\\U" ++ p.hexDigits 8

/-- A code point inside a string with the given quote around it. -/
def inQuotes (quote : CodePoint) (p : CodePoint) : String :=
  if p = quote ∨ p.val = 0x5C then "\\" ++ p.display
  else if p.val = 0x0A then "\\n"
  else if p.val = 0x0D then "\\r"
  else if p.val = 0x09 then "\\t"
  else if p.isPrintable then p.display
  else p.spelled

end CodePoint

/-- A text between single quotes, or between double quotes if it has single quotes and
    no double ones. -/
def Text.record (t : Text) : String :=
  let single := CodePoint.ofChar '\''
  let double := CodePoint.ofChar '"'
  let quote := if t.contains single && !t.contains double then double else single
  quote.display ++ String.join (t.map (CodePoint.inQuotes quote)) ++ quote.display

/-- The name of a visibility. -/
def Visibility.name : Visibility → String
  | default => "Default" | hidden => "Hidden" | forced => "Forced"

/-- A value inside a record. -/
def Leaf.record : Leaf → String
  | text t => t.record
  | visibility v => "<Visibility." ++ v.name ++ ": '" ++ v.text ++ "'>"
  | value => value.render

/-- Texts in brackets with commas in between. -/
def bracketed (items : List String) : String :=
  "[" ++ ", ".intercalate items ++ "]"

namespace Node

/-- A node as a record, its location first. -/
def record (uri : Uri) (n : Node) : String :=
  let parts := n.parts.attach.map fun
    | ⟨.leaf label value, _⟩ => label ++ "=" ++ value.record
    | ⟨.child role m, _h⟩ => role.label ++ "=" ++ m.record uri
    | ⟨.children role ms, _h⟩ =>
      role.label ++ "=" ++ bracketed (ms.attach.map fun x => x.1.record uri)
  n.kind.name ++ "(" ++
    ", ".intercalate (("location=" ++ (Location.mk uri n.range).render) :: parts) ++ ")"
termination_by sizeOf n
decreasing_by
  · exact childrenBelow_parts n _ _h m (by simp [Part.nodes])
  · exact childrenBelow_parts n _ _h x.1 x.2

end Node

namespace ScopeTable

/-- What is being written: scopes, frames and child lists. -/
structure Writing where
  scopes : List ScopeId := []
  frames : List Nat := []
  rows : List Nat := []

/-- A list as a record. A list that is being written already is replaced by dots. -/
def listRecord {α : Type} (isOpen : Bool) (item : α → String) (items : List α) : String :=
  if items.isEmpty then "[]" else if isOpen then "[...]" else bracketed (items.map item)

/-- A scope as a record. Each scope inside of a scope is another one, so the number of
    scopes bounds the depth. -/
def recordIn (t : ScopeTable) (w : Writing) : (depth : Nat) → ScopeId → String
  | 0, _ => "..."
  | depth + 1, i =>
    match t.scopes[i]? with
    | none => "None"
    | some s =>
      if w.scopes.contains i then "..."
      else
        let w := { w with scopes := i :: w.scopes }
        let inFrame := { w with frames := s.frame :: w.frames }
        let inRow := { w with rows := s.children :: w.rows }
        let binding := fun (b : Binding) =>
          "FieldBinding(scope=" ++ t.recordIn inFrame depth b.scope
            ++ ", id=" ++ b.id.node.record b.id.uri
            ++ ", target=" ++ b.target.node.record b.target.uri ++ ")"
        let parent := match s.parent with
          | some p => t.recordIn w depth p
          | none => "None"
        "FieldScope(owner=" ++ s.owner.node.record s.owner.uri
          ++ ", bindings=" ++ listRecord (w.frames.contains s.frame) binding (t.bindings s)
          ++ ", parent=" ++ parent
          ++ ", children="
          ++ listRecord (w.rows.contains s.children) (t.recordIn inRow depth) (t.childrenOf s) ++ ")"

/-- A scope of fields as a record. -/
def record (t : ScopeTable) (i : ScopeId) : String :=
  t.recordIn {} (t.scopes.size + 1) i

end ScopeTable

end JsonnetNav
