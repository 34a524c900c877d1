import JsonnetNav.ParseTree.Basic

/-! # Listed parse trees

A parse tree as a table with one line for each node, its children below it. The columns
stand between tabs: how deep the node stands, its type, its range, its marks, its role,
and its text if it has one. The marks are `a` for a node without a name and `e` for an
extra node.
-/

namespace JsonnetNav

namespace ParseTree

/-- A text in which line breaks, tabs and backslashes are spelled with a backslash. -/
def unspell : List Char → List Char
  | '\\' :: 'n' :: text => '\n' :: unspell text
  | '\\' :: 't' :: text => '\t' :: unspell text
  | '\\' :: '\\' :: text => '\\' :: unspell text
  | c :: text => c :: unspell text
  | [] => []

/-- The range in a column. -/
def listedRange? (column : String) : Option Range :=
  match (column.splitOn "-").map (·.splitOn ":") with
  | [[a, b], [c, d]] => do
    return Range.ofNats (← a.toNat?) (← b.toNat?) (← c.toNat?) (← d.toNat?)
  | _ => none

/-- The depth and the node of a line. -/
def listed? (line : String) : Option (Nat × ParseTree) :=
  match line.splitOn "\t" with
  | depth :: type :: range :: marks :: role :: text => do
    let node : ParseTree :=
      { type := type
        range := ← listedRange? range
        text := text.head?.map fun t => String.ofList (unspell t.toList)
        field := if role.isEmpty then none else some role
        named := !marks.contains 'a'
        extra := marks.contains 'e' }
    return (← depth.toNat?, node)
  | _ => none

/-- Puts a node in front of the trees after it. Those that stand deeper, up to the first
    that does not, are its children. -/
def adopt (line : Nat × ParseTree) (later : List (Nat × ParseTree)) : List (Nat × ParseTree) :=
  let (depth, node) := line
  let (children, others) := later.span fun tree => depth < tree.1
  (depth, { node with children := children.map Prod.snd }) :: others

/-- The trees in a list of lines. -/
def ofLines? (lines : List String) : Option (List ParseTree) := do
  return ((← lines.mapM listed?).foldr adopt []).map Prod.snd

end ParseTree

end JsonnetNav
