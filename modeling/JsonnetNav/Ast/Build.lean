import JsonnetNav.Ast.BuildError
import JsonnetNav.Ast.Node
import JsonnetNav.Number.Decimal
import JsonnetNav.ParseTree.Cursor

/-! # From parse trees to abstract syntax

`Build.expr` and `Build.node` read any node and never fail: a node whose parts are
not as its type demands becomes an expression that says so. `Build.asKind` reads a
node as one kind and reports what is wrong with it. Comments never count as parts.
-/

namespace JsonnetNav

/-- The kind of node that a type of parse tree node stands for. -/
def Kind.ofType? : String → Option Kind
  | "null" => some .null
  | "dollar" => some .dollar
  | "self" => some .self
  | "super" => some .super
  | "document" => some .document
  | "id" => some .varRef
  | "number" => some .num
  | "string" => some .str
  | "true" | "false" => some .bool
  | "array" => some .array
  | "unary" => some .unary
  | "binary" | "implicit_plus" => some .binary
  | "bind" => some .bind
  | "local_bind" => some .localIn
  | "param" => some .param
  | "anonymous_function" => some .fn
  | "named_argument" => some .arg
  | "functioncall" => some .call
  | "forspec" => some .forSpec
  | "ifspec" => some .ifSpec
  | "forloop" => some .listComp
  | "import" | "importstr" | "importbin" => some .importFile
  | "assert" => some .assertIn
  | "fieldname" => some .fixedKey
  | "field" => some .field
  | "object" => some .object
  | "fieldaccess" | "fieldaccess_super" => some .fieldAccess
  | "indexing" => some .slice
  | "conditional" => some .cond
  | _ => none

namespace Build

/-- Building a node, or saying why not. -/
abbrev Result := Except BuildError

/-- Stops unless the cursor is at a node of one of these types. -/
def demandType (c : Cursor) (types : List String) : Result Unit :=
  if types.contains c.type then pure () else throw .wrongType

/-- The text of a node. -/
def demandText (c : Cursor) : Result String :=
  match c.tree.text with
  | some text => pure text
  | none => throw .missingText

/-- The merged range. -/
def merge (first second : Range) : Result Range :=
  match first.merge? second with
  | some range => pure range
  | none => throw .rangesOutOfOrder

/-- A name. -/
def ident (c : Cursor) : Result Ident := do
  demandType c ["id"]
  return ⟨c.range, Text.ofString (← demandText c)⟩

/-- The value of a string: its opening, content and closing are its named children. -/
def string (c : Cursor) : Result Text := do
  demandType c ["string"]
  match c.children.filter (·.1.tree.named) with
  | [opening, content, _] =>
    let opening ← demandText opening.1
    let content ← demandText content.1
    match Text.literalValue opening content with
    | .ok value => pure value
    | .error error => throw (.literal error)
  | _ => throw .missingParts

def operator (text : String) : Result Operator :=
  match Operator.ofText? text with
  | some op => pure op
  | none => throw .unknownOperator

def visibility (text : String) : Result Visibility :=
  match Visibility.ofText? text with
  | some v => pure v
  | none => throw .unknownVisibility

/-- The kind of an import by its keyword. -/
def importKind (keyword : String) : ImportKind :=
  if keyword = "importstr" then .text else if keyword = "importbin" then .bytes else .value

/-- What a member of an object can be. -/
inductive ObjectMember where
  | bind (b : LocalBind)
  | assertion (a : Assertion)
  | field (f : Field)
  | other

namespace ObjectMember

def bind? : ObjectMember → Option LocalBind
  | bind b => some b
  | _ => none

def assertion? : ObjectMember → Option Assertion
  | assertion a => some a
  | _ => none

def field? : ObjectMember → Option Field
  | field f => some f
  | _ => none

end ObjectMember

/-- The members of an object that have exactly one part, of the given type. -/
def partsOfType (c : Cursor) (type : String) : List c.Below :=
  c.members.filterMap fun ⟨d, h⟩ =>
    if d.type = "member" then
      match d.members with
      | [⟨part, h'⟩] => if part.type = type then some ⟨part, Nat.lt_trans h' h⟩ else none
      | _ => none
    else none

mutual

/-- Any node as an expression. -/
def expr (c : Cursor) : Expr :=
  match node c with
  | .expr e => e
  | _ => .misplaced c.range c.type
termination_by 8 * c.weight + 4

/-- Any node as what its type stands for. -/
def node (c : Cursor) : Node :=
  match form c with
  | .ok n => n
  | .error _ => .expr (.malformed c.range c.type)
termination_by 8 * c.weight + 3

/-- A node read by its type. Parentheses are left out of the tree. -/
def form (c : Cursor) : Result Node :=
  if c.type = "parenthesis" then
    match c.members with
    | ⟨inner, _⟩ :: _ => pure (.expr (expr inner))
    | [] => throw .emptyParentheses
  else
    match Kind.ofType? c.type with
    | some kind => asKind kind c
    | none => pure (.expr (.unknown c.range))
termination_by 8 * c.weight + 2

/-- A node read as the given kind. -/
def asKind (kind : Kind) (c : Cursor) : Result Node := do
  match kind with
  | .null => demandType c ["null"]; return .expr (.null c.range)
  | .dollar => demandType c ["dollar"]; return .expr (.dollar c.range)
  | .self => demandType c ["self"]; return .expr (.self c.range)
  | .super => demandType c ["super"]; return .expr (.super c.range)
  | .document =>
    demandType c ["document"]
    match c.members with
    | ⟨body, _⟩ :: _ => return .expr (.document c.range (expr body))
    | [] => throw .missingParts
  | .var => return .var (← ident c)
  | .varRef => return .expr (.ref (← ident c))
  | .fieldName => return .fieldName (← ident c)
  | .fieldRef => return .fieldRef (← ident c)
  | .paramRef => return .paramRef (← ident c)
  | .num =>
    demandType c ["number"]
    match Number.read? (← demandText c) with
    | some value => return .expr (.num c.range value)
    | none => throw .notANumber
  | .str | .importee => return .expr (.str c.range (← string c))
  | .bool =>
    demandType c ["true", "false"]
    return .expr (.bool c.range ((← demandText c) = "true"))
  | .array =>
    demandType c ["array"]
    return .expr (.array c.range (c.members.map fun ⟨d, _⟩ => expr d))
  | .unary =>
    demandType c ["unary"]
    match c.members with
    | op :: ⟨operand, _⟩ :: _ =>
      let op ← operator (← demandText op.1)
      return .expr (.unary c.range op (expr operand))
    | _ => throw .missingParts
  | .binary =>
    demandType c ["binary", "implicit_plus"]
    if c.type = "binary" then
      match c.members with
      | ⟨lhs, _⟩ :: op :: ⟨rhs, _⟩ :: _ =>
        let op ← operator (← demandText op.1)
        return .expr (.binary c.range op (expr lhs) (expr rhs))
      | _ => throw .missingParts
    else
      match c.members with
      | ⟨lhs, _⟩ :: ⟨rhs, _⟩ :: _ => return .expr (.binary c.range .plus (expr lhs) (expr rhs))
      | _ => throw .missingParts
  | .bind => return .bind (← bind c)
  | .localIn =>
    demandType c ["local_bind"]
    match c.members with
    | [] => throw .missingParts
    | _ :: rest =>
      let binds ← (rest.filter (·.1.type = "bind")).mapM fun ⟨d, _⟩ => bind d
      match rest.filter (·.1.type ≠ "bind") with
      | ⟨body, _⟩ :: _ => return .expr (.localIn c.range binds (expr body))
      | [] => throw .missingBody
  | .param => return .param (← param c)
  | .fn =>
    demandType c ["anonymous_function"]
    match c.members with
    | [] => throw .missingParts
    | ⟨first, _⟩ :: rest =>
      let finish (params : List Param) (body : Expr) : Result Node := do
        return .expr (.fn (← merge c.range body.range) params body)
      match rest with
      | ⟨body, _⟩ :: _ =>
        if first.type = "params" then
          let params ← first.members.mapM fun ⟨d, _⟩ => param d
          finish params (expr body)
        else finish [] (expr first)
      | [] => finish [] (expr first)
  | .arg => return .arg (← namedArg c)
  | .call =>
    demandType c ["functioncall"]
    match c.members with
    | [] => throw .wrongCount
    | ⟨callee, _⟩ :: rest =>
      let args ← rest.mapM fun ⟨d, _⟩ => d.members.mapM fun ⟨a, _⟩ => arg a
      return .expr (.call c.range (expr callee) args.flatten)
  | .forSpec => return .forSpec (← forSpec c)
  | .ifSpec => return .ifSpec (← ifSpec c)
  | .listComp =>
    demandType c ["forloop"]
    match c.members with
    | ⟨element, _⟩ :: ⟨clause, _⟩ :: rest =>
      let clause ← forSpec clause
      let clauses ← rest.mapM fun ⟨d, _⟩ => d.members.mapM fun ⟨s, _⟩ => compSpec s
      return .expr (.listComp c.range (expr element) clause clauses.flatten)
    | _ => throw .wrongCount
  | .importFile =>
    demandType c ["import", "importbin", "importstr"]
    match c.members with
    | [path] =>
      return .expr (.importFile c.range (importKind c.type) ⟨path.1.range, ← string path.1⟩)
    | _ => throw .missingParts
  | .assertion => return .assertion (← assertion c)
  | .assertIn =>
    let assertion ← assertion c
    match c.next? with
    | some ⟨body, _⟩ =>
      let body := expr body
      return .expr (.assertIn (← merge assertion.range body.range) assertion body)
    | none => throw .danglingAssertion
  | .fixedKey | .computedKey => return .key (← key c)
  | .field => return .field (← field c)
  | .object =>
    demandType c ["object"]
    if c.children.any fun d => d.1.tree.named && d.1.type = "forspec" then
      return .expr (← objComp c)
    else
      let members ← c.members.mapM fun ⟨d, _⟩ => objectMember d
      return .expr (.object c.range (members.filterMap ObjectMember.bind?)
        (members.filterMap ObjectMember.assertion?) (members.filterMap ObjectMember.field?))
  | .objComp => return .expr (← objComp c)
  | .fieldAccess =>
    demandType c ["fieldaccess", "fieldaccess_super"]
    match c.members with
    | [⟨obj, _⟩, name] => return .expr (.fieldAccess c.range (expr obj) (← ident name.1))
    | _ => throw .missingParts
  | .slice =>
    demandType c ["indexing"]
    match c.members with
    | ⟨array, _⟩ :: ⟨start, _⟩ :: rest =>
      let (stop, step) :=
        match rest with
        | [⟨stop, _⟩, ⟨step, _⟩] => (some (expr stop), some (expr step))
        | [⟨stop, _⟩] => (some (expr stop), none)
        | _ => (none, none)
      return .expr (.slice c.range (expr array) (expr start) stop step)
    | _ => throw .missingParts
  | .cond =>
    demandType c ["conditional"]
    match c.members with
    | ⟨condition, _⟩ :: ⟨consequence, _⟩ :: rest =>
      let alternative :=
        match rest with
        | ⟨alternative, _⟩ :: _ => some (expr alternative)
        | [] => none
      return .expr (.cond c.range (expr condition) (expr consequence) alternative)
    | _ => throw .missingParts
  | .unknown => return .expr (.unknown c.range)
  | .malformed => return .expr (.malformed c.range c.type)
  | .misplaced => return .expr (.misplaced c.range c.type)
termination_by 8 * c.weight + 1

/-- A variable with its value, or with the parameters and body of its function. -/
def bind (c : Cursor) : Result LocalBind := do
  demandType c ["bind"]
  match c.withRole "function" with
  | name :: _ =>
    match (c.withRole "body").filter (!·.1.isComment) with
    | ⟨body, _⟩ :: _ =>
      let params ←
        match c.withRole "params" with
        | ⟨params, _⟩ :: _ => params.members.mapM fun ⟨d, _⟩ => param d
        | [] => pure []
      return ⟨c.range, ← ident name.1, .fn c.range params (expr body)⟩
    | [] => throw .missingParts
  | [] =>
    match c.members with
    | id :: ⟨value, _⟩ :: _ => return ⟨c.range, ← ident id.1, expr value⟩
    | _ => throw .missingParts
termination_by 8 * c.weight

/-- A parameter with an optional default. -/
def param (c : Cursor) : Result Param := do
  demandType c ["param"]
  match c.members with
  | [id] => return ⟨c.range, ← ident id.1, none⟩
  | [id, ⟨default, _⟩] => return ⟨c.range, ← ident id.1, some (expr default)⟩
  | _ => throw .wrongCount
termination_by 8 * c.weight

/-- An argument with a name. -/
def namedArg (c : Cursor) : Result Arg := do
  demandType c ["named_argument"]
  match c.members with
  | [name, ⟨value, _⟩] => return ⟨c.range, expr value, some (← ident name.1)⟩
  | _ => throw .missingParts
termination_by 8 * c.weight

/-- An argument with or without a name. -/
def arg (c : Cursor) : Result Arg :=
  if c.type = "named_argument" then namedArg c else pure ⟨c.range, expr c, none⟩
termination_by 8 * c.weight + 5

/-- A variable and the array it runs through. -/
def forSpec (c : Cursor) : Result ForSpec := do
  demandType c ["forspec"]
  match c.members with
  | [id, ⟨source, _⟩] => return ⟨c.range, ← ident id.1, expr source⟩
  | _ => throw .missingParts
termination_by 8 * c.weight

/-- A condition on the variables before it. -/
def ifSpec (c : Cursor) : Result IfSpec := do
  demandType c ["ifspec"]
  match c.members with
  | [⟨condition, _⟩] => return ⟨c.range, expr condition⟩
  | _ => throw .missingParts
termination_by 8 * c.weight

/-- A further clause of a comprehension. -/
def compSpec (c : Cursor) : Result CompSpec := do
  if c.type = "forspec" then return .forSpec (← forSpec c) else return .ifSpec (← ifSpec c)
termination_by 8 * c.weight + 1

/-- A condition with an optional message. -/
def assertion (c : Cursor) : Result Assertion := do
  demandType c ["assert"]
  match c.members with
  | [⟨condition, _⟩] => return ⟨c.range, expr condition, none⟩
  | [⟨condition, _⟩, ⟨message, _⟩] => return ⟨c.range, expr condition, some (expr message)⟩
  | _ => throw .wrongCount
termination_by 8 * c.weight

/-- The key of a field: an expression in brackets, a name, or a string. -/
def key (c : Cursor) : Result FieldKey := do
  demandType c ["fieldname"]
  match c.items with
  | [] => throw .missingParts
  | head :: rest =>
    if (← demandText head.1) = "[" then
      match rest with
      | ⟨e, _⟩ :: _ => return .computed c.range (expr e)
      | [] => throw .missingParts
    else if head.1.type = "id" then return .fixed c.range (← ident head.1)
    else return .fixed c.range ⟨head.1.range, ← string head.1⟩
termination_by 8 * c.weight

/-- A field with a value, or with the parameters and body of its function. -/
def field (c : Cursor) : Result Field := do
  demandType c ["field"]
  if (c.withRole "function").isEmpty then
    match c.items with
    | ⟨name, _⟩ :: mark :: rest =>
      if mark.1.tree.text = some "+" then
        match rest with
        | mark :: ⟨value, _⟩ :: _ =>
          let mark ← demandText mark.1
          let key ← key name
          return ⟨c.range, key, expr value, ← visibility mark, true⟩
        | _ => throw .missingParts
      else
        let mark ← demandText mark.1
        match rest with
        | ⟨value, _⟩ :: _ =>
          let key ← key name
          return ⟨c.range, key, expr value, ← visibility mark, false⟩
        | [] => throw .missingParts
    | _ => throw .missingParts
  else
    match c.items with
    | ⟨name, _⟩ :: opening :: ⟨third, _⟩ :: rest =>
      let finish (params : List Param) (mark : String) (body : Expr) : Result Field := do
        let range ← merge opening.1.range body.range
        let key ← key name
        return ⟨c.range, key, .fn range params body, ← visibility mark, false⟩
      if third.type = "params" then
        match rest with
        | _ :: mark :: ⟨body, _⟩ :: _ =>
          let params ← third.members.mapM fun ⟨d, _⟩ => param d
          finish params (← demandText mark.1) (expr body)
        | _ => throw .missingParts
      else
        match rest with
        | mark :: ⟨body, _⟩ :: _ => finish [] (← demandText mark.1) (expr body)
        | _ => throw .missingParts
    | _ => throw .missingParts
termination_by 8 * c.weight

/-- The bind of an object local: what follows the keyword. -/
def objectLocal (c : Cursor) : Result LocalBind :=
  match c.members with
  | _ :: ⟨d, _⟩ :: _ => bind d
  | _ => throw .missingParts
termination_by 8 * c.weight

/-- A member of an object. Members of other types are passed over. -/
def objectMember (c : Cursor) : Result ObjectMember := do
  demandType c ["member"]
  match c.members with
  | [] => throw .missingParts
  | ⟨head, _⟩ :: _ =>
    match head.type with
    | "objlocal" => return .bind (← objectLocal head)
    | "assert" => return .assertion (← assertion head)
    | "field" => return .field (← field head)
    | _ => return .other
termination_by 8 * c.weight

/-- An object comprehension: one field with a computed key, locals, assertions, a
    leading clause and at most one row of further clauses. -/
def objComp (c : Cursor) : Result Expr := do
  demandType c ["object"]
  let fields : List Field ← (partsOfType c "field").mapM fun ⟨d, _⟩ => field d
  match fields with
  | [comprehended@⟨_, .computed _ _, _, _, _⟩] =>
    let clauses ← (c.members.filter (·.1.type = "forspec")).mapM fun ⟨d, _⟩ => forSpec d
    match clauses with
    | [clause] =>
      let rows := c.members.filter (·.1.type = "compspec")
      if 1 < rows.length then throw .wrongCount
      let binds ← (partsOfType c "objlocal").mapM fun ⟨d, _⟩ => objectLocal d
      let assertions ← (partsOfType c "assert").mapM fun ⟨d, _⟩ => assertion d
      let rows ← rows.mapM fun ⟨d, _⟩ => d.members.mapM fun ⟨s, _⟩ => compSpec s
      return .objComp c.range comprehended binds assertions clause rows.flatten
    | _ => throw .comprehensionClause
  | _ => throw .comprehensionField
termination_by 8 * c.weight

end

/-- A node read as a member of the given class. -/
def asClass (cls : NodeClass) (c : Cursor) : Result Node :=
  match cls with
  | .any => pure (node c)
  | .expr => pure (.expr (expr c))
  | .fieldKey => return .key (← key c)
  | .only .arg => return .arg (← arg c)
  | .only kind => asKind kind c

/-- What stands between parentheses. -/
def insideParentheses (c : Cursor) : Result Node :=
  match c.members with
  | inner :: _ => pure (node inner.1)
  | [] => throw .emptyParentheses

end Build

end JsonnetNav
