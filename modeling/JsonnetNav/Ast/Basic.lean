import JsonnetNav.Position
import JsonnetNav.Text.Basic
import JsonnetNav.Number.Binary64

/-! # Abstract syntax

Expressions of the language with the parts that are no expressions themselves:
binds, parameters, arguments, comprehension clauses, assertions and fields. Every
node has a range; the uri of the document is kept outside of the tree.
-/

namespace JsonnetNav

/-- A name where it is written. -/
structure Ident where
  range : Range
  name : Text
  deriving Repr, DecidableEq

/-- The operators of unary and binary expressions. -/
inductive Operator where
  | multiply | divide | modulus
  | plus | minus
  | shiftLeft | shiftRight
  | lt | le | gt | ge | isIn
  | eq | notEq
  | bitAnd | bitXor | bitOr
  | and | or
  deriving Repr, DecidableEq

namespace Operator

/-- How the operator is written. -/
def text : Operator → String
  | multiply => "*" | divide => "/" | modulus => "%"
  | plus => "+" | minus => "-"
  | shiftLeft => "<<" | shiftRight => ">>"
  | lt => "<" | le => "<=" | gt => ">" | ge => ">=" | isIn => "in"
  | eq => "==" | notEq => "!="
  | bitAnd => "&" | bitXor => "^" | bitOr => "|"
  | and => "&&" | or => "||"

def all : List Operator :=
  [multiply, divide, modulus, plus, minus, shiftLeft, shiftRight, lt, le, gt, ge, isIn, eq, notEq,
    bitAnd, bitXor, bitOr, and, or]

/-- The operator written like this. -/
def ofText? (text : String) : Option Operator :=
  all.find? (·.text = text)

end Operator

/-- How a field takes part in the output of its object. -/
inductive Visibility where
  | default | hidden | forced
  deriving Repr, DecidableEq

namespace Visibility

def text : Visibility → String
  | default => ":" | hidden => "::" | forced => ":::"

def ofText? (text : String) : Option Visibility :=
  [default, hidden, forced].find? (·.text = text)

end Visibility

/-- What an import stands for: the value, the text or the bytes of a file. -/
inductive ImportKind where
  | value | text | bytes
  deriving Repr, DecidableEq

namespace ImportKind

def keyword : ImportKind → String
  | value => "import" | text => "importstr" | bytes => "importbin"

end ImportKind

/-- The path of an imported file as it is written. -/
structure Importee where
  range : Range
  value : Text
  deriving Repr, DecidableEq

mutual

/-- An expression. -/
inductive Expr where
  | null (range : Range)
  | dollar (range : Range)
  | self (range : Range)
  | super (range : Range)
  | document (range : Range) (body : Expr)
  | ref (id : Ident)
  | num (range : Range) (value : Binary64)
  | str (range : Range) (value : Text)
  | bool (range : Range) (value : Bool)
  | array (range : Range) (values : List Expr)
  | unary (range : Range) (op : Operator) (operand : Expr)
  | binary (range : Range) (op : Operator) (lhs rhs : Expr)
  | localIn (range : Range) (binds : List LocalBind) (body : Expr)
  | fn (range : Range) (params : List Param) (body : Expr)
  | call (range : Range) (callee : Expr) (args : List Arg)
  | listComp (range : Range) (element : Expr) (clause : ForSpec) (clauses : List CompSpec)
  | importFile (range : Range) (kind : ImportKind) (importee : Importee)
  | assertIn (range : Range) (assertion : Assertion) (body : Expr)
  | object (range : Range) (binds : List LocalBind) (assertions : List Assertion)
      (fields : List Field)
  | objComp (range : Range) (field : Field) (binds : List LocalBind) (assertions : List Assertion)
      (clause : ForSpec) (clauses : List CompSpec)
  | fieldAccess (range : Range) (obj : Expr) (field : Ident)
  | slice (range : Range) (array start : Expr) (stop step : Option Expr)
  | cond (range : Range) (condition consequence : Expr) (alternative : Option Expr)
  /-- A node of a type that has no meaning as an expression. -/
  | unknown (range : Range)
  /-- A node whose parts are not as its type demands. -/
  | malformed (range : Range) (type : String)
  /-- A well-formed node that is no expression, where one is expected. -/
  | misplaced (range : Range) (type : String)

/-- A local variable and its value. A function bind has a function as its value. -/
structure LocalBind where
  range : Range
  id : Ident
  value : Expr

/-- A parameter of a function. -/
structure Param where
  range : Range
  id : Ident
  default : Option Expr

/-- An argument of a call, named or by position. -/
structure Arg where
  range : Range
  value : Expr
  name : Option Ident

/-- A comprehension clause that runs a variable through an array. -/
structure ForSpec where
  range : Range
  id : Ident
  source : Expr

/-- A comprehension clause that keeps the cases with a true condition. -/
structure IfSpec where
  range : Range
  condition : Expr

/-- A comprehension clause. -/
inductive CompSpec where
  | forSpec (clause : ForSpec)
  | ifSpec (clause : IfSpec)

/-- An assertion with an optional message. -/
structure Assertion where
  range : Range
  condition : Expr
  message : Option Expr

/-- The name of a field: written out, or computed from an expression. -/
inductive FieldKey where
  | fixed (range : Range) (id : Ident)
  | computed (range : Range) (expr : Expr)

/-- A field of an object. -/
structure Field where
  range : Range
  key : FieldKey
  value : Expr
  visibility : Visibility
  inherited : Bool

end

namespace Expr

/-- The range of an expression. -/
def range : Expr → Range
  | null r | dollar r | self r | super r | document r _ | num r _ | str r _ | bool r _
  | array r _ | unary r _ _ | binary r _ _ _ | localIn r _ _ | fn r _ _ | call r _ _
  | listComp r _ _ _ | importFile r _ _ | assertIn r _ _ | object r _ _ _ | objComp r _ _ _ _ _
  | fieldAccess r _ _ | slice r _ _ _ _ | cond r _ _ _ | unknown r | malformed r _
  | misplaced r _ => r
  | ref id => id.range

end Expr

namespace FieldKey

/-- The range of a field's key. -/
def range : FieldKey → Range
  | fixed r _ | computed r _ => r

/-- The name of a key that is written out. -/
def id? : FieldKey → Option Ident
  | fixed _ id => some id
  | computed _ _ => none

end FieldKey

end JsonnetNav
