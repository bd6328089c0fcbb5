import StackCode.Syntax.Location
import StackCode.Syntax.Ty

/-! # Syntax trees

Analysed programs: every expression carries its type and every node its location. Scopes are
explicit, so only the storage of each name is left to be chosen.
-/

namespace StackCode

inductive BinaryOp where
  | add
  | sub
  | mul
  | div
  | mod
  | eq
  | ne
  | lt
  | le
  | gt
  | ge
  | and
  | or
deriving DecidableEq, Repr

namespace BinaryOp

def text : BinaryOp → String
  | add => "+"
  | sub => "-"
  | mul => "*"
  | div => "/"
  | mod => "%"
  | eq => "=="
  | ne => "!="
  | lt => "<"
  | le => "<="
  | gt => ">"
  | ge => ">="
  | and => "&&"
  | or => "||"

/-- Whether the result has the type of the left operand. -/
def isArithmetic : BinaryOp → Bool
  | add | sub | mul | div | mod => true
  | _ => false

end BinaryOp

inductive UnaryOp where
  | neg
  | not
deriving DecidableEq, Repr

inductive Literal where
  | int (n : Int64)
  | bool (b : Bool)
  | string (s : String)
  | none
deriving DecidableEq

structure Param where
  name : String
  ty : Ty
deriving DecidableEq

structure CaseDecl where
  name : String
  values : List Ty
deriving DecidableEq

structure EnumDecl where
  name : String
  cases : List CaseDecl
  loc : Location
deriving DecidableEq

mutual

structure Expr where
  kind : ExprKind
  ty : Ty
  loc : Location

inductive ExprKind where
  | literal (value : Literal)
  | var (name : String)
  | selfRef
  | unary (op : UnaryOp) (operand : Expr)
  | binary (left : Expr) (op : BinaryOp) (right : Expr)
  | assign (target value : Expr)
  | call (callee : Expr) (args : List Argument)
  | member (receiver : Expr) (name : String)
  | subscript (receiver index : Expr)
  /-- A function literal; a name makes it visible to its own body. -/
  | func (decl : FuncDecl)
  | ite (cond thenBranch elseBranch : Expr)
  | array (elements : List Expr)
  | dictionary (entries : List Entry)

structure Entry where
  key : Expr
  value : Expr

structure Argument where
  label : Option String
  value : Expr

structure Stmt where
  kind : StmtKind
  loc : Location

inductive StmtKind where
  | expr (e : Expr)
  | bind (name : String) (mutable : Bool) (ty : Ty) (value : Option Expr)
  | func (decl : FuncDecl)
  | struct (decl : StructDecl)
  | enum (decl : EnumDecl)
  | ite (cond : Expr) (thenBranch : List Stmt) (elseBranch : Option (List Stmt))
  | loop (cond : Expr) (body : List Stmt)
  | ret (value : Option Expr)
  | break
  | continue
  | block (body : List Stmt)
  | cases (subject : Expr) (arms : List Arm) (elseBranch : Option (List Stmt))

structure Arm where
  pattern : Pattern
  body : List Stmt
  loc : Location

inductive Pattern where
  | wildcard
  | binding (name : String)
  | case (name : String) (values : List Pattern)
  | value (e : Expr)

structure FuncDecl where
  name : Option String
  params : List Param
  returns : Ty
  body : List Stmt
  loc : Location

structure PropertyDecl where
  name : String
  ty : Ty
  mutable : Bool
  /-- The value that a new instance gets before its initializer runs. -/
  default : Option Expr

structure StructDecl where
  name : String
  properties : List PropertyDecl
  init : Option FuncDecl
  methods : List FuncDecl
  loc : Location

end

structure SourceFile where
  path : String
  stmts : List Stmt

namespace Pattern

mutual

/-- The names that a pattern binds, in the order in which it binds them. -/
def bindings : Pattern → List String
  | wildcard => []
  | binding name => [name]
  | case _ values => bindingsOf values
  | value _ => []

def bindingsOf : List Pattern → List String
  | [] => []
  | p :: ps => p.bindings ++ bindingsOf ps

end

end Pattern

namespace FuncDecl

def ty (decl : FuncDecl) : Ty := .function (decl.params.map (·.ty)) decl.returns

end FuncDecl

end StackCode
