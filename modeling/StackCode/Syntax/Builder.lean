import StackCode.Syntax.Tree

/-! # Building trees

Shorthands for trees whose types follow from their parts. An expression built here has no location
until `at` gives it one.
-/

namespace StackCode

namespace Expr

def «at» (e : Expr) (line : UInt32) : Expr := { e with loc := .startOf line }

def typed (e : Expr) (ty : Ty) : Expr := { e with ty }

/-- An expression of a given kind and type that stands nowhere yet. -/
def ofKind (kind : ExprKind) (ty : Ty) : Expr := ⟨kind, ty, .synthesized⟩

def int (n : Int64) : Expr := ofKind (.literal (.int n)) .int

def bool (b : Bool) : Expr := ofKind (.literal (.bool b)) .bool

def string (s : String) : Expr := ofKind (.literal (.string s)) .string

def none : Expr := ofKind (.literal .none) .none

def var (name : String) : Expr := ofKind (.var name) .any

/-- The receiver inside a method of the named struct. -/
def selfRef (owner : String) : Expr := ofKind .selfRef (.struct owner)

def unary (op : UnaryOp) (operand : Expr) : Expr :=
  ofKind (.unary op operand) <| match op with
    | .neg => .int
    | .not => .bool

def binary (left : Expr) (op : BinaryOp) (right : Expr) : Expr :=
  ofKind (.binary left op right) (if op.isArithmetic then left.ty else .bool)

def assign (target value : Expr) : Expr := ofKind (.assign target value) value.ty

def call (callee : Expr) (args : List Argument) : Expr :=
  ofKind (.call callee args) <| match callee.ty with
    | .function _ returns => returns
    | _ => .any

def member (receiver : Expr) (name : String) : Expr := ofKind (.member receiver name) .any

def methodCall (receiver : Expr) (name : String) (args : List Argument) : Expr :=
  call (member receiver name) args

def subscript (receiver index : Expr) : Expr :=
  ofKind (.subscript receiver index) <| match receiver.ty with
    | .array element => element
    | .dictionary _ value => value
    | _ => .any

def func (decl : FuncDecl) : Expr := ofKind (.func decl) decl.ty

def ite (cond thenBranch elseBranch : Expr) : Expr :=
  ofKind (.ite cond thenBranch elseBranch) thenBranch.ty

def array (elements : List Expr) : Expr :=
  ofKind (.array elements) <| .array <| match elements with
    | e :: _ => e.ty
    | [] => .any

def dictionary (entries : List Entry) : Expr :=
  ofKind (.dictionary entries) <| match entries with
    | e :: _ => .dictionary e.key.ty e.value.ty
    | [] => .dictionary .any .any

end Expr

namespace Argument

def positional (value : Expr) : Argument := ⟨none, value⟩

def labelled (label : String) (value : Expr) : Argument := ⟨some label, value⟩

end Argument

namespace FuncDecl

def named (name : String) (params : List Param) (body : List Stmt) : FuncDecl :=
  ⟨some name, params, .any, body, .synthesized⟩

def anonymous (params : List Param) (body : List Stmt) : FuncDecl :=
  ⟨none, params, .any, body, .synthesized⟩

def returning (decl : FuncDecl) (ty : Ty) : FuncDecl := { decl with returns := ty }

def «at» (decl : FuncDecl) (line : UInt32) : FuncDecl := { decl with loc := .startOf line }

end FuncDecl

namespace PropertyDecl

def plain (name : String) (ty : Ty) : PropertyDecl := ⟨name, ty, true, none⟩

def withDefault (decl : PropertyDecl) (value : Expr) : PropertyDecl :=
  { decl with default := some value }

end PropertyDecl

namespace StructDecl

def plain (name : String) (properties : List PropertyDecl) : StructDecl :=
  ⟨name, properties, none, [], .synthesized⟩

def withInit (decl : StructDecl) (init : FuncDecl) : StructDecl := { decl with init := some init }

def withMethod (decl : StructDecl) (method : FuncDecl) : StructDecl :=
  { decl with methods := decl.methods ++ [method] }

end StructDecl

namespace EnumDecl

def plain (name : String) (cases : List String) : EnumDecl :=
  ⟨name, cases.map (⟨·, []⟩), .synthesized⟩

def withCase (decl : EnumDecl) (name : String) (values : List Ty) : EnumDecl :=
  { decl with cases := decl.cases ++ [⟨name, values⟩] }

end EnumDecl

namespace Stmt

def «at» (s : Stmt) (line : UInt32) : Stmt := { s with loc := .startOf line }

def expr (e : Expr) : Stmt := ⟨.expr e, e.loc⟩

def «let» (name : String) (value : Expr) : Stmt :=
  ⟨.bind name false value.ty (some value), value.loc⟩

def var (name : String) (value : Expr) : Stmt :=
  ⟨.bind name true value.ty (some value), value.loc⟩

def ret (value : Expr) : Stmt := ⟨.ret (some value), value.loc⟩

def retNone : Stmt := ⟨.ret none, .synthesized⟩

def func (decl : FuncDecl) : Stmt := ⟨.func decl, decl.loc⟩

def struct (decl : StructDecl) : Stmt := ⟨.struct decl, decl.loc⟩

def enum (decl : EnumDecl) : Stmt := ⟨.enum decl, decl.loc⟩

def ite (cond : Expr) (thenBranch : List Stmt) (elseBranch : Option (List Stmt)) : Stmt :=
  ⟨.ite cond thenBranch elseBranch, cond.loc⟩

def loop (cond : Expr) (body : List Stmt) : Stmt := ⟨.loop cond body, cond.loc⟩

def block (body : List Stmt) : Stmt := ⟨.block body, .synthesized⟩

def cases (subject : Expr) (arms : List Arm) (elseBranch : Option (List Stmt)) : Stmt :=
  ⟨.cases subject arms elseBranch, subject.loc⟩

end Stmt

namespace Arm

def plain (pattern : Pattern) (body : List Stmt) : Arm := ⟨pattern, body, .synthesized⟩

end Arm

end StackCode
