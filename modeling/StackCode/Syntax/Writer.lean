import StackCode.Json.Basic
import StackCode.Syntax.Tree

/-! # Trees as JSON

Every field is written: an absent option as `null`, and the cases of an enum in full.
-/

namespace StackCode

namespace Json

def ofOption {α : Type} (write : α → Json) : Option α → Json
  | none => null
  | some a => write a

def bareTag (tag : String) : Json := str tag

def tagged (tag : String) (content : Json) : Json := obj [(tag, content)]

end Json

open Json

namespace Location

def toJson (loc : Location) : Json :=
  obj [("line", int loc.line.toNat), ("column", int loc.column.toNat)]

end Location

namespace Ty

mutual

def toJson : Ty → Json
  | .int => bareTag "int"
  | .bool => bareTag "bool"
  | .string => bareTag "string"
  | .pointer => bareTag "pointer"
  | .none => bareTag "none"
  | .any => bareTag "any"
  | .function params returns =>
    tagged "function" (obj [("params", arr (toJsons params)), ("returns", toJson returns)])
  | .struct name => tagged "struct" (str name)
  | .enum name => tagged "enum" (str name)
  | .array element => tagged "array" (toJson element)
  | .dictionary key value => tagged "dictionary" (arr [toJson key, toJson value])

def toJsons : List Ty → List Json
  | [] => []
  | t :: ts => toJson t :: toJsons ts

end

end Ty

namespace BinaryOp

def tag : BinaryOp → String
  | add => "add"
  | sub => "sub"
  | mul => "mul"
  | div => "div"
  | mod => "mod"
  | eq => "eq"
  | ne => "ne"
  | lt => "lt"
  | le => "le"
  | gt => "gt"
  | ge => "ge"
  | and => "and"
  | or => "or"

end BinaryOp

namespace UnaryOp

def tag : UnaryOp → String
  | neg => "neg"
  | not => "not"

end UnaryOp

namespace Literal

def toJson : Literal → Json
  | .int n => tagged "int" (Json.int n.toInt)
  | .bool b => tagged "bool" (Json.bool b)
  | .string s => tagged "string" (str s)
  | .none => bareTag "none"

end Literal

namespace Param

def toJson (p : Param) : Json := obj [("name", str p.name), ("ty", p.ty.toJson)]

end Param

namespace CaseDecl

def toJson (c : CaseDecl) : Json :=
  obj [("name", str c.name), ("values", arr (Ty.toJsons c.values))]

end CaseDecl

namespace EnumDecl

def toJson (decl : EnumDecl) : Json :=
  obj [("name", str decl.name), ("cases", arr (decl.cases.map CaseDecl.toJson)),
    ("loc", decl.loc.toJson)]

end EnumDecl

mutual

def Expr.toJson : Expr → Json
  | ⟨kind, ty, loc⟩ => obj [("kind", kind.toJson), ("ty", ty.toJson), ("loc", loc.toJson)]

def ExprKind.toJson : ExprKind → Json
  | .literal value => tagged "literal" value.toJson
  | .var name => tagged "var" (str name)
  | .selfRef => bareTag "self_ref"
  | .unary op operand =>
    tagged "unary" (obj [("op", bareTag op.tag), ("expr", operand.toJson)])
  | .binary left op right =>
    tagged "binary" (obj [("left", left.toJson), ("op", bareTag op.tag), ("right", right.toJson)])
  | .assign target value =>
    tagged "assign" (obj [("target", target.toJson), ("value", value.toJson)])
  | .call callee args =>
    tagged "call" (obj [("callee", callee.toJson), ("args", arr (Argument.toJsons args))])
  | .member receiver name =>
    tagged "member" (obj [("receiver", receiver.toJson), ("name", str name)])
  | .subscript receiver index =>
    tagged "subscript" (obj [("receiver", receiver.toJson), ("index", index.toJson)])
  | .func decl => tagged "func" decl.toJson
  | .ite cond thenBranch elseBranch =>
    tagged "if" (obj [("cond", cond.toJson), ("then_branch", thenBranch.toJson),
      ("else_branch", elseBranch.toJson)])
  | .array elements => tagged "array" (arr (Expr.toJsons elements))
  | .dictionary entries => tagged "dictionary" (arr (Entry.toJsons entries))

def Expr.toJsons : List Expr → List Json
  | [] => []
  | e :: es => e.toJson :: Expr.toJsons es

def Entry.toJsons : List Entry → List Json
  | [] => []
  | ⟨key, value⟩ :: es => arr [key.toJson, value.toJson] :: Entry.toJsons es

def Argument.toJsons : List Argument → List Json
  | [] => []
  | ⟨label, value⟩ :: args =>
    obj [("label", ofOption str label), ("value", value.toJson)] :: Argument.toJsons args

def Stmt.toJson : Stmt → Json
  | ⟨kind, loc⟩ => obj [("kind", kind.toJson), ("loc", loc.toJson)]

def StmtKind.toJson : StmtKind → Json
  | .expr e => tagged "expr" e.toJson
  | .bind name mutable ty value =>
    tagged "let" (obj [("name", str name), ("mutable", Json.bool mutable), ("ty", ty.toJson),
      ("value", Expr.optionToJson value)])
  | .func decl => tagged "func" decl.toJson
  | .struct decl => tagged "struct" decl.toJson
  | .enum decl => tagged "enum" decl.toJson
  | .ite cond thenBranch elseBranch =>
    tagged "if" (obj [("cond", cond.toJson),
      ("then_branch", obj [("stmts", arr (Stmt.toJsons thenBranch))]),
      ("else_branch", Stmt.blockToJson elseBranch)])
  | .loop cond body =>
    tagged "while" (obj [("cond", cond.toJson), ("body", obj [("stmts", arr (Stmt.toJsons body))])])
  | .ret value => tagged "return" (Expr.optionToJson value)
  | .break => bareTag "break"
  | .continue => bareTag "continue"
  | .block body => tagged "block" (obj [("stmts", arr (Stmt.toJsons body))])
  | .cases subject arms elseBranch =>
    tagged "match" (obj [("subject", subject.toJson), ("cases", arr (Arm.toJsons arms)),
      ("else_branch", Stmt.blockToJson elseBranch)])

def Expr.optionToJson : Option Expr → Json
  | none => null
  | some e => e.toJson

/-- A block that may be absent. -/
def Stmt.blockToJson : Option (List Stmt) → Json
  | none => null
  | some body => obj [("stmts", arr (Stmt.toJsons body))]

def Stmt.toJsons : List Stmt → List Json
  | [] => []
  | s :: ss => s.toJson :: Stmt.toJsons ss

def Arm.toJsons : List Arm → List Json
  | [] => []
  | ⟨pattern, body, loc⟩ :: arms =>
    obj [("pattern", pattern.toJson), ("body", obj [("stmts", arr (Stmt.toJsons body))]),
      ("loc", loc.toJson)] :: Arm.toJsons arms

def Pattern.toJson : Pattern → Json
  | .wildcard => bareTag "wildcard"
  | .binding name => tagged "binding" (str name)
  | .case name values =>
    tagged "case" (obj [("name", str name), ("values", arr (Pattern.toJsons values))])
  | .value e => tagged "value" e.toJson

def Pattern.toJsons : List Pattern → List Json
  | [] => []
  | p :: ps => p.toJson :: Pattern.toJsons ps

def FuncDecl.toJson : FuncDecl → Json
  | ⟨name, params, returns, body, loc⟩ =>
    obj [("name", ofOption str name), ("params", arr (params.map Param.toJson)),
      ("returns", returns.toJson), ("body", obj [("stmts", arr (Stmt.toJsons body))]),
      ("loc", loc.toJson)]

def FuncDecl.toJsons : List FuncDecl → List Json
  | [] => []
  | d :: ds => d.toJson :: FuncDecl.toJsons ds

def FuncDecl.optionToJson : Option FuncDecl → Json
  | none => null
  | some d => d.toJson

def PropertyDecl.toJsons : List PropertyDecl → List Json
  | [] => []
  | ⟨name, ty, mutable, default⟩ :: ps =>
    obj [("name", str name), ("ty", ty.toJson), ("mutable", Json.bool mutable),
      ("default", Expr.optionToJson default)] :: PropertyDecl.toJsons ps

def StructDecl.toJson : StructDecl → Json
  | ⟨name, properties, init, methods, loc⟩ =>
    obj [("name", str name), ("properties", arr (PropertyDecl.toJsons properties)),
      ("init", FuncDecl.optionToJson init), ("methods", arr (FuncDecl.toJsons methods)),
      ("loc", loc.toJson)]

end

namespace SourceFile

def toJson (file : SourceFile) : Json :=
  obj [("path", str file.path), ("stmts", arr (Stmt.toJsons file.stmts))]

end SourceFile

end StackCode
