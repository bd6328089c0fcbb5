import StackCode.Json.Field
import StackCode.Syntax.Tree

/-! # Trees from JSON

A record is an object, in which fields that the tree does not know are ignored, or an array of its
fields in order. Alternatives are written by their tag; how the fields of an alternative may be
written is left to the reader of the whole. Types default to `none` and locations to `0:0`.
-/

namespace StackCode

open Json

namespace Location

def ofJson? (j : Json) : Option Location := do
  let [line, column] ← j.record? .listed ["line", "column"] | none
  return ⟨← required line fun v _ => v.uint32?, ← defaulted column 0 fun v _ => v.uint32?⟩

end Location

namespace Ty

def ofBareTag? : String → Option Ty
  | "int" => some .int
  | "bool" => some .bool
  | "string" => some .string
  | "pointer" => some .pointer
  | "none" => some .none
  | "any" => some .any
  | _ => Option.none

def read? (form : RecordForm) (j : Json) : Option Ty :=
  match j.variant? with
  | some ("function", some ⟨v, _⟩) => do
    let [params, returns] ← v.record? form ["params", "returns"] | Option.none
    let params ← required params fun v _ => v.list fun v _ => read? form v
    let returns ← required returns fun v _ => read? form v
    return .function params returns
  | some ("struct", some ⟨v, _⟩) => v.str?.map .struct
  | some ("enum", some ⟨v, _⟩) => v.str?.map .enum
  | some ("array", some ⟨v, _⟩) => (read? form v).map .array
  | some ("dictionary", some ⟨v, _⟩) =>
    match v.items? with
    | some [⟨key, _⟩, ⟨value, _⟩] => do return .dictionary (← read? form key) (← read? form value)
    | _ => Option.none
  | some _ => j.bareTag?.bind ofBareTag?
  | Option.none => Option.none
termination_by j
decreasing_by all_goals omega

end Ty

namespace BinaryOp

def ofTag? : String → Option BinaryOp
  | "add" => some .add
  | "sub" => some .sub
  | "mul" => some .mul
  | "div" => some .div
  | "mod" => some .mod
  | "eq" => some .eq
  | "ne" => some .ne
  | "lt" => some .lt
  | "le" => some .le
  | "gt" => some .gt
  | "ge" => some .ge
  | "and" => some .and
  | "or" => some .or
  | _ => none

def ofJson? (j : Json) : Option BinaryOp := j.bareTag?.bind ofTag?

end BinaryOp

namespace UnaryOp

def ofTag? : String → Option UnaryOp
  | "neg" => some .neg
  | "not" => some .not
  | _ => none

def ofJson? (j : Json) : Option UnaryOp := j.bareTag?.bind ofTag?

end UnaryOp

namespace Literal

def ofJson? (j : Json) : Option Literal :=
  match j.variant? with
  | some ("int", some ⟨v, _⟩) => v.int64?.map .int
  | some ("bool", some ⟨v, _⟩) => v.bool?.map .bool
  | some ("string", some ⟨v, _⟩) => v.str?.map .string
  | some ("none", _) => j.bareTag?.map fun _ => .none
  | _ => Option.none

end Literal

namespace Param

def read? (form : RecordForm) (j : Json) : Option Param := do
  let [name, ty] ← j.record? .listed ["name", "ty"] | none
  return ⟨← required name fun v _ => v.str?, ← defaulted ty .none fun v _ => Ty.read? form v⟩

end Param

namespace CaseDecl

/-- A case without values may be written by its name alone. In the types of its values, alternatives
may have any form. -/
def ofJson? : Json → Option CaseDecl
  | str name => some ⟨name, []⟩
  | j => do
    let [name, values] ← j.record? .named ["name", "values"] | none
    let name ← required name fun v _ => v.str?
    return ⟨name, ← defaulted values [] fun v _ => v.list fun v _ => Ty.read? .listed v⟩

end CaseDecl

namespace EnumDecl

def ofJson? (j : Json) : Option EnumDecl := do
  let [name, cases, loc] ← j.record? .listed ["name", "cases", "loc"] | none
  let name ← required name fun v _ => v.str?
  let cases ← required cases fun v _ => v.list fun v _ => CaseDecl.ofJson? v
  return ⟨name, cases, ← defaulted loc .synthesized fun v _ => Location.ofJson? v⟩

end EnumDecl

mutual

def Expr.read? (form : RecordForm) (j : Json) : Option Expr := do
  let [kind, ty, loc] ← j.record? .listed ["kind", "ty", "loc"] | none
  let kind ← required kind fun v _ => ExprKind.read? form v
  let ty ← defaulted ty .none fun v _ => Ty.read? form v
  return ⟨kind, ty, ← defaulted loc .synthesized fun v _ => Location.ofJson? v⟩
termination_by j
decreasing_by all_goals omega

def ExprKind.read? (form : RecordForm) (j : Json) : Option ExprKind :=
  match j.variant? with
  | some ("literal", some ⟨v, _⟩) => (Literal.ofJson? v).map .literal
  | some ("var", some ⟨v, _⟩) => v.str?.map .var
  | some ("self_ref", _) => j.bareTag?.map fun _ => .selfRef
  | some ("unary", some ⟨v, _⟩) => do
    let [op, operand] ← v.record? form ["op", "expr"] | none
    let op ← required op fun v _ => UnaryOp.ofJson? v
    return .unary op (← required operand fun v _ => Expr.read? form v)
  | some ("binary", some ⟨v, _⟩) => do
    let [left, op, right] ← v.record? form ["left", "op", "right"] | none
    let left ← required left fun v _ => Expr.read? form v
    let op ← required op fun v _ => BinaryOp.ofJson? v
    return .binary left op (← required right fun v _ => Expr.read? form v)
  | some ("assign", some ⟨v, _⟩) => do
    let [target, value] ← v.record? form ["target", "value"] | none
    let target ← required target fun v _ => Expr.read? form v
    return .assign target (← required value fun v _ => Expr.read? form v)
  | some ("call", some ⟨v, _⟩) => do
    let [callee, args] ← v.record? form ["callee", "args"] | none
    let callee ← required callee fun v _ => Expr.read? form v
    return .call callee (← required args fun v _ => v.list fun v _ => Argument.read? form v)
  | some ("member", some ⟨v, _⟩) => do
    let [receiver, name] ← v.record? form ["receiver", "name"] | none
    let receiver ← required receiver fun v _ => Expr.read? form v
    return .member receiver (← required name fun v _ => v.str?)
  | some ("subscript", some ⟨v, _⟩) => do
    let [receiver, index] ← v.record? form ["receiver", "index"] | none
    let receiver ← required receiver fun v _ => Expr.read? form v
    return .subscript receiver (← required index fun v _ => Expr.read? form v)
  | some ("func", some ⟨v, _⟩) => (FuncDecl.read? form v).map .func
  | some ("if", some ⟨v, _⟩) => do
    let [cond, thenBranch, elseBranch] ←
      v.record? form ["cond", "then_branch", "else_branch"] | none
    let cond ← required cond fun v _ => Expr.read? form v
    let thenBranch ← required thenBranch fun v _ => Expr.read? form v
    return .ite cond thenBranch (← required elseBranch fun v _ => Expr.read? form v)
  | some ("array", some ⟨v, _⟩) => (v.list fun v _ => Expr.read? form v).map .array
  | some ("dictionary", some ⟨v, _⟩) => (v.list fun v _ => Entry.read? form v).map .dictionary
  | _ => none
termination_by j
decreasing_by all_goals omega

def Entry.read? (form : RecordForm) (j : Json) : Option Entry :=
  match j.items? with
  | some [⟨key, _⟩, ⟨value, _⟩] => do return ⟨← Expr.read? form key, ← Expr.read? form value⟩
  | _ => none
termination_by j
decreasing_by all_goals omega

def Argument.read? (form : RecordForm) (j : Json) : Option Argument := do
  let [label, value] ← j.record? .listed ["label", "value"] | none
  let label ← optional label fun v _ => v.str?
  return ⟨label, ← required value fun v _ => Expr.read? form v⟩
termination_by j
decreasing_by all_goals omega

def Stmt.read? (form : RecordForm) (j : Json) : Option Stmt := do
  let [kind, loc] ← j.record? .listed ["kind", "loc"] | none
  let kind ← required kind fun v _ => StmtKind.read? form v
  return ⟨kind, ← defaulted loc .synthesized fun v _ => Location.ofJson? v⟩
termination_by j
decreasing_by all_goals omega

def StmtKind.read? (form : RecordForm) (j : Json) : Option StmtKind :=
  match j.variant? with
  | some ("expr", some ⟨v, _⟩) => (Expr.read? form v).map .expr
  | some ("let", some ⟨v, _⟩) => do
    let [name, mutable, ty, value] ← v.record? form ["name", "mutable", "ty", "value"] | none
    let name ← required name fun v _ => v.str?
    let mutable ← defaulted mutable false fun v _ => v.bool?
    let ty ← defaulted ty .none fun v _ => Ty.read? form v
    return .bind name mutable ty (← optional value fun v _ => Expr.read? form v)
  | some ("func", some ⟨v, _⟩) => (FuncDecl.read? form v).map .func
  | some ("struct", some ⟨v, _⟩) => (StructDecl.read? form v).map .struct
  | some ("enum", some ⟨v, _⟩) => (EnumDecl.ofJson? v).map .enum
  | some ("if", some ⟨v, _⟩) => do
    let [cond, thenBranch, elseBranch] ←
      v.record? form ["cond", "then_branch", "else_branch"] | none
    let cond ← required cond fun v _ => Expr.read? form v
    let thenBranch ← required thenBranch fun v _ => Stmt.readBlock? form v
    return .ite cond thenBranch (← optional elseBranch fun v _ => Stmt.readBlock? form v)
  | some ("while", some ⟨v, _⟩) => do
    let [cond, body] ← v.record? form ["cond", "body"] | none
    let cond ← required cond fun v _ => Expr.read? form v
    return .loop cond (← required body fun v _ => Stmt.readBlock? form v)
  | some ("return", some ⟨v, h⟩) => (nullable v h fun v _ => Expr.read? form v).map .ret
  | some ("break", _) => j.bareTag?.map fun _ => .break
  | some ("continue", _) => j.bareTag?.map fun _ => .continue
  | some ("block", some ⟨v, _⟩) => (Stmt.readBlock? form v).map .block
  | some ("match", some ⟨v, _⟩) => do
    let [subject, arms, elseBranch] ← v.record? form ["subject", "cases", "else_branch"] | none
    let subject ← required subject fun v _ => Expr.read? form v
    let arms ← required arms fun v _ => v.list fun v _ => Arm.read? form v
    return .cases subject arms (← optional elseBranch fun v _ => Stmt.readBlock? form v)
  | _ => none
termination_by j
decreasing_by all_goals omega

/-- A block is a record with its statements. -/
def Stmt.readBlock? (form : RecordForm) (j : Json) : Option (List Stmt) := do
  let [stmts] ← j.record? .listed ["stmts"] | none
  required stmts fun v _ => v.list fun v _ => Stmt.read? form v
termination_by j
decreasing_by all_goals omega

def Arm.read? (form : RecordForm) (j : Json) : Option Arm := do
  let [pattern, body, loc] ← j.record? .listed ["pattern", "body", "loc"] | none
  let pattern ← required pattern fun v _ => Pattern.read? form v
  let body ← required body fun v _ => Stmt.readBlock? form v
  return ⟨pattern, body, ← defaulted loc .synthesized fun v _ => Location.ofJson? v⟩
termination_by j
decreasing_by all_goals omega

def Pattern.read? (form : RecordForm) (j : Json) : Option Pattern :=
  match j.variant? with
  | some ("wildcard", _) => j.bareTag?.map fun _ => .wildcard
  | some ("binding", some ⟨v, _⟩) => v.str?.map .binding
  | some ("case", some ⟨v, _⟩) => do
    let [name, values] ← v.record? form ["name", "values"] | none
    let name ← required name fun v _ => v.str?
    return .case name (← defaulted values [] fun v _ => v.list fun v _ => Pattern.read? form v)
  | some ("value", some ⟨v, _⟩) => (Expr.read? form v).map .value
  | _ => none
termination_by j
decreasing_by all_goals omega

def FuncDecl.read? (form : RecordForm) (j : Json) : Option FuncDecl := do
  let [name, params, returns, body, loc] ←
    j.record? .listed ["name", "params", "returns", "body", "loc"] | none
  let name ← optional name fun v _ => v.str?
  let params ← defaulted params [] fun v _ => v.list fun v _ => Param.read? form v
  let returns ← defaulted returns .none fun v _ => Ty.read? form v
  let body ← required body fun v _ => Stmt.readBlock? form v
  return ⟨name, params, returns, body, ← defaulted loc .synthesized fun v _ => Location.ofJson? v⟩
termination_by j
decreasing_by all_goals omega

def PropertyDecl.read? (form : RecordForm) (j : Json) : Option PropertyDecl := do
  let [name, ty, mutable, default] ← j.record? .listed ["name", "ty", "mutable", "default"] | none
  let name ← required name fun v _ => v.str?
  let ty ← defaulted ty .none fun v _ => Ty.read? form v
  let mutable ← defaulted mutable false fun v _ => v.bool?
  return ⟨name, ty, mutable, ← optional default fun v _ => Expr.read? form v⟩
termination_by j
decreasing_by all_goals omega

def StructDecl.read? (form : RecordForm) (j : Json) : Option StructDecl := do
  let [name, properties, init, methods, loc] ←
    j.record? .listed ["name", "properties", "init", "methods", "loc"] | none
  let name ← required name fun v _ => v.str?
  let properties ← defaulted properties [] fun v _ => v.list fun v _ => PropertyDecl.read? form v
  let init ← optional init fun v _ => FuncDecl.read? form v
  let methods ← defaulted methods [] fun v _ => v.list fun v _ => FuncDecl.read? form v
  return ⟨name, properties, init, methods,
    ← defaulted loc .synthesized fun v _ => Location.ofJson? v⟩
termination_by j
decreasing_by all_goals omega

end

namespace SourceFile

def read? (form : RecordForm) (j : Json) : Option SourceFile := do
  let [path, stmts] ← j.record? .listed ["path", "stmts"] | none
  let path ← required path fun v _ => v.str?
  return ⟨path, ← required stmts fun v _ => v.list fun v _ => Stmt.read? form v⟩

end SourceFile

def Ty.ofJson? : Json → Option Ty := Ty.read? .named

def Expr.ofJson? : Json → Option Expr := Expr.read? .named

def Stmt.ofJson? : Json → Option Stmt := Stmt.read? .named

def Pattern.ofJson? : Json → Option Pattern := Pattern.read? .named

def FuncDecl.ofJson? : Json → Option FuncDecl := FuncDecl.read? .named

def StructDecl.ofJson? : Json → Option StructDecl := StructDecl.read? .named

def SourceFile.ofJson? : Json → Option SourceFile := SourceFile.read? .named

end StackCode
