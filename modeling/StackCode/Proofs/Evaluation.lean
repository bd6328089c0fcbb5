import StackCode.Lowering.Compiled
import StackCode.Machine.Arithmetic

/-! # Evaluation of trees without calls

Functions whose bodies compute with literals, parameters and locals only can be evaluated without a
machine: from left to right over the tree, with the variables in scope at hand. A loop may take any
number of rounds, so evaluation is given the number of rounds that every loop is permitted.
-/

namespace StackCode

namespace Evaluation

/-- The variables in scope with their values, the innermost first. -/
abbrev Env := List (String × Value)

inductive Halt where
  | trap (cause : Cause)
  /-- Something was used outside of its domain. -/
  | fault
  /-- A loop was not finished within the permitted number of rounds. -/
  | unfinished
deriving DecidableEq

abbrev Eval := EStateM Halt Env

def Env.assign (name : String) (v : Value) : Env → Env
  | [] => []
  | (x, w) :: env => if x == name then (x, v) :: env else (x, w) :: assign name v env

def ofExcept : Except Cause Value → Eval Value
  | .ok v => pure v
  | .error cause => throw (.trap cause)

def variableOf (name : String) : Eval Value := do
  match (← get).lookup name with
  | some v => return v
  | none => throw .fault

/-- Evaluates a part and forgets the variables that it declares. -/
def inBlock {α : Type} (part : Eval α) : Eval α := do
  let outer := (← get).length
  let a ← part
  modify fun env => env.drop (env.length - outer)
  return a

inductive Signal where
  /-- The next statement follows. -/
  | next
  /-- The innermost loop is left. -/
  | leave
  /-- The innermost loop starts its next round. -/
  | again
  | ret (v : Value)

def Signal.value : Signal → Value
  | .ret v => v
  | _ => .none

def resultOf : EStateM.Result Halt Env Signal → Except Halt Value
  | .ok signal _ => .ok signal.value
  | .error halt _ => .error halt

/-- Repeats a part as long as a test gives a true value. -/
def rounds (test : Eval Value) (body : Eval Signal) : Nat → Eval Signal
  | 0 => throw .unfinished
  | n + 1 => do
    if (← test).isTruthy then
      match ← body with
      | .next | .again => rounds test body n
      | .leave => return .next
      | .ret v => return .ret v
    else return .next

end Evaluation

open Evaluation

namespace Literal

def value : Literal → Value
  | int n => .int n
  | bool b => .bool b
  | string s => .string s
  | none => .none

end Literal

namespace UnaryOp

def apply : UnaryOp → Value → Except Cause Value
  | neg, v => Arithmetic.negate v
  | not, v => .ok (.bool (!v.isTruthy))

end UnaryOp

namespace BinaryOp

/-- The result, if the left operand decides: `and` is false and `or` is true then. -/
def decided? : BinaryOp → Value → Option Value
  | and, a => if a.isTruthy then none else some (.bool false)
  | or, a => if a.isTruthy then some (.bool true) else none
  | _, _ => none

/-- The result of two operands, of which the left one does not decide. -/
def apply : BinaryOp → Value → Value → Except Cause Value
  | add, a, b => Arithmetic.binary .add a b
  | sub, a, b => Arithmetic.binary .subtract a b
  | mul, a, b => Arithmetic.binary .multiply a b
  | div, a, b => Arithmetic.binary .divide a b
  | mod, a, b => Arithmetic.binary .modulo a b
  | eq, a, b => .ok (.bool (a == b))
  | ne, a, b => .ok (.bool (a != b))
  | lt, a, b => Arithmetic.binary .less a b
  | le, a, b => Arithmetic.binary .lessEqual a b
  | gt, a, b => Arithmetic.binary .greater a b
  | ge, a, b => Arithmetic.binary .greaterEqual a b
  | and, _, b | or, _, b => .ok b

end BinaryOp

namespace Expr

/-- Whether an expression computes with literals and variables of the given names only. -/
def isCore (names : List String) : Expr → Bool
  | ⟨.literal _, _, _⟩ => true
  | ⟨.var name, _, _⟩ => names.contains name
  | ⟨.unary _ operand, _, _⟩ => operand.isCore names
  | ⟨.binary left _ right, _, _⟩ => left.isCore names && right.isCore names
  | ⟨.assign ⟨.var name, _, _⟩ value, _, _⟩ => names.contains name && value.isCore names
  | ⟨.ite cond thenBranch elseBranch, _, _⟩ =>
    cond.isCore names && thenBranch.isCore names && elseBranch.isCore names
  | _ => false

def eval : Expr → Eval Value
  | ⟨.literal value, _, _⟩ => return value.value
  | ⟨.var name, _, _⟩ => variableOf name
  | ⟨.unary op operand, _, _⟩ => do ofExcept (op.apply (← operand.eval))
  | ⟨.binary left op right, _, _⟩ => do
    let a ← left.eval
    match op.decided? a with
    | some v => return v
    | .none => ofExcept (op.apply a (← right.eval))
  | ⟨.assign ⟨.var name, _, _⟩ value, _, _⟩ => do
    let v ← value.eval
    modify (Env.assign name v)
    return v
  | ⟨.ite cond thenBranch elseBranch, _, _⟩ => do
    if (← cond.eval).isTruthy then thenBranch.eval else elseBranch.eval
  | _ => throw .fault

theorem bind_ofExcept_ok (m : Eval Value) : (m >>= fun v => Evaluation.ofExcept (.ok v)) = m := by
  funext env
  change EStateM.bind m _ env = m env
  unfold EStateM.bind
  cases m env <;> rfl

theorem eval_and (left right : Expr) (ty : Ty) (loc : Location) :
    eval ⟨.binary left .and right, ty, loc⟩ =
      (do if (← left.eval).isTruthy then right.eval else return .bool false) := by
  refine bind_congr (x := left.eval) fun a => ?_
  rw [BinaryOp.decided?]
  by_cases ha : a.isTruthy = true
  · rw [if_pos ha, if_pos ha]
    exact bind_ofExcept_ok right.eval
  · rw [if_neg ha, if_neg ha]

theorem eval_or (left right : Expr) (ty : Ty) (loc : Location) :
    eval ⟨.binary left .or right, ty, loc⟩ =
      (do if (← left.eval).isTruthy then return .bool true else right.eval) := by
  refine bind_congr (x := left.eval) fun a => ?_
  rw [BinaryOp.decided?]
  by_cases ha : a.isTruthy = true
  · rw [if_pos ha, if_pos ha]
  · rw [if_neg ha, if_neg ha]
    exact bind_ofExcept_ok right.eval

end Expr

namespace Stmt

def declared : Stmt → List String
  | ⟨.bind name _ _ _, _⟩ => [name]
  | _ => []

mutual

/-- Whether a statement is made of core expressions, with the given names in scope. -/
def isCore (names : List String) : Stmt → Bool
  | ⟨.expr e, _⟩ => e.isCore names
  | ⟨.bind _ _ _ value, _⟩ => value.all (·.isCore names)
  | ⟨.ite cond thenBranch none, _⟩ => cond.isCore names && areCore names thenBranch
  | ⟨.ite cond thenBranch (some elseBranch), _⟩ =>
    cond.isCore names && areCore names thenBranch && areCore names elseBranch
  | ⟨.loop cond body, _⟩ => cond.isCore names && areCore names body
  | ⟨.ret value, _⟩ => value.all (·.isCore names)
  | ⟨.break, _⟩ | ⟨.continue, _⟩ => true
  | ⟨.block body, _⟩ => areCore names body
  | _ => false

def areCore (names : List String) : List Stmt → Bool
  | [] => true
  | s :: ss => s.isCore names && areCore (s.declared ++ names) ss

end

def valueOf : Option Expr → Eval Value
  | none => return .none
  | some e => e.eval

variable (fuel : Nat)

mutual

def exec : Stmt → Eval Signal
  | ⟨.expr e, _⟩ => do
    let _ ← e.eval
    return .next
  | ⟨.bind name _ _ value, _⟩ => do
    let v ← valueOf value
    modify ((name, v) :: ·)
    return .next
  | ⟨.ite cond thenBranch none, _⟩ => do
    if (← cond.eval).isTruthy then inBlock (execAll thenBranch) else return .next
  | ⟨.ite cond thenBranch (some elseBranch), _⟩ => do
    if (← cond.eval).isTruthy then inBlock (execAll thenBranch) else inBlock (execAll elseBranch)
  | ⟨.loop cond body, _⟩ => rounds cond.eval (inBlock (execAll body)) fuel
  | ⟨.ret value, _⟩ => return .ret (← valueOf value)
  | ⟨.break, _⟩ => return .leave
  | ⟨.continue, _⟩ => return .again
  | ⟨.block body, _⟩ => inBlock (execAll body)
  | _ => throw .fault

def execAll : List Stmt → Eval Signal
  | [] => return .next
  | s :: ss => do
    match ← exec s with
    | .next => execAll ss
    | signal => return signal

end

end Stmt

namespace FuncDecl

/-- Whether the body is made of core statements, with the parameters in scope. -/
def isCore (decl : FuncDecl) : Bool := Stmt.areCore decl.paramNames decl.body

/-- The value that a function returns for its arguments. -/
def eval (fuel : Nat) (decl : FuncDecl) (args : List Value) : Except Halt Value :=
  resultOf (Stmt.execAll fuel decl.body (decl.paramNames.zip args).reverse)

theorem eval_of_next {fuel : Nat} {decl : FuncDecl} {args : List Value} {env : Env}
    (h : Stmt.execAll fuel decl.body (decl.paramNames.zip args).reverse = .ok .next env) :
    decl.eval fuel args = .ok .none := by
  rw [eval, h]
  rfl

end FuncDecl

end StackCode
