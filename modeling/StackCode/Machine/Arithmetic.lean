import StackCode.Trap

/-! # Arithmetic and comparison

Integers have 64 bits, and a result that does not fit is an overflow. Division goes toward zero and
the remainder has the sign of the dividend. Texts can be joined and compared, pointers moved.
-/

namespace StackCode.Arithmetic

/-- An exact result, if it is an integer of 64 bits. -/
def fit? (n : Int) : Option Int64 :=
  if Int64.minValue.toInt ≤ n ∧ n ≤ Int64.maxValue.toInt then some (Int64.ofInt n) else none

/-- The operations that take two operands and compute a new value from them. -/
inductive Operation where
  | add
  | subtract
  | multiply
  | divide
  | modulo
  | less
  | greater
  | lessEqual
  | greaterEqual
deriving DecidableEq, Repr

namespace Operation

def opcode : Operation → Opcode
  | add => .add
  | subtract => .subtract
  | multiply => .multiply
  | divide => .divide
  | modulo => .modulo
  | less => .less
  | greater => .greater
  | lessEqual => .lessEqual
  | greaterEqual => .greaterEqual

def name (op : Operation) : String := op.opcode.name

end Operation

def checked (op : Operation) (n : Option Int64) : Except Cause Value :=
  match n with
  | some n => .ok (.int n)
  | none => .error (.integerOverflow op.name)

def onInts (op : Operation) (x y : Int64) : Except Cause Value :=
  match op with
  | .add => checked op (fit? (x.toInt + y.toInt))
  | .subtract => checked op (fit? (x.toInt - y.toInt))
  | .multiply => checked op (fit? (x.toInt * y.toInt))
  | .divide =>
    if y = 0 then .error .divisionByZero else checked op (fit? (x.toInt.tdiv y.toInt))
  | .modulo =>
    if y = 0 then .error .divisionByZero
    else checked op ((fit? (x.toInt.tdiv y.toInt)).bind fun _ => fit? (x.toInt.tmod y.toInt))
  | .less => .ok (.bool (x < y))
  | .greater => .ok (.bool (y < x))
  | .lessEqual => .ok (.bool (x ≤ y))
  | .greaterEqual => .ok (.bool (y ≤ x))

/-- The comparison of two texts, if the operation is one. -/
def onTexts? (op : Operation) (x y : String) : Option Value :=
  match op with
  | .add => some (.string (x ++ y))
  | .less => some (.bool (x < y))
  | .greater => some (.bool (y < x))
  | .lessEqual => some (.bool (x ≤ y))
  | .greaterEqual => some (.bool (y ≤ x))
  | _ => none

/-- The distance by which an operation moves a pointer, if it does. The least integer has no
negative. -/
def delta? (op : Operation) (n : Int64) : Option (Option Int) :=
  match op with
  | .add => some (some n.toInt)
  | .subtract => some (if n = Int64.minValue then none else some (-n.toInt))
  | _ => none

def movePointer (p : Pointer) (n : Int64) (delta : Option Int) : Except Cause Value :=
  match delta.bind p.move? with
  | some p => .ok (.pointer p)
  | none => .error (.danglingPointer (p.text ++ " offset by " ++ toString n.toInt))

/-- The operands that an operation does not take: the right one is blamed if the left one is of a
kind that could be combined. -/
def mismatch (op : Operation) (a b : Value) : Cause :=
  match op, a with
  | .add, .string _ => .typeMismatch op.name "string" b.typeName
  | _, .int _ => .typeMismatch op.name "int" b.typeName
  | _, _ => .typeMismatch op.name "int" a.typeName

def binary (op : Operation) (a b : Value) : Except Cause Value :=
  match a, b with
  | .int x, .int y => onInts op x y
  | .string x, .string y =>
    match onTexts? op x y with
    | some v => .ok v
    | none => .error (mismatch op a b)
  | .pointer p, .int n =>
    match delta? op n with
    | some delta => movePointer p n delta
    | none => .error (mismatch op a b)
  | _, _ => .error (mismatch op a b)

def negate : Value → Except Cause Value
  | .int n =>
    match fit? (-n.toInt) with
    | some m => .ok (.int m)
    | none => .error (.integerOverflow "negation")
  | v => .error (.typeMismatch "negation" "int" v.typeName)

end StackCode.Arithmetic
