import StackCode.Builtin
import StackCode.Chunk.Basic
import StackCode.Descriptor

/-! # Values

What the machine computes with. Instances, pointers and the cells of a closure are addresses in the
heap: a copy of the value denotes the same place.
-/

namespace StackCode

/-- The address of a heap slot. A slot that is freed moves on to its next generation, so that old
addresses of it no longer denote anything. -/
structure Handle where
  index : UInt32
  generation : UInt32
deriving DecidableEq, Repr

namespace Handle

def text (h : Handle) : String := "#" ++ toString h.index ++ "@" ++ toString h.generation

end Handle

/-- The address of one slot of a block. -/
structure Pointer where
  block : Handle
  offset : Nat
deriving DecidableEq, Repr

namespace Pointer

def text (p : Pointer) : String := toString p.block.index ++ "+" ++ toString p.offset

/-- Moves a pointer within the offsets of 64 bits. -/
def move? (p : Pointer) (delta : Int) : Option Pointer :=
  let offset := p.offset + delta
  if 0 ≤ offset ∧ offset < UInt64.size then some { p with offset := offset.toNat } else none

end Pointer

/-- What makes two closures the same one. -/
inductive ClosureId where
  /-- A function of a module, of which there is one closure. -/
  | function (symbol : Symbol)
  /-- The closure that a running program made after this many others. -/
  | made (n : Nat)
  /-- A closure that was written into a constant. -/
  | written (n : Nat)
deriving DecidableEq, Repr

structure Closure (α : Type) where
  id : ClosureId
  chunk : Chunk α
  /-- The captured cells, in the order of the captures of the chunk. -/
  cells : Array Handle := #[]

/-- One case of an enum. Without values, a case of positive arity is a constructor: calling it gives
the case with its arguments. -/
structure EnumCase (α : Type) where
  owner : Symbol
  name : String
  index : UInt32
  arity : UInt8
  values : List α

namespace EnumCase

variable {α : Type}

def isConstructor (c : EnumCase α) : Bool := c.arity > 0 && c.values.isEmpty

end EnumCase

inductive Value where
  | none
  | int (n : Int64)
  | bool (b : Bool)
  | string (s : String)
  | pointer (p : Pointer)
  | object (ref : Handle)
  | closure (c : Closure Value)
  /-- A struct itself; calling it makes an instance. -/
  | struct (type : StructType)
  /-- A method with the instance from which it was read. -/
  | boundMethod (receiver : Handle) (method : Symbol)
  | builtin (b : Builtin)
  | enumCase (c : EnumCase Value)

namespace Value

instance : Inhabited Value := ⟨.none⟩

/-- Everything but `none` and `false` counts as true. -/
def isTruthy : Value → Bool
  | none => false
  | bool b => b
  | _ => true

def isNone : Value → Bool
  | none => true
  | _ => false

def int? : Value → Option Int64
  | int n => some n
  | _ => Option.none

def typeName : Value → String
  | none => "none"
  | int _ => "int"
  | bool _ => "bool"
  | string _ => "string"
  | pointer _ => "pointer"
  | object _ => "instance"
  | closure _ => "function"
  | struct _ => "struct"
  | boundMethod .. => "method"
  | builtin _ => "builtin"
  | enumCase _ => "enum case"

mutual

/-- Equality of values. Instances, pointers and closures are equal when they are the same one;
structs when they have the same symbol; cases when they and their values are equal. -/
def beq : Value → Value → Bool
  | none, none => true
  | int n, int n' => n == n'
  | bool b, bool b' => b == b'
  | string s, string s' => s == s'
  | pointer p, pointer p' => p == p'
  | object ref, object ref' => ref == ref'
  | closure c, closure c' => c.id == c'.id
  | struct t, struct t' => t.symbol == t'.symbol
  | boundMethod r m, boundMethod r' m' => r == r' && m == m'
  | builtin b, builtin b' => b == b'
  | enumCase ⟨o, n, i, a, vs⟩, enumCase ⟨o', n', i', a', vs'⟩ =>
    o == o' && n == n' && i == i' && a == a' && beqs vs vs'
  | _, _ => false

def beqs : List Value → List Value → Bool
  | [], [] => true
  | v :: vs, v' :: vs' => v.beq v' && beqs vs vs'
  | _, _ => false

end

instance : BEq Value := ⟨beq⟩

/-- Whether two constants may share one place in a table of constants. -/
def isSameConstant (a b : Value) : Bool :=
  match a with
  | none | bool _ | int _ | string _ | enumCase _ => a == b
  | _ => false

end Value

namespace EnumType

/-- The value of a reference to a case: the case itself, or its constructor. -/
def caseValue? (t : EnumType) (name : String) : Option (EnumCase Value) := do
  let (index, case) ← t.case? name
  return { owner := t.symbol, name, index := UInt32.ofNat index,
           arity := UInt8.ofNat (min case.values.length 255), values := [] }

end EnumType

end StackCode
