import StackCode.Opcode

/-! # Instructions

An opcode with an operand of its layout. Operands of two bytes are written low byte first.
-/

namespace StackCode

/-- A symbol index with a number of arguments or of a case. -/
structure Selector where
  symbol : UInt16
  number : UInt8
deriving DecidableEq, Repr

@[reducible] def Layout.Operand : Layout → Type
  | .none => Unit
  | .slot | .capture | .argCount | .property | .associated => UInt8
  | .constant | .symbol | .count => UInt16
  | .jump => Int16
  | .invoke | .case => Selector

structure Instruction where
  opcode : Opcode
  operand : opcode.layout.Operand

def lowByte (n : UInt16) : UInt8 := n.toUInt8

def highByte (n : UInt16) : UInt8 := (n >>> 8).toUInt8

def ofBytes (low high : UInt8) : UInt16 := low.toUInt16 ||| (high.toUInt16 <<< 8)

namespace Layout

def encode : (l : Layout) → l.Operand → List UInt8
  | .none, () => []
  | .slot, b | .capture, b | .argCount, b | .property, b | .associated, b => [b]
  | .constant, n | .symbol, n | .count, n => [lowByte n, highByte n]
  | .jump, d => [lowByte d.toUInt16, highByte d.toUInt16]
  | .invoke, s | .case, s => [lowByte s.symbol, highByte s.symbol, s.number]

def byteAt? (code : Array UInt8) (offset : Nat) : Option UInt8 := code[offset]?

def wordAt? (code : Array UInt8) (offset : Nat) : Option UInt16 := do
  return ofBytes (← code[offset]?) (← code[offset + 1]?)

/-- The operand that stands at an offset, if the code is long enough. -/
def decode? (code : Array UInt8) (offset : Nat) : (l : Layout) → Option l.Operand
  | .none => some ()
  | .slot | .capture | .argCount | .property | .associated => byteAt? code offset
  | .constant | .symbol | .count => wordAt? code offset
  | .jump => (wordAt? code offset).map UInt16.toInt16
  | .invoke | .case => do return ⟨← wordAt? code offset, ← byteAt? code (offset + 2)⟩

end Layout

namespace Instruction

def size (i : Instruction) : Nat := i.opcode.size

def encode (i : Instruction) : List UInt8 := i.opcode.toByte :: i.opcode.layout.encode i.operand

/-- The instruction that stands at an offset, whatever its operand refers to. -/
def decode? (code : Array UInt8) (offset : Nat) : Option Instruction := do
  let opcode ← Opcode.ofByte? (← code[offset]?)
  return ⟨opcode, ← opcode.layout.decode? code (offset + 1)⟩

/-- The number of arguments, elements or entries by which the stack depth changes. -/
def count : Instruction → Nat
  | ⟨.call, n⟩ => n.toNat
  | ⟨.invokeMethod, s⟩ => s.number.toNat
  | ⟨.initArray, n⟩ | ⟨.initDict, n⟩ => n.toNat
  | _ => 0

/-- The distance of a jump from the end of the instruction. -/
def distance? : Instruction → Option Int
  | ⟨.jump, d⟩ | ⟨.jumpIfFalse, d⟩ | ⟨.loop, d⟩ => some d.toInt
  | _ => none

def effect (i : Instruction) : Int := i.opcode.effect i.count

def inputs (i : Instruction) : Nat := i.opcode.inputs i.count

end Instruction

end StackCode
