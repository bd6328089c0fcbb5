import StackCode.Text.Column
import StackCode.Value.Text

/-! # Listings

The instructions of a chunk one by one, and the listing that shows them with their offsets and
lines.
-/

namespace StackCode

/-- What a row shows of an operand. Of a method and of a case it shows the symbol itself. -/
inductive Shown where
  | none
  | byte (n : UInt8)
  | count (n : UInt16)
  | constant (index : UInt16) (value : Value)
  | symbol (index : UInt16) (symbol : Symbol)
  | jump (distance : Int16) (target : Nat)
  | selector (symbol : Symbol) (number : UInt8)

structure Row where
  offset : Nat
  line : UInt32
  opcode : Opcode
  operand : Shown

namespace Chunk

/-- Whether what an instruction at an offset refers to exists: its constant, its symbol, and a
target that is not before the code. -/
def refersInside (c : Chunk Value) (offset : Nat) : Instruction → Bool
  | ⟨op, operand⟩ =>
    match op.layout, operand with
    | .constant, index => (c.constant? index).isSome
    | .symbol, index => (c.symbol? index).isSome
    | .invoke, s | .case, s => (c.symbol? s.symbol).isSome
    | .jump, distance => 0 ≤ offset + op.size + distance.toInt
    | _, _ => true

/-- The instruction at an offset, if it is whole and refers to what exists. -/
def instruction? (c : Chunk Value) (offset : Nat) : Option Instruction :=
  (Instruction.decode? c.code offset).filter (c.refersInside offset)

/-- The offset to which a jump at the given offset leads. -/
def target? (offset : Nat) (i : Instruction) : Option Nat :=
  i.distance?.map fun (distance : Int) => (offset + i.size + distance).toNat

/-- Reads instructions from an offset on, up to the first one that cannot be read, behind those
already read in reverse order. -/
def scan (c : Chunk Value) (offset : Nat) (read : List (Nat × Instruction)) :
    List (Nat × Instruction) :=
  match c.instruction? offset with
  | none => read.reverse
  | some i =>
    if offset < c.size then c.scan (offset + i.size) ((offset, i) :: read) else read.reverse
termination_by c.size - offset
decreasing_by
  have : 0 < i.size := by simp only [Instruction.size, Opcode.size]; omega
  omega

/-- All instructions that can be read from the start of a chunk, each with its offset. -/
def instructions (c : Chunk Value) : List (Nat × Instruction) := c.scan 0 []

/-- What is shown of an operand of an instruction that ends at an offset, if it is in range. -/
def operand? (c : Chunk Value) (after : Int) : (l : Layout) → l.Operand → Option Shown
  | .none, _ => some .none
  | .slot, n | .capture, n | .argCount, n | .property, n | .associated, n => some (.byte n)
  | .count, n => some (.count n)
  | .constant, n => (c.constant? n).map (.constant n)
  | .symbol, n => (c.symbol? n).map (.symbol n)
  | .invoke, s | .case, s => (c.symbol? s.symbol).map (.selector · s.number)
  | .jump, d => if 0 ≤ after + d.toInt then some (.jump d (after + d.toInt).toNat) else none

def row? (c : Chunk Value) (x : Nat × Instruction) : Option Row :=
  (c.operand? (x.1 + x.2.size) x.2.opcode.layout x.2.operand).map fun s =>
    ⟨x.1, c.lineAt x.1, x.2.opcode, s⟩

/-- The rows of all instructions that can be read from the start of a chunk. -/
def disassembly (c : Chunk Value) : List Row := c.instructions.filterMap c.row?

def instructionText (c : Chunk Value) (offset : Nat) (i : Instruction) : String :=
  let row (n : Int) (rest : String) : String :=
    Text.left 20 i.opcode.name ++ " " ++ Text.right 4 (toString n) ++ rest
  let symbol (index : UInt16) : String := " " ++ ((c.symbol? index).map Symbol.text).getD ""
  match i with
  | ⟨op, operand⟩ =>
    match op.layout, operand with
    | .none, _ => op.name
    | .constant, index =>
      row index.toNat (" '" ++ ((c.constant? index).map Value.text).getD "" ++ "'")
    | .symbol, index => row index.toNat (symbol index)
    | .jump, distance =>
      row distance.toInt (" -> " ++ Text.offset (offset + op.size + distance.toInt).toNat)
    | .invoke, s | .case, s => row s.number.toNat (symbol s.symbol)
    | .count, n => row n.toNat ""
    | .slot, n | .capture, n | .argCount, n | .property, n | .associated, n => row n.toNat ""

/-- One row of a listing. A line number is shown where it differs from the previous one. -/
def row (c : Chunk Value) (previous : Option UInt32) (entry : Nat × Instruction) : String :=
  let (offset, i) := entry
  let line := c.lineAt offset
  let shown := if previous == some line then "   |" else Text.right 4 (toString line)
  Text.offset offset ++ " " ++ shown ++ " " ++ c.instructionText offset i ++ "\n"

def rows (c : Chunk Value) (instructions : List (Nat × Instruction)) : List String :=
  let lines := instructions.map fun (offset, _) => some (c.lineAt offset)
  List.zipWith c.row (none :: lines) instructions

/-- The offset behind the last instruction. -/
def endOf (instructions : List (Nat × Instruction)) : Nat :=
  (instructions.getLast?.map fun (offset, i) => offset + i.size).getD 0

def listing (c : Chunk Value) : String :=
  let title := "== " ++ c.name ++ " ==\n"
  let locals :=
    if c.locals.isEmpty then "" else "locals: " ++ Text.join ", " c.locals.toList ++ "\n"
  let captures :=
    if c.captures.isEmpty then ""
    else "captures: " ++ Text.join ", " (c.captures.toList.map (·.name)) ++ "\n"
  let instructions := c.instructions
  let after := endOf instructions
  let rest := if after < c.size then Text.offset after ++ " <invalid bytecode>\n" else ""
  title ++ locals ++ captures ++ String.join (c.rows instructions) ++ rest

def description (c : Chunk Value) : String :=
  "Chunk \x7b name: " ++ Text.quoted c.name ++ ", symbol: " ++ Text.quoted c.symbol.text ++
    ", code_len: " ++ toString c.size ++ ", constants_len: " ++ toString c.constants.size ++
    ", locals: " ++ toString c.locals.size ++ ", captures: " ++ toString c.captures.size ++ " \x7d"

end Chunk

end StackCode
