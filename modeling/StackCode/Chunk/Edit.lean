import StackCode.Value.Basic

/-! # Writing chunks

Bytes are written at the end, each with its line. Constants and symbols enter their tables once and
keep their index. A forward jump is written with the distance 0, which is patched when its target
is reached.
-/

namespace StackCode.Chunk

variable {α : Type}

/-- The largest number of entries in a table of constants or symbols. -/
def maxEntries : Nat := 65536

def pushLine (lines : Array LineRun) (line : UInt32) : Array LineRun :=
  match lines.back? with
  | some run =>
    if run.line == line then lines.pop.push { run with count := run.count + 1 }
    else lines.push ⟨line, 1⟩
  | none => lines.push ⟨line, 1⟩

def writeByte (c : Chunk α) (byte : UInt8) (line : UInt32) : Chunk α :=
  { c with code := c.code.push byte, lines := pushLine c.lines line }

def writeBytes (c : Chunk α) (bytes : List UInt8) (line : UInt32) : Chunk α :=
  bytes.foldl (fun c byte => c.writeByte byte line) c

def writeWord (c : Chunk α) (n : UInt16) (line : UInt32) : Chunk α :=
  (c.writeByte (lowByte n) line).writeByte (highByte n) line

def writeOp (c : Chunk α) (op : Opcode) (line : UInt32) : Chunk α := c.writeByte op.toByte line

def write (c : Chunk α) (i : Instruction) (line : UInt32) : Chunk α := c.writeBytes i.encode line

def patchWord (c : Chunk α) (offset : Nat) (n : UInt16) : Chunk α :=
  let code := c.code.setIfInBounds offset (lowByte n)
  { c with code := code.setIfInBounds (offset + 1) (highByte n) }

/-- Replaces the opcode at an offset by another one of the same layout. -/
def patchOp (c : Chunk α) (offset : Nat) (op : Opcode) : Chunk α :=
  { c with code := c.code.setIfInBounds offset op.toByte }

/-- The index of a constant, which is added to the table unless an identical one is there. A full
table takes no more. -/
def addConstant (c : Chunk Value) (v : Value) : Option UInt16 × Chunk Value :=
  match c.constants.findIdx? (·.isSameConstant v) with
  | some index => (some (UInt16.ofNat index), c)
  | none =>
    if c.constants.size < maxEntries then
      (some (UInt16.ofNat c.constants.size), { c with constants := c.constants.push v })
    else (none, c)

/-- The index of a symbol, which is added to the table unless it is there. A full table takes no
more. -/
def addSymbol (c : Chunk α) (s : Symbol) : Option UInt16 × Chunk α :=
  match c.symbols.findIdx? (· == s) with
  | some index => (some (UInt16.ofNat index), c)
  | none =>
    if c.symbols.size < maxEntries then
      (some (UInt16.ofNat c.symbols.size), { c with symbols := c.symbols.push s })
    else (none, c)

def writeConstant (c : Chunk Value) (v : Value) (line : UInt32) :
    Option UInt16 × Chunk Value :=
  match c.addConstant v with
  | (some index, c) => (some index, c.write ⟨.constant, index⟩ line)
  | (none, c) => (none, c)

/-- Writes a jump whose distance is not known yet, and gives the place of the distance. -/
def writeJump (c : Chunk α) (op : Opcode) (line : UInt32) : Nat × Chunk α :=
  let c := c.writeOp op line
  (c.size, c.writeWord 0 line)

def maxDistance : Nat := 32767

/-- Lets the jump with its distance at the given place land at the end of the code. -/
def patchJump (c : Chunk α) (place : Nat) : Option Int16 × Chunk α :=
  if place + 2 ≤ c.size then
    let distance := c.size - (place + 2)
    if distance ≤ maxDistance then
      (some (Int16.ofNat distance), c.patchWord place (UInt16.ofNat distance))
    else (none, c)
  else (none, c)

/-- Writes a jump back to the given offset. -/
def writeLoop (c : Chunk α) (start : Nat) (line : UInt32) : Option Int16 × Chunk α :=
  if start ≤ c.size + 3 then
    let distance := c.size + 3 - start
    if distance ≤ maxDistance then
      let offset := -Int16.ofNat distance
      (some offset, c.write ⟨.loop, offset⟩ line)
    else (none, c)
  else (none, c)

end StackCode.Chunk
