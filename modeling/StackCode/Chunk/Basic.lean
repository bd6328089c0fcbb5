import StackCode.Instruction
import StackCode.Symbol

/-! # Chunks

A chunk is one compiled body: its bytes, the constants and symbols that they refer to, and the
source line of every byte.
-/

namespace StackCode

/-- Where a capture comes from when a closure is made. -/
inductive CaptureSource where
  /-- A slot of the frame that makes the closure. -/
  | slot (n : UInt8)
  /-- A capture of the closure that runs in that frame. -/
  | capture (n : UInt8)
deriving DecidableEq, Repr

structure Capture where
  name : String
  source : CaptureSource
deriving DecidableEq, Repr

/-- A number of successive bytes that come from one line. -/
structure LineRun where
  line : UInt32
  count : Nat
deriving DecidableEq, Repr

structure Chunk (α : Type) where
  name : String
  symbol : Symbol
  path : String := ""
  arity : UInt8 := 0
  /-- Whether slot 0 holds the receiver of a method. -/
  hasReceiver : Bool := false
  locals : Array String := #[]
  captures : Array Capture := #[]
  code : Array UInt8 := #[]
  constants : Array α := #[]
  symbols : Array Symbol := #[]
  lines : Array LineRun := #[]

namespace Chunk

variable {α : Type}

def size (c : Chunk α) : Nat := c.code.size

def isEmpty (c : Chunk α) : Bool := c.code.isEmpty

def constant? (c : Chunk α) (index : UInt16) : Option α := c.constants[index.toNat]?

def symbol? (c : Chunk α) (index : UInt16) : Option Symbol := c.symbols[index.toNat]?

def byteAt? (c : Chunk α) (offset : Nat) : Option UInt8 := Layout.byteAt? c.code offset

def wordAt? (c : Chunk α) (offset : Nat) : Option UInt16 := Layout.wordAt? c.code offset

/-- The line of an offset in a list of runs that starts at the given offset. -/
def lineIn (offset : Nat) : List LineRun → Option UInt32
  | [] => none
  | run :: runs => if offset < run.count then some run.line else lineIn (offset - run.count) runs

/-- The line of a byte; past the end, the line of the last byte, or 0 if there is none. -/
def lineAt (c : Chunk α) (offset : Nat) : UInt32 :=
  match lineIn offset c.lines.toList with
  | some line => line
  | none => (c.lines.back?.map (·.line)).getD 0

end Chunk

end StackCode
