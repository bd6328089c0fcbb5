import StackCode.Collection.Method

/-! # States of the machine

A running program has a stack of values, a frame for the body that runs and frames for those that
wait for it. The locals of a frame do not live on the stack.
-/

namespace StackCode.Machine

structure Limits where
  maxFrames : Nat := 256
  maxStack : Nat := 65536
  maxBlockSlots : Nat := Heap.defaultMaxBlockSlots
deriving DecidableEq, Repr

/-- What is fixed while a program runs. -/
structure Program where
  name : String
  main : Chunk Value
  /-- The modules in the order in which they are searched. -/
  modules : List Module
  types : Collection.Types
  limits : Limits

namespace Program

def find? (p : Program) (name : String) : Option Module := p.modules.find? (·.name == name)

def chunk? (p : Program) (s : Symbol) : Option (Chunk Value) := do
  (← p.find? s.module).chunks.get? s

def initializer? (p : Program) (s : Symbol) : Option (Chunk Value) := do
  (← p.find? s.module).initializers.get? s

def structType? (p : Program) (s : Symbol) : Option StructType := do
  (← p.find? s.module).structs.get? s

/-- The program of a module that can be executed. Collections get the descriptors that the module
graph declares, if it does. -/
def ofLinked? (l : Linked) (limits : Limits) : Option Program :=
  match l.module.main, l.module.diagnostics with
  | some main, [] =>
    let array := (l.structType? (Standard.structSymbol Standard.arrayName)).getD Standard.arrayType
    let dictionary := (l.structType? (Standard.structSymbol Standard.dictionaryName)).getD
      Standard.dictionaryType
    some { name := l.name, main, modules := l.modules, types := ⟨array, dictionary⟩, limits }
  | _, _ => none

end Program

inductive Slot where
  /-- Not bound yet. -/
  | empty
  | value (v : Value)
  /-- Shared with closures. -/
  | cell (c : Handle)

structure Frame where
  closure : Closure Value
  next : Nat := 0
  /-- The height to which the stack is cut when the frame returns. -/
  base : Nat
  locals : Array Slot

namespace Frame

def enter (closure : Closure Value) (base : Nat) : Frame :=
  { closure, base, locals := Array.replicate closure.chunk.locals.size .empty }

def chunk (f : Frame) : Chunk Value := f.closure.chunk

def slot (f : Frame) (i : Nat) : Slot := f.locals[i]?.getD .empty

def grow (locals : Array Slot) (size : Nat) : Array Slot :=
  locals ++ Array.replicate (size - locals.size) .empty

/-- Binds a slot, which need not have been reserved. -/
def setSlot (f : Frame) (i : Nat) (s : Slot) : Frame :=
  { f with locals := (grow f.locals (i + 1)).setIfInBounds i s }

def setSlots (f : Frame) (i : Nat) : List Value → Frame
  | [] => f
  | v :: vs => (f.setSlot i (.value v)).setSlots (i + 1) vs

end Frame

structure State where
  stack : Array Value := #[]
  /-- The frame of the body that runs. -/
  frame : Frame
  /-- The frames that wait, the innermost last. -/
  callers : Array Frame := #[]
  heap : Heap
  /-- The values of modules that have been computed. -/
  values : Table Symbol Value := {}
  /-- The number of closures made so far. -/
  closures : Nat := 0
  output : Array String := #[]
  /-- The offset of the instruction that runs. -/
  current : Nat := 0

namespace State

/-- The frames that are active, the innermost first. A waiting frame is at the last byte of its
call. -/
def trace (s : State) : List TraceEntry :=
  let entry (f : Frame) (offset : Nat) : TraceEntry :=
    { chunk := f.chunk.name, offset, line := f.chunk.lineAt offset,
      source := if f.chunk.path.isEmpty then none else some f.chunk.path }
  entry s.frame s.current :: s.callers.toList.reverse.map fun f => entry f (f.next - 1)

end State

/-- Computations on states. What was done before a failure stays done. -/
abbrev Exec := EStateM Failure State

namespace Exec

variable {α : Type}

def trap (cause : Cause) : Exec α := throw (.trap cause)

/-- An operation on the heap of the state. -/
def host (op : Host α) : Exec α := fun s =>
  let heap := s.heap
  let s := { s with heap := default }
  match op heap with
  | .ok a heap => .ok a { s with heap }
  | .error e heap => .error e { s with heap }

def access (a : Heap.Access α) : Exec α := host (Host.access a)

def ofExcept (e : Except Cause α) : Exec α :=
  match e with
  | .ok a => pure a
  | .error cause => trap cause

def ofOption (a : Option α) (cause : Cause) : Exec α :=
  match a with
  | some a => pure a
  | none => trap cause

end Exec

end StackCode.Machine
