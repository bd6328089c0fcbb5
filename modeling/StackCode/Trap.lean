import StackCode.Heap.Basic
import StackCode.Text.Column

/-! # Traps

The causes that stop a running program, and the trap that reports one with the frames that were
active.
-/

namespace StackCode

inductive Cause where
  | typeMismatch (operation expected got : String)
  | uninitializedProperty (type property : String)
  | notCallable (type : String)
  | arityMismatch (callee : String) (expected got : UInt8)
  | stackUnderflow
  | stackOverflow
  | divisionByZero
  | integerOverflow (operation : String)
  | indexOutOfBounds (index : Int64) (length : Nat)
  | allocationTooLarge (requested limit : Nat)
  | keyNotFound (key : String)
  | danglingPointer (reason : String)
  | unresolvedSymbol (symbol : String)
  | unknownMethod (type method : String)
  | invalidOpcode (byte : UInt8)
  | notExecutable (module : String)
  | internal (reason : String)
deriving DecidableEq, Repr

namespace Cause

def message : Cause → String
  | typeMismatch operation expected got =>
    "type mismatch: " ++ operation ++ " expected " ++ expected ++ ", got " ++ got
  | uninitializedProperty type property =>
    "property '" ++ property ++ "' of " ++ type ++ " read before initialization"
  | notCallable type => "value of type " ++ type ++ " is not callable"
  | arityMismatch callee expected got =>
    callee ++ " expects " ++ toString expected ++ " arguments, got " ++ toString got
  | stackUnderflow => "stack underflow"
  | stackOverflow => "stack overflow"
  | divisionByZero => "division by zero"
  | integerOverflow operation => "integer overflow in " ++ operation
  | indexOutOfBounds index length =>
    "index " ++ toString index.toInt ++ " out of bounds for length " ++ toString length
  | allocationTooLarge requested limit =>
    "allocation of " ++ toString requested ++ " slots exceeds the limit of " ++ toString limit
  | keyNotFound key => "key " ++ key ++ " not found"
  | danglingPointer reason => "dangling pointer: " ++ reason
  | unresolvedSymbol symbol => "unresolved symbol " ++ symbol
  | unknownMethod type method => "no method '" ++ method ++ "' on " ++ type
  | invalidOpcode byte => "invalid opcode 0x" ++ Text.hexByte byte
  | notExecutable module => "module '" ++ module ++ "' is not executable"
  | internal reason => "internal VM error: " ++ reason

/-- The cause that a failed access to the heap gives. -/
def ofHeapError (e : HeapError) : Cause :=
  match e with
  | .uninitializedProperty type property => uninitializedProperty type property
  | .outOfBounds offset capacity => indexOutOfBounds (Int64.ofNat offset) capacity
  | .danglingHandle _ | .uninitializedSlot _ => danglingPointer e.message
  | .blockTooLarge requested limit => allocationTooLarge requested limit
  | .noSuchProperty .. => internal e.message

end Cause

/-- How an operation of the machine can fail. -/
inductive Failure where
  /-- The program stops with a cause that it can be blamed for. -/
  | trap (cause : Cause)
  /-- An operation was used outside of its domain: a missing argument, or an address beyond 64
  bits. -/
  | fault

structure TraceEntry where
  chunk : String
  offset : Nat
  line : UInt32
  source : Option String
deriving DecidableEq, Repr

namespace TraceEntry

def text (e : TraceEntry) : String :=
  match e.source with
  | some source => e.chunk ++ " (" ++ source ++ ":" ++ toString e.line ++ ")"
  | none => e.chunk ++ " (line " ++ toString e.line ++ ")"

end TraceEntry

/-- A cause with the instruction that it stopped and the active frames, the innermost first. -/
structure Trap where
  cause : Cause
  chunk : String := ""
  offset : Nat := 0
  line : UInt32 := 0
  trace : List TraceEntry := []
deriving DecidableEq, Repr

namespace Trap

def text (t : Trap) : String :=
  let trace := match t.trace with
    | [] => ""
    | entries => "\nStack trace:" ++ String.join (entries.map ("\n  at " ++ ·.text))
  "RuntimeError: " ++ t.cause.message ++ " (in " ++ t.chunk ++ " at " ++ Text.offset t.offset ++
    ", line " ++ toString t.line ++ ")" ++ trace

def ofTrace (cause : Cause) (trace : List TraceEntry) : Trap :=
  match trace with
  | [] => { cause }
  | top :: _ => { cause, chunk := top.chunk, offset := top.offset, line := top.line, trace }

end Trap

end StackCode
