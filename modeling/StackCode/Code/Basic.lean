import StackCode.Diagnostic
import StackCode.Instruction

/-! # Structured code

The body of a chunk before its bytes are laid out. Control flow is still nested, so that a jump has
a place to go to but no distance yet, and problems stand where they were found.
-/

namespace StackCode

inductive Code where
  | skip
  | seq (first rest : Code)
  | instr (line : UInt32) (i : Instruction)
  /-- Binds a slot to the value on the stack, in a cell if a nested function captures the slot. -/
  | bind (line : UInt32) (slot : UInt8)
  | report (d : Diagnostic)
  /-- Takes a value from the stack and runs one of two parts. -/
  | ite (loc : Location) (yes no : Code)
  /-- Takes a value from the stack and runs a part if it is true. -/
  | when (loc : Location) (body : Code)
  | loop (loc : Location) (cond body : Code)
  | leave (line : UInt32)
  | again (loc : Location)
  /-- Runs a part and skips the other one, which runs instead as soon as a requirement of the first
  fails. -/
  | arm (loc armLoc : Location) (attempt rest : Code)
  /-- Takes a value from the stack, which the innermost arm requires to be true. -/
  | require (line : UInt32)

namespace Code

instance : Inhabited Code := ⟨.skip⟩

instance : Append Code := ⟨.seq⟩

/-- The parts in order, given the last one first. -/
def joinReversed (parts : List Code) : Code := parts.foldl (fun rest part => part ++ rest) .skip

def join (parts : List Code) : Code := joinReversed parts.reverse

def width : Code → Nat
  | skip => 0
  | seq first rest => first.width + rest.width
  | instr _ i => i.size
  | bind .. => 2
  | report _ => 0
  | ite _ yes no => 3 + yes.width + 3 + no.width
  | when _ body => 3 + body.width
  | loop _ cond body => cond.width + 3 + body.width + 3
  | leave _ => 3
  | again _ => 3
  | arm _ _ attempt rest => attempt.width + 3 + rest.width
  | require _ => 3

end Code

end StackCode
