import StackCode.Chunk.Edit
import StackCode.Code.Basic

/-! # Layout of structured code

Writes code into a chunk. Every distance follows from the widths of the parts between a jump and its
target, so nothing is patched afterwards.
-/

namespace StackCode.Code

/-- Where the jumps out of the innermost loop and arm lead. -/
structure Targets where
  start : Nat := 0
  stop : Nat := 0
  /-- The part that runs when the arm fails. -/
  fail : Nat := 0

def forward (n : Nat) : Int16 := Int16.ofNat n

def backward (n : Nat) : Int16 := -Int16.ofNat n

def binder (cells : List UInt8) (slot : UInt8) : Instruction :=
  if cells.contains slot then ⟨.defineCell, slot⟩ else ⟨.defineLocal, slot⟩

/-- Writes code behind what a chunk already holds. -/
def write (cells : List UInt8) (t : Targets) (c : Chunk Value) : Code → Chunk Value
  | skip => c
  | seq first rest => rest.write cells t (first.write cells t c)
  | instr line i => c.write i line
  | bind line slot => c.write (binder cells slot) line
  | report _ => c
  | ite loc yes no =>
    let c := c.write ⟨.jumpIfFalse, forward (yes.width + 3)⟩ loc.line
    let c := yes.write cells t c
    let c := c.write ⟨.jump, forward no.width⟩ loc.line
    no.write cells t c
  | when loc body =>
    let c := c.write ⟨.jumpIfFalse, forward body.width⟩ loc.line
    body.write cells t c
  | loop loc cond body =>
    let start := c.size
    let c := cond.write cells t c
    let c := c.write ⟨.jumpIfFalse, forward (body.width + 3)⟩ loc.line
    let stop := c.size + body.width + 3
    let c := body.write cells { t with start, stop } c
    c.write ⟨.loop, backward (c.size + 3 - start)⟩ loc.line
  | leave line => c.write ⟨.jump, forward (t.stop - (c.size + 3))⟩ line
  | again loc => c.write ⟨.loop, backward (c.size + 3 - t.start)⟩ loc.line
  | arm loc _ attempt rest =>
    let fail := c.size + attempt.width + 3
    let c := attempt.write cells { t with fail } c
    let c := c.write ⟨.jump, forward rest.width⟩ loc.line
    rest.write cells t c
  | require line => c.write ⟨.jumpIfFalse, forward (t.fail - (c.size + 3))⟩ line

/-- Fills an empty chunk with code. -/
def layout (cells : List UInt8) (head : Chunk Value) (code : Code) : Chunk Value :=
  code.write cells {} head

end StackCode.Code
