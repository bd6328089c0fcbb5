import StackCode.Chunk.Edit
import StackCode.Code.Basic

/-! # Problems of structured code

Finds the problems in code in the order in which writing it would meet them, among them the jumps
whose distance is too large. A jump back that is too far is not written at all.
-/

namespace StackCode.Code

structure CheckState where
  /-- The offset that writing has reached. -/
  offset : Nat := 0
  /-- The problems found so far, the last one first. -/
  found : List Diagnostic := []
  /-- The offsets of the jumps out of the innermost loop, the last one first. -/
  leaves : List Nat := []
  /-- The offsets of the jumps out of the innermost arm, the last one first. -/
  fails : List Nat := []

namespace CheckState

def advance (s : CheckState) (n : Nat) : CheckState := { s with offset := s.offset + n }

def add (s : CheckState) (d : Diagnostic) : CheckState := { s with found := d :: s.found }

/-- Lets a jump that starts at the given offset land here. -/
def land (path : String) (loc : Location) (s : CheckState) (jump : Nat) : CheckState :=
  if s.offset - (jump + 3) > Chunk.maxDistance then s.add ⟨.jumpTooLarge, path, loc, none⟩ else s

def landAll (path : String) (loc : Location) (s : CheckState) (jumps : List Nat) : CheckState :=
  jumps.foldl (land path loc) s

/-- Writes a jump back to an offset, if the distance permits. -/
def back (path : String) (loc : Location) (s : CheckState) (start : Nat) : CheckState :=
  if s.offset + 3 - start > Chunk.maxDistance then s.add ⟨.jumpTooLarge, path, loc, none⟩
  else s.advance 3

end CheckState

/-- Checks code in a loop that starts at the given offset. -/
def check (path : String) (start : Nat) (s : CheckState) : Code → CheckState
  | skip => s
  | seq first rest => rest.check path start (first.check path start s)
  | instr _ i => s.advance i.size
  | bind .. => s.advance 2
  | report d => s.add d
  | ite loc yes no =>
    let toNo := s.offset
    let s := yes.check path start (s.advance 3)
    let toEnd := s.offset
    let s := (s.advance 3).land path loc toNo
    (no.check path start s).land path loc toEnd
  | when loc body =>
    let toEnd := s.offset
    (body.check path start (s.advance 3)).land path loc toEnd
  | loop loc cond body =>
    let outer := s.leaves
    let top := s.offset
    let s := cond.check path start s
    let toEnd := s.offset
    let s := body.check path top { s.advance 3 with leaves := [] }
    let s := (s.back path loc top).land path loc toEnd
    { s.landAll path loc s.leaves.reverse with leaves := outer }
  | leave _ => { s.advance 3 with leaves := s.offset :: s.leaves }
  | again loc => s.back path loc start
  | arm loc armLoc attempt rest =>
    let outer := s.fails
    let s := attempt.check path start { s with fails := [] }
    let toEnd := s.offset
    let s := s.advance 3
    let s := { s.landAll path armLoc s.fails.reverse with fails := outer }
    (rest.check path start s).land path loc toEnd
  | require _ => { s.advance 3 with fails := s.offset :: s.fails }

def problems (path : String) (code : Code) : List Diagnostic :=
  (code.check path 0 {}).found.reverse

end StackCode.Code
