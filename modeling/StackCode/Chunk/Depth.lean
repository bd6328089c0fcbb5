import StackCode.Chunk.Listing

/-! # Stack depth

Follows every path through a chunk and records the depth of the stack before each instruction. A
chunk is accepted if no instruction lacks its inputs, every offset is reached with one depth only,
every return finds exactly its result, and no path leaves the code.
-/

namespace StackCode

inductive DepthError where
  | underflow (offset : Nat) (op : Opcode) (needed : Nat) (depth : Int)
  | inconsistent (offset : Nat) (first second : Int)
  | unbalancedReturn (offset : Nat) (depth : Int)
  | invalidInstruction (offset : Nat)
  | fallsOffEnd (offset : Nat)
deriving DecidableEq, Repr

namespace DepthError

def message : DepthError → String
  | underflow offset op needed depth =>
    op.name ++ " at " ++ Text.offset offset ++ " needs " ++ toString needed ++
      " values but the stack holds " ++ toString depth
  | inconsistent offset first second =>
    "offset " ++ Text.offset offset ++ " reached with depth " ++ toString first ++ " and " ++
      toString second
  | unbalancedReturn offset depth =>
    "RETURN at " ++ Text.offset offset ++ " leaves " ++ toString depth ++ " values on the stack"
  | invalidInstruction offset => "invalid instruction at " ++ Text.offset offset
  | fallsOffEnd offset =>
    "execution falls off the end of the chunk after " ++ Text.offset offset

end DepthError

/-- The depth before each offset that some path reaches, and the greatest depth on any path. -/
structure DepthReport where
  depths : Array (Option Int)
  maxDepth : Int

namespace DepthReport

/-- The reached offsets with their depths, in order. -/
def entries (r : DepthReport) : List (Nat × Int) :=
  r.depths.toList.zipIdx.filterMap fun (depth, offset) => depth.map (offset, ·)

end DepthReport

namespace Chunk

/-- The offsets at which execution may continue after an instruction. -/
def successors (offset : Nat) (i : Instruction) : List Nat :=
  let next := offset + i.size
  match i.opcode, target? offset i with
  | .ret, _ => []
  | .jumpIfFalse, some target => [next, target]
  | _, some target => [target]
  | _, none => [next]

/-- Checks an instruction that is reached with a depth, and gives the depth behind it and the
offsets that follow. -/
def checkDepth (c : Chunk Value) (offset : Nat) (depth : Int) :
    Except DepthError (Int × List Nat) :=
  match c.instruction? offset with
  | none => .error (.invalidInstruction offset)
  | some i =>
    if depth < i.inputs then .error (.underflow offset i.opcode i.inputs depth)
    else if i.opcode = .ret ∧ depth ≠ 1 then .error (.unbalancedReturn offset depth)
    else
      let next := successors offset i
      if next.all (· < c.size) then .ok (depth + i.effect, next) else .error (.fallsOffEnd offset)

theorem countP_isNone_set_lt {depths : Array (Option Int)} {offset : Nat} {depth : Int}
    (h : offset < depths.size) (hd : depths[offset] = none) :
    (depths.set offset (some depth) h).countP Option.isNone < depths.countP Option.isNone := by
  have : 0 < depths.countP Option.isNone :=
    Array.countP_pos_iff.2 ⟨depths[offset], Array.getElem_mem h, by simp [hd]⟩
  rw [Array.countP_set h, hd]
  simp only [Option.isNone_none, Option.isNone_some, if_true, Bool.false_eq_true, if_false]
  omega

/-- Follows the paths that are still to be taken, each an offset with the depth on arrival. -/
def follow (c : Chunk Value) (depths : Array (Option Int)) (maxDepth : Int)
    (paths : List (Nat × Int)) : Except DepthError DepthReport :=
  match paths with
  | [] => .ok ⟨depths, maxDepth⟩
  | (offset, depth) :: rest =>
    if h : offset < depths.size then
      match hd : depths[offset] with
      | some seen =>
        if seen = depth then c.follow depths maxDepth rest
        else .error (.inconsistent offset seen depth)
      | none =>
        match c.checkDepth offset depth with
        | .error e => .error e
        | .ok (after, next) =>
          c.follow (depths.set offset (some depth) h) (max (max maxDepth after) depth)
            ((next.map (·, after)).reverse ++ rest)
    else .error (.invalidInstruction offset)
termination_by (depths.countP Option.isNone, paths.length)
decreasing_by
  · exact Prod.Lex.right _ (by simp)
  · exact Prod.Lex.left _ _ (countP_isNone_set_lt h hd)

/-- The depths on all paths from the start of a chunk with an empty stack. -/
def depths (c : Chunk Value) : Except DepthError DepthReport :=
  c.follow (Array.replicate c.size none) 0 [(0, 0)]

end Chunk

end StackCode
