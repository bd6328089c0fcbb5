import StackCode.Machine.Step

/-! # Runs

A run repeats steps until the outermost frame returns or a step fails. The heap and the number of
closures carry over from one run of a machine to the next.
-/

namespace StackCode.Machine

inductive Ending where
  | value (v : Value)
  | trap (t : Trap)
  /-- An operation was used outside of its domain. -/
  | fault
  /-- The run was not finished within the given number of steps. -/
  | unfinished

/-- What of a run another one or an observer can see afterwards. -/
structure Remains where
  heap : Heap
  closures : Nat
  output : Array String

def State.remains (s : State) : Remains := ⟨s.heap, s.closures, s.output⟩

/-- Repeats steps, at most as many as given. -/
def runFrom (p : Program) (s : State) : Nat → Ending × Remains
  | 0 => (.unfinished, s.remains)
  | fuel + 1 =>
    match step p s with
    | .ok none s => runFrom p s fuel
    | .ok (some v) s => (.value v, s.remains)
    | .error (.trap cause) s => (.trap (.ofTrace cause s.trace), s.remains)
    | .error .fault s => (.fault, s.remains)

def start (p : Program) (heap : Heap) (closures : Nat) : State :=
  { frame := .enter (plainClosure p.main p.main.symbol) 0, heap, closures }

def run (p : Program) (heap : Heap) (closures fuel : Nat) : Ending × Remains :=
  runFrom p (start p heap closures) fuel

def Program.heap (p : Program) : Heap := { maxBlockSlots := p.limits.maxBlockSlots }

/-- Several runs one after the other on the same machine. -/
def runAll (p : Program) (fuel : Nat) (heap : Heap) (closures : Nat) :
    Nat → List (Ending × Remains)
  | 0 => []
  | n + 1 =>
    let (ending, remains) := run p heap closures fuel
    (ending, remains) :: runAll p fuel remains.heap remains.closures n

def runOnce (p : Program) (fuel : Nat) : Ending × Remains := run p p.heap 0 fuel

end StackCode.Machine
