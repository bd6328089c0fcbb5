import StackCode.Trap

/-! # The storage of collections

A collection is an instance whose properties hold its size and pointers to blocks. These operations
read such properties and the slots behind the pointers.
-/

namespace StackCode

/-- Operations of the machine on the heap. What was done before a failure stays done. -/
abbrev Host := EStateM Failure Heap

namespace Host

variable {α : Type}

def trap (cause : Cause) : Host α := throw (.trap cause)

def fault : Host α := throw .fault

/-- An access to the heap, whose errors are traps. -/
def access (a : Heap.Access α) : Host α := fun h =>
  match a h with
  | .ok v h => .ok v h
  | .error e h => .error (.trap (.ofHeapError e)) h

end Host

namespace Collection

def minCapacity : Nat := 4

def sizeValue (n : Nat) : Value := .int (Int64.ofNat n)

def slotOf (p : Pointer) (i : Nat) : Host Pointer :=
  if p.offset + i < UInt64.size then pure { p with offset := p.offset + i } else Host.fault

def load (p : Pointer) (i : Nat) : Host Value := do Host.access (Heap.load (← slotOf p i))

def store (p : Pointer) (i : Nat) (v : Value) : Host Unit := do
  Host.access (Heap.store (← slotOf p i) v)

def setField (ref : Handle) (offset : Nat) (v : Value) : Host Unit :=
  Host.access (Heap.setField ref offset v)

def sizeField (ref : Handle) (offset : Nat) : Host Nat := do
  match ← Host.access (Heap.getField ref offset) with
  | .int n =>
    if 0 ≤ n.toInt then pure n.toInt.toNat
    else Host.trap (.internal ("negative collection size " ++ toString n.toInt))
  | other => Host.trap (.typeMismatch "collection size" "int" other.typeName)

def pointerField (ref : Handle) (offset : Nat) : Host Pointer := do
  match ← Host.access (Heap.getField ref offset) with
  | .pointer p => pure p
  | other => Host.trap (.typeMismatch "collection storage" "pointer" other.typeName)

def checkedIndex (index : Value) (size : Nat) : Host Nat :=
  match index with
  | .int n =>
    if 0 ≤ n.toInt ∧ n.toInt.toNat < size then pure n.toInt.toNat
    else Host.trap (.indexOutOfBounds n size)
  | other => Host.trap (.typeMismatch "array index" "int" other.typeName)

def storeAll (p : Pointer) (i : Nat) : List Value → Host Unit
  | [] => pure ()
  | v :: vs => do
    store p i v
    storeAll p (i + 1) vs

/-- The first of so many successive slots that holds a value. -/
def findSlot (p : Pointer) (v : Value) (i : Nat) : Nat → Host (Option Nat)
  | 0 => pure none
  | n + 1 => do
    if (← load p i) == v then pure (some i) else findSlot p v (i + 1) n

/-- Copies so many successive slots from one block to the same places in another. -/
def copySlots (source target : Pointer) (i : Nat) : Nat → Host Unit
  | 0 => pure ()
  | n + 1 => do
    store target i (← load source i)
    copySlots source target (i + 1) n

/-- Moves so many successive slots one place down. -/
def shiftDown (p : Pointer) (i : Nat) : Nat → Host Unit
  | 0 => pure ()
  | n + 1 => do
    store p (i - 1) (← load p i)
    shiftDown p (i + 1) n

/-- The next capacity of a full collection: twice as many slots, but no more than a block may have
as long as this is an increase. -/
def grownCapacity (limit capacity : Nat) : Nat :=
  let doubled := max (min (2 * capacity) (UInt64.size - 1)) minCapacity
  if doubled > limit ∧ capacity < limit then limit else doubled

/-- Moves the first slots of a block to a new one of the given capacity and frees the old one. -/
def reallocate (old : Pointer) (count capacity : Nat) : Host Pointer := do
  let new ← Host.access (Heap.newBlock capacity)
  copySlots old new 0 count
  Host.access (Heap.freeBlock old)
  pure new

end Collection

end StackCode
