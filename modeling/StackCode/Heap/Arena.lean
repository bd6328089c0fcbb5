import StackCode.Value.Basic

/-! # Arenas

Storage in slots that are used again. A handle denotes the value that was stored under it until the
value is removed; the slot then moves on to its next generation and waits in the list of free
slots.
-/

namespace StackCode

structure ArenaSlot (α : Type) where
  generation : UInt32
  content : Option α

structure Arena (α : Type) where
  slots : Array (ArenaSlot α) := #[]
  /-- The empty slots, the one that was emptied last before the others. -/
  free : List UInt32 := []
  /-- How many values are stored. -/
  live : Nat := 0

namespace Arena

variable {α : Type}

instance : Inhabited (Arena α) := ⟨{}⟩

def size (a : Arena α) : Nat := a.live

def isEmpty (a : Arena α) : Bool := a.size == 0

/-- Stores a value in the slot that was emptied last, or else in a new one. Only the first 2^32 new
slots get a handle of their own. -/
def insert (a : Arena α) (v : α) : Handle × Arena α :=
  let live := a.live + 1
  match a.free with
  | [] => (⟨UInt32.ofNat a.slots.size, 0⟩, { a with slots := a.slots.push ⟨0, some v⟩, live })
  | index :: free =>
    let generation := (a.slots[index.toNat]?.map (·.generation)).getD 0
    let slots := a.slots.modify index.toNat ({ · with content := some v })
    (⟨index, generation⟩, { slots, free, live })

/-- The value of a handle, if it has not been removed. -/
def get? (a : Arena α) (h : Handle) : Option α := do
  let slot ← a.slots[h.index.toNat]?
  if slot.generation == h.generation then slot.content else none

def contains (a : Arena α) (h : Handle) : Bool := (a.get? h).isSome

/-- Changes the value of a handle that `get?` finds, and nothing otherwise. -/
def modify (a : Arena α) (h : Handle) (f : α → α) : Arena α :=
  { a with slots := a.slots.modify h.index.toNat fun slot =>
      if slot.generation == h.generation then { slot with content := slot.content.map f }
      else slot }

/-- Empties the slot of a handle that `get?` finds. -/
def erase (a : Arena α) (h : Handle) : Arena α :=
  { slots := a.slots.modify h.index.toNat fun slot => ⟨slot.generation + 1, none⟩
    free := h.index :: a.free
    live := a.live - 1 }

/-- Removes the value of a handle, which denotes nothing from then on. -/
def remove (a : Arena α) (h : Handle) : Option (α × Arena α) := do
  let v ← a.get? h
  return (v, a.erase h)

end Arena

end StackCode
