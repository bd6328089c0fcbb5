import StackCode.Collection.Storage

/-! # Arrays

An array keeps its elements in the first slots of one block.
-/

namespace StackCode.Collection.Array

def storageField : Nat := 0

def countField : Nat := 1

def capacityField : Nat := 2

def create (type : StructType) (elements : List Value) : Host Value := do
  let count := elements.length
  let capacity := max count minCapacity
  let storage ← Host.access (Heap.newBlock capacity)
  storeAll storage 0 elements
  let ref ← Host.access (Heap.newObject type)
  setField ref storageField (.pointer storage)
  setField ref countField (sizeValue count)
  setField ref capacityField (sizeValue capacity)
  pure (.object ref)

/-- The storage with room for one more element. -/
def ensureRoom (ref : Handle) (storage : Pointer) (count capacity : Nat) : Host Pointer := do
  if count = capacity then
    let grown := grownCapacity (← get).maxBlockSlots capacity
    let storage ← reallocate storage count grown
    setField ref storageField (.pointer storage)
    setField ref capacityField (sizeValue grown)
    pure storage
  else pure storage

def append (ref : Handle) (v : Value) : Host Unit := do
  let count ← sizeField ref countField
  let capacity ← sizeField ref capacityField
  let storage ← ensureRoom ref (← pointerField ref storageField) count capacity
  store storage count v
  setField ref countField (sizeValue (count + 1))

def get (ref : Handle) (index : Value) : Host Value := do
  let slot ← checkedIndex index (← sizeField ref countField)
  load (← pointerField ref storageField) slot

def set (ref : Handle) (index v : Value) : Host Unit := do
  let slot ← checkedIndex index (← sizeField ref countField)
  store (← pointerField ref storageField) slot v

def remove (ref : Handle) (index : Value) : Host Value := do
  let count ← sizeField ref countField
  let slot ← checkedIndex index count
  let storage ← pointerField ref storageField
  let removed ← load storage slot
  shiftDown storage (slot + 1) (count - (slot + 1))
  setField ref countField (sizeValue (count - 1))
  pure removed

/-- The slots in which an element is looked for: the storage and their number. -/
def extent (ref : Handle) : Host (Pointer × Nat) := do
  let count ← sizeField ref countField
  pure (← pointerField ref storageField, count)

end StackCode.Collection.Array
