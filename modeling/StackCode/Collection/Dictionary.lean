import StackCode.Collection.Storage

/-! # Dictionaries

A dictionary keeps its keys and its values in the first slots of two blocks. The last entry takes
the place of one that is removed.
-/

namespace StackCode.Collection.Dictionary

def keysField : Nat := 0

def valuesField : Nat := 1

def countField : Nat := 2

def capacityField : Nat := 3

/-- The blocks with room for one more entry. -/
def ensureRoom (ref : Handle) (keys values : Pointer) (count capacity : Nat) :
    Host (Pointer × Pointer) := do
  if count = capacity then
    let grown := grownCapacity (← get).maxBlockSlots capacity
    let keys ← reallocate keys count grown
    let values ← reallocate values count grown
    setField ref keysField (.pointer keys)
    setField ref valuesField (.pointer values)
    setField ref capacityField (sizeValue grown)
    pure (keys, values)
  else pure (keys, values)

def set (ref : Handle) (key v : Value) : Host Unit := do
  let count ← sizeField ref countField
  let keys ← pointerField ref keysField
  let values ← pointerField ref valuesField
  match ← findSlot keys key 0 count with
  | some slot => store values slot v
  | none =>
    let capacity ← sizeField ref capacityField
    let (keys, values) ← ensureRoom ref keys values count capacity
    store keys count key
    store values count v
    setField ref countField (sizeValue (count + 1))

def setAll (ref : Handle) : List (Value × Value) → Host Unit
  | [] => pure ()
  | (key, v) :: entries => do
    set ref key v
    setAll ref entries

/-- A dictionary with the given entries, of which a later one replaces an earlier one of the same
key. -/
def create (type : StructType) (entries : List (Value × Value)) : Host Value := do
  let capacity := max entries.length minCapacity
  let keys ← Host.access (Heap.newBlock capacity)
  let values ← Host.access (Heap.newBlock capacity)
  let ref ← Host.access (Heap.newObject type)
  setField ref keysField (.pointer keys)
  setField ref valuesField (.pointer values)
  setField ref countField (sizeValue 0)
  setField ref capacityField (sizeValue capacity)
  setAll ref entries
  pure (.object ref)

/-- The slots in which a key is looked for: the keys and their number. -/
def extent (ref : Handle) : Host (Pointer × Nat) := do
  let count ← sizeField ref countField
  pure (← pointerField ref keysField, count)

/-- The value of a key, or `none` if the key is not there. -/
def get (ref : Handle) (key : Value) : Host Value := do
  let (keys, count) ← extent ref
  match ← findSlot keys key 0 count with
  | some slot => load (← pointerField ref valuesField) slot
  | none => pure .none

def remove (ref : Handle) (key : Value) : Host Value := do
  let (keys, count) ← extent ref
  match ← findSlot keys key 0 count with
  | none => pure .none
  | some slot =>
    let values ← pointerField ref valuesField
    let removed ← load values slot
    let last := count - 1
    if slot ≠ last then
      let lastKey ← load keys last
      let lastValue ← load values last
      store keys slot lastKey
      store values slot lastValue
    setField ref countField (sizeValue last)
    pure removed

end StackCode.Collection.Dictionary
