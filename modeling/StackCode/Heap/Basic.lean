import StackCode.Heap.Arena

/-! # The heap

Cells hold the variables that closures share, objects the properties of instances, and blocks the
slots that pointers address. Only blocks are ever freed.
-/

namespace StackCode

inductive HandleUse where
  | cell
  | object
  | block
deriving DecidableEq, Repr

inductive HeapError where
  | danglingHandle (use : HandleUse)
  | uninitializedProperty (type property : String)
  | noSuchProperty (type : String) (offset : Nat)
  | outOfBounds (offset capacity : Nat)
  | uninitializedSlot (offset : Nat)
  | blockTooLarge (requested limit : Nat)
deriving DecidableEq, Repr

namespace HandleUse

def text : HandleUse → String
  | cell => "cell"
  | object => "instance"
  | block => "pointer"

end HandleUse

namespace HeapError

def message : HeapError → String
  | danglingHandle use => "use of a freed or invalid " ++ use.text ++ " handle"
  | uninitializedProperty type property =>
    "property '" ++ property ++ "' of " ++ type ++ " read before initialization"
  | noSuchProperty type offset =>
    "property offset " ++ toString offset ++ " out of range for " ++ type
  | outOfBounds offset capacity =>
    "pointer offset " ++ toString offset ++ " outside block of " ++ toString capacity ++ " slots"
  | uninitializedSlot offset =>
    "pointer slot " ++ toString offset ++ " read before it was stored"
  | blockTooLarge requested limit =>
    "block of " ++ toString requested ++ " slots exceeds the limit of " ++ toString limit

end HeapError

/-- An instance of a struct. A property is empty until it is first stored. -/
structure Object where
  type : StructType
  fields : Array (Option Value)

/-- A block of slots. A slot is empty until it is first stored. -/
abbrev Block := Array (Option Value)

structure Heap where
  cells : Arena Value := {}
  objects : Arena Object := {}
  blocks : Arena Block := {}
  maxBlockSlots : Nat

namespace Heap

def defaultMaxBlockSlots : Nat := 1048576

instance : Inhabited Heap := ⟨{ maxBlockSlots := defaultMaxBlockSlots }⟩

/-- Operations on a heap that may fail; what was done before a failure stays done. -/
abbrev Access := EStateM HeapError Heap

def newCell (v : Value) : Access Handle := fun h =>
  let (cell, cells) := h.cells.insert v
  .ok cell { h with cells }

def readCell (cell : Handle) : Access Value := fun h =>
  match h.cells.get? cell with
  | some v => .ok v h
  | none => .error (.danglingHandle .cell) h

def writeCell (cell : Handle) (v : Value) : Access Unit := fun h =>
  if h.cells.contains cell then .ok () { h with cells := h.cells.modify cell fun _ => v }
  else .error (.danglingHandle .cell) h

/-- Makes an instance whose properties are all empty. -/
def newObject (type : StructType) : Access Handle := fun h =>
  let (ref, objects) := h.objects.insert ⟨type, Array.replicate type.propertyCount none⟩
  .ok ref { h with objects }

def object (ref : Handle) : Access Object := fun h =>
  match h.objects.get? ref with
  | some object => .ok object h
  | none => .error (.danglingHandle .object) h

def getField (ref : Handle) (offset : Nat) : Access Value := fun h =>
  match h.objects.get? ref with
  | none => .error (.danglingHandle .object) h
  | some object =>
    match object.fields[offset]? with
    | some (some v) => .ok v h
    | some none =>
      let property := object.type.properties[offset]?.getD ""
      .error (.uninitializedProperty object.type.name property) h
    | none => .error (.noSuchProperty object.type.name offset) h

def setField (ref : Handle) (offset : Nat) (v : Value) : Access Unit := fun h =>
  match h.objects.get? ref with
  | none => .error (.danglingHandle .object) h
  | some object =>
    if offset < object.fields.size then
      let write (object : Object) : Object :=
        { object with fields := object.fields.setIfInBounds offset (some v) }
      .ok () { h with objects := h.objects.modify ref write }
    else .error (.noSuchProperty object.type.name offset) h

/-- Makes a block of empty slots and gives a pointer to the first one. -/
def newBlock (capacity : Nat) : Access Pointer := fun h =>
  if capacity ≤ h.maxBlockSlots then
    let (block, blocks) := h.blocks.insert (Array.replicate capacity none)
    .ok ⟨block, 0⟩ { h with blocks }
  else .error (.blockTooLarge capacity h.maxBlockSlots) h

def capacity (p : Pointer) : Access Nat := fun h =>
  match h.blocks.get? p.block with
  | some block => .ok block.size h
  | none => .error (.danglingHandle .block) h

def load (p : Pointer) : Access Value := fun h =>
  match h.blocks.get? p.block with
  | none => .error (.danglingHandle .block) h
  | some block =>
    match block[p.offset]? with
    | some (some v) => .ok v h
    | some none => .error (.uninitializedSlot p.offset) h
    | none => .error (.outOfBounds p.offset block.size) h

def store (p : Pointer) (v : Value) : Access Unit := fun h =>
  match h.blocks.get? p.block with
  | none => .error (.danglingHandle .block) h
  | some block =>
    let size := block.size
    if p.offset < size then
      .ok () { h with blocks := h.blocks.modify p.block (·.setIfInBounds p.offset (some v)) }
    else .error (.outOfBounds p.offset size) h

def freeBlock (p : Pointer) : Access Unit := fun h =>
  if h.blocks.contains p.block then .ok () { h with blocks := h.blocks.erase p.block }
  else .error (.danglingHandle .block) h

end Heap

end StackCode
