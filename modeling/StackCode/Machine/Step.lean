import StackCode.Machine.Arithmetic
import StackCode.Machine.Builtin
import StackCode.Machine.State

/-! # One step of the machine

Fetches the instruction at the offset of the running frame and executes it.
-/

namespace StackCode.Machine

/-! ## The stack -/

def push (p : Program) (v : Value) : Exec Unit := fun s =>
  if s.stack.size < p.limits.maxStack then .ok () { s with stack := s.stack.push v }
  else .error (.trap .stackOverflow) s

def pop : Exec Value := fun s =>
  match s.stack.back? with
  | some v => .ok v { s with stack := s.stack.pop }
  | none => .error (.trap .stackUnderflow) s

def peek : Exec Value := fun s =>
  match s.stack.back? with
  | some v => .ok v s
  | none => .error (.trap .stackUnderflow) s

/-- Takes the values above a height off the stack, in the order in which they were pushed. -/
def cutAbove (height : Nat) : Exec (List Value) := fun s =>
  let values := (s.stack.extract height s.stack.size).toList
  .ok values { s with stack := s.stack.shrink height }

def popMany (n : Nat) : Exec (List Value) := do
  let size := (← get).stack.size
  if n ≤ size then cutAbove (size - n) else Exec.trap .stackUnderflow

/-- The height at which the callee or receiver stands below so many arguments. -/
def calleeHeight (args : Nat) : Exec Nat := do
  let size := (← get).stack.size
  if args + 1 ≤ size then pure (size - (args + 1)) else Exec.trap .stackUnderflow

def valueAt (height : Nat) : Exec Value := do
  Exec.ofOption (← get).stack[height]? .stackUnderflow

/-! ## Locals and captures -/

def modifyFrame (f : Frame → Frame) : Exec Unit :=
  modify fun s => { s with frame := f s.frame }

def getLocal (i : Nat) : Exec Value := do
  match (← get).frame.slot i with
  | .value v => pure v
  | .cell c => Exec.access (Heap.readCell c)
  | .empty => Exec.trap (.internal ("read of unbound local slot " ++ toString i))

/-- Writes a local through its cell, if it has one. -/
def setLocal (i : Nat) (v : Value) : Exec Unit := do
  match (← get).frame.slot i with
  | .cell c => Exec.access (Heap.writeCell c v)
  | _ => modifyFrame (·.setSlot i (.value v))

/-- The cell of a local, which moves into one if it is not in one yet. -/
def promote (i : Nat) : Exec Handle := do
  match (← get).frame.slot i with
  | .cell c => pure c
  | .value v => bindCell v
  | .empty => bindCell .none
where
  bindCell (v : Value) : Exec Handle := do
    let c ← Exec.access (Heap.newCell v)
    modifyFrame (·.setSlot i (.cell c))
    pure c

def captured (i : Nat) : Exec Handle := do
  Exec.ofOption (← get).frame.closure.cells[i]?
    (.internal ("capture index " ++ toString i ++ " out of range"))

/-- The cells of the captures of a new closure. -/
def captureAll : List Capture → Array Handle → Exec (Array Handle)
  | [], cells => pure cells
  | capture :: rest, cells => do
    let cell ← match capture.source with
      | .slot i => promote i.toNat
      | .capture i => captured i.toNat
    captureAll rest (cells.push cell)

/-! ## Calls -/

def resolveChunk (p : Program) (s : Symbol) : Exec (Chunk Value) :=
  Exec.ofOption (p.chunk? s) (.unresolvedSymbol s.text)

/-- A closure over a body of a module, which captures nothing. -/
def plainClosure (chunk : Chunk Value) (s : Symbol) : Closure Value :=
  { id := .function s, chunk }

/-- Enters a body with its receiver, if it is a method, and its arguments in the first slots. -/
def enter (p : Program) (closure : Closure Value) (base : Nat) (args : List Value)
    (receiver : Option Handle) : Exec Unit := do
  let chunk := closure.chunk
  if args.length ≠ chunk.arity.toNat then
    Exec.trap (.arityMismatch chunk.name chunk.arity (UInt8.ofNat args.length))
  else if p.limits.maxFrames ≤ (← get).callers.size + 1 then Exec.trap .stackOverflow
  else
    let frame := Frame.enter closure base
    if chunk.hasReceiver then
      match receiver with
      | none => Exec.trap (.internal (chunk.name ++ " called without a receiver"))
      | some ref => start ((frame.setSlot 0 (.value (.object ref))).setSlots 1 args)
    else start (frame.setSlots 0 args)
where
  start (frame : Frame) : Exec Unit :=
    modify fun s => { s with frame, callers := s.callers.push s.frame }

/-- Replaces the values from a height on by the result of an operation on the heap. -/
def replaceAbove (p : Program) (height : Nat) (op : Host Value) : Exec Unit := do
  modify fun s => { s with stack := s.stack.shrink height }
  push p (← Exec.host op)

/-- Calls a method on the instance that stands at a height below its arguments. -/
def callMethod (p : Program) (ref : Handle) (method : Symbol) (height : Nat) : Exec Unit := do
  let args ← cutAbove (height + 1)
  if method.isStandard then replaceAbove p height (Collection.invoke method ref args)
  else
    let chunk ← resolveChunk p method
    enter p (plainClosure chunk method) height args (some ref)

/-- Makes an instance of the struct that stands at a height below its arguments. -/
def construct (p : Program) (type : StructType) (height : Nat) : Exec Unit := do
  let args ← cutAbove (height + 1)
  if type.symbol.isStandard then
    replaceAbove p height (Collection.construct p.types type.name args)
  else
    let ref ← Exec.access (Heap.newObject type)
    match type.initializer with
    | some init =>
      let chunk ← resolveChunk p init
      enter p (plainClosure chunk init) height args (some ref)
    | none =>
      match args with
      | [] => replaceAbove p height (pure (.object ref))
      | _ => Exec.trap (.arityMismatch type.name 0 (UInt8.ofNat args.length))

def callBuiltin (p : Program) (b : Builtin) (height : Nat) (count : UInt8) : Exec Unit := do
  if count.toNat ≠ b.arity then
    Exec.trap (.arityMismatch b.name (UInt8.ofNat b.arity) count)
  else
    let args ← cutAbove (height + 1)
    modify fun s => { s with stack := s.stack.shrink height }
    let (v, printed) ← Exec.host (b.apply args)
    match printed with
    | some line => modify fun s => { s with output := s.output.push line }
    | none => pure ()
    push p v

/-- Gives a constructor its values. -/
def callCase (p : Program) (case : EnumCase Value) (height : Nat) (count : UInt8) : Exec Unit := do
  if count ≠ case.arity then
    Exec.trap (.arityMismatch (Value.enumCase case).text case.arity count)
  else
    let values ← cutAbove (height + 1)
    replaceAbove p height (pure (.enumCase { case with values }))

/-- Calls the value that stands below so many arguments. -/
def callValue (p : Program) (count : UInt8) : Exec Unit := do
  let height ← calleeHeight count.toNat
  match ← valueAt height with
  | .closure c => enter p c height (← cutAbove (height + 1)) none
  | .boundMethod ref method => callMethod p ref method height
  | .struct type => construct p type height
  | .builtin b => callBuiltin p b height count
  | .enumCase case =>
    if case.isConstructor then callCase p case height count
    else Exec.trap (.notCallable (Value.enumCase case).typeName)
  | v => Exec.trap (.notCallable v.typeName)

def expectObject (operation : String) : Value → Exec Handle
  | .object ref => pure ref
  | v => Exec.trap (.typeMismatch operation "instance" v.typeName)

/-! ## Instructions -/

def fetchFailure (c : Chunk Value) (offset : Nat) : Cause :=
  match c.byteAt? offset with
  | none => .internal "execution ran past the end of the chunk"
  | some byte =>
    match Opcode.ofByte? byte with
    | none => .invalidOpcode byte
    | some op =>
      match op.layout, c.wordAt? (offset + 1) with
      | .invoke, some index | .case, some index =>
        if (c.symbol? index).isSome then .internal "truncated instruction operand"
        else .internal ("symbol index " ++ toString index ++ " out of range")
      | _, _ => .internal "truncated instruction operand"

/-- The next instruction, behind which the frame moves. -/
def fetch : Exec Instruction := fun s =>
  let offset := s.frame.next
  match Instruction.decode? s.frame.chunk.code offset with
  | some i =>
    .ok i { s with current := offset, frame := { s.frame with next := offset + i.size } }
  | none =>
    .error (.trap (fetchFailure s.frame.chunk offset)) { s with current := offset }

def constantAt (index : UInt16) : Exec Value := do
  Exec.ofOption ((← get).frame.chunk.constant? index)
    (.internal ("constant index " ++ toString index ++ " out of range"))

def symbolAt (index : UInt16) : Exec Symbol := do
  Exec.ofOption ((← get).frame.chunk.symbol? index)
    (.internal ("symbol index " ++ toString index ++ " out of range"))

def jump (distance : Int16) : Exec Unit := do
  let target := (← get).frame.next + distance.toInt
  if 0 ≤ target then modifyFrame ({ · with next := target.toNat })
  else Exec.trap (.internal ("jump by " ++ toString distance.toInt ++ " leaves the chunk"))

/-- The value of a module, which its initializer computes and leaves on the stack when it is first
read. -/
def getModuleValue (p : Program) (symbol : Symbol) : Exec Unit := do
  match (← get).values.get? symbol with
  | some v => push p v
  | none =>
    let chunk ← Exec.ofOption (p.initializer? symbol) (.unresolvedSymbol symbol.text)
    enter p (plainClosure chunk symbol) (← get).stack.size [] none

def makeClosure (p : Program) (symbol : Symbol) : Exec Unit := do
  let chunk ← resolveChunk p symbol
  let cells ← captureAll chunk.captures.toList #[]
  let n := (← get).closures
  modify fun s => { s with closures := n + 1 }
  push p (.closure { id := .made n, chunk, cells })

def arithmetic (p : Program) (op : Arithmetic.Operation) : Exec Unit := do
  let b ← pop
  let a ← pop
  push p (← Exec.ofExcept (Arithmetic.binary op a b))

/-- Pairs up keys and values that stand in turn. -/
def pairs : List Value → List (Value × Value)
  | key :: v :: rest => (key, v) :: pairs rest
  | _ => []

/-- Whether a value is a complete case of the given enum and number. -/
def isCase (owner : Symbol) (index : UInt8) : Value → Bool
  | .enumCase case => case.owner == owner && case.index == index.toUInt32 && !case.isConstructor
  | _ => false

def associated (index : UInt8) (v : Value) : Exec Value :=
  match v with
  | .enumCase case =>
    Exec.ofOption case.values[index.toNat]?
      (.indexOutOfBounds (Int64.ofNat index.toNat) case.values.length)
  | _ => Exec.trap (.typeMismatch "associated value access" "enum case" v.typeName)

/-- Leaves the running frame with a result. The result of the outermost frame is that of the
program. -/
def leave (p : Program) (v : Value) : Exec (Option Value) := do
  let s ← get
  match s.callers.back? with
  | none => return some v
  | some caller =>
    set { s with frame := caller, callers := s.callers.pop, stack := s.stack.shrink s.frame.base }
    push p v
    return none

/-- Executes an instruction other than a return. -/
def execute (p : Program) : Instruction → Exec Unit
  | ⟨.constant, index⟩ => do push p (← constantAt index)
  | ⟨.pushNone, _⟩ => push p .none
  | ⟨.pushTrue, _⟩ => push p (.bool true)
  | ⟨.pushFalse, _⟩ => push p (.bool false)
  | ⟨.pop, _⟩ => do let _ ← pop
  | ⟨.getLocal, i⟩ => do push p (← getLocal i.toNat)
  | ⟨.setLocal, i⟩ => do setLocal i.toNat (← peek)
  | ⟨.defineLocal, i⟩ => do
    let v ← pop
    modifyFrame (·.setSlot i.toNat (.value v))
  | ⟨.defineCell, i⟩ => do
    let c ← Exec.access (Heap.newCell (← pop))
    modifyFrame (·.setSlot i.toNat (.cell c))
  | ⟨.getCapture, i⟩ => do push p (← Exec.access (Heap.readCell (← captured i.toNat)))
  | ⟨.setCapture, i⟩ => do
    let c ← captured i.toNat
    Exec.access (Heap.writeCell c (← peek))
  | ⟨.getModuleValue, index⟩ => do getModuleValue p (← symbolAt index)
  | ⟨.setModuleValue, index⟩ => do
    let symbol ← symbolAt index
    let v ← peek
    modify fun s => { s with values := s.values.insert symbol v }
  | ⟨.getModuleFunction, index⟩ => do
    let symbol ← symbolAt index
    push p (.closure (plainClosure (← resolveChunk p symbol) symbol))
  | ⟨.getStruct, index⟩ => do
    let symbol ← symbolAt index
    push p (.struct (← Exec.ofOption (p.structType? symbol) (.unresolvedSymbol symbol.text)))
  | ⟨.getBuiltin, index⟩ => do
    let symbol ← symbolAt index
    push p (.builtin (← Exec.ofOption (Builtin.ofSymbol? symbol) (.unresolvedSymbol symbol.text)))
  | ⟨.getSelf, _⟩ => do
    if (← get).frame.chunk.hasReceiver then push p (← getLocal 0)
    else Exec.trap (.internal "self read outside a method")
  | ⟨.makeClosure, index⟩ => do makeClosure p (← symbolAt index)
  | ⟨.call, count⟩ => callValue p count
  | ⟨.callChunk, index⟩ => do
    let symbol ← symbolAt index
    let chunk ← resolveChunk p symbol
    enter p (plainClosure chunk symbol) (← get).stack.size [] none
  | ⟨.invokeMethod, ⟨index, count⟩⟩ => do
    let method ← symbolAt index
    let height ← calleeHeight count.toNat
    let ref ← expectObject "method call" (← valueAt height)
    callMethod p ref method height
  | ⟨.getMethod, index⟩ => do
    let method ← symbolAt index
    let ref ← expectObject "method access" (← pop)
    push p (.boundMethod ref method)
  | ⟨.ret, _⟩ => pure ()
  | ⟨.getProperty, offset⟩ => do
    let ref ← expectObject "property access" (← pop)
    push p (← Exec.access (Heap.getField ref offset.toNat))
  | ⟨.setProperty, offset⟩ => do
    let ref ← expectObject "property assignment" (← pop)
    Exec.access (Heap.setField ref offset.toNat (← peek))
  | ⟨.initArray, count⟩ => do
    let elements ← popMany count.toNat
    push p (← Exec.host (Collection.Array.create p.types.array elements))
  | ⟨.initDict, count⟩ => do
    let entries ← popMany (count.toNat * 2)
    push p (← Exec.host (Collection.Dictionary.create p.types.dictionary (pairs entries)))
  | ⟨.get, _⟩ => do
    let index ← pop
    let receiver ← pop
    push p (← Exec.host (Collection.subscript receiver index))
  | ⟨.setSubscript, _⟩ => do
    let index ← pop
    let receiver ← pop
    Exec.host (Collection.setSubscript receiver index (← peek))
  | ⟨.add, _⟩ => arithmetic p .add
  | ⟨.subtract, _⟩ => arithmetic p .subtract
  | ⟨.multiply, _⟩ => arithmetic p .multiply
  | ⟨.divide, _⟩ => arithmetic p .divide
  | ⟨.modulo, _⟩ => arithmetic p .modulo
  | ⟨.less, _⟩ => arithmetic p .less
  | ⟨.greater, _⟩ => arithmetic p .greater
  | ⟨.lessEqual, _⟩ => arithmetic p .lessEqual
  | ⟨.greaterEqual, _⟩ => arithmetic p .greaterEqual
  | ⟨.negate, _⟩ => do push p (← Exec.ofExcept (Arithmetic.negate (← pop)))
  | ⟨.not, _⟩ => do push p (.bool (!(← pop).isTruthy))
  | ⟨.equal, _⟩ => do
    let b ← pop
    push p (.bool ((← pop) == b))
  | ⟨.notEqual, _⟩ => do
    let b ← pop
    push p (.bool ((← pop) != b))
  | ⟨.jump, distance⟩ => jump distance
  | ⟨.loop, distance⟩ => jump distance
  | ⟨.jumpIfFalse, distance⟩ => do
    if !(← pop).isTruthy then jump distance
  | ⟨.matchCase, ⟨index, number⟩⟩ => do
    let owner ← symbolAt index
    push p (.bool (isCase owner number (← pop)))
  | ⟨.getAssociated, index⟩ => do push p (← associated index (← pop))

/-- One step: the result of the program, if this step gives it. -/
def step (p : Program) : Exec (Option Value) := do
  let i ← fetch
  if i.opcode = .ret then leave p (← pop)
  else
    execute p i
    return none

end StackCode.Machine
