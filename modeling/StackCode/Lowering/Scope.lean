import StackCode.Lowering.Body

/-! # Lexical addressing

A name is a slot of the body that uses it, or a capture that leads through the bodies in between to
a slot of an enclosing one. A slot that is captured becomes a cell.
-/

namespace StackCode.Lowering

inductive Storage where
  | slot (n : UInt8)
  | capture (n : UInt8)
deriving DecidableEq, Repr

/-- The outcome of a search for a capture. -/
inductive Found where
  | capture (n : UInt8)
  /-- No enclosing body binds the name. -/
  | unbound
  /-- A body on the way has no room for another capture. -/
  | full

namespace Body

def addCapture? (b : Body) (name : String) (source : CaptureSource) : Option (UInt8 × Body) :=
  let captures := b.chunk.captures
  if captures.size < maxCaptures then
    some (UInt8.ofNat captures.size,
      { b with chunk := { b.chunk with captures := captures.push ⟨name, source⟩ } })
  else none

def addCell (b : Body) (slot : UInt8) : Body :=
  if b.cells.contains slot then b else { b with cells := slot :: b.cells }

/-- Finds a name as a capture of a body, and records it there and in the bodies in between. -/
def findCapture (name : String) (b : Body) : List Body → Found × Body × List Body
  | [] =>
    match b.capture? name with
    | some i => (.capture (UInt8.ofNat i), b, [])
    | none => (.unbound, b, [])
  | outer :: enclosing =>
    match b.capture? name with
    | some i => (.capture (UInt8.ofNat i), b, outer :: enclosing)
    | none =>
      let take (source : CaptureSource) (outer : Body) (enclosing : List Body) :=
        match b.addCapture? name source with
        | some (i, b) => (Found.capture i, b, outer :: enclosing)
        | none => (.full, b, outer :: enclosing)
      match outer.slot? name with
      | some slot => take (.slot slot) (outer.addCell slot) enclosing
      | none =>
        match findCapture name outer enclosing with
        | (.capture i, outer, enclosing) => take (.capture i) outer enclosing
        | (failure, outer, enclosing) => (failure, b, outer :: enclosing)

end Body

/-- Finds where a name is stored, if it is bound lexically. -/
def storage? (name : String) (loc : Location) : Build (Code × Option Storage) := do
  let s ← get
  match s.body.slot? name with
  | some slot => return (.skip, some (.slot slot))
  | none =>
    let (found, body, enclosing) := s.body.findCapture name s.enclosing
    set { s with body, enclosing }
    match found with
    | .capture i => return (.skip, some (.capture i))
    | .unbound => return (.skip, none)
    | .full => return (← report .tooManyCaptures loc, none)

/-- Whether a body around this point binds a name. -/
def isLexical (name : String) : Build Bool := do
  let s ← get
  return (s.body :: s.enclosing).any (·.binds name)

/-- What a name that is not bound lexically stands for in the module. -/
def global? (name : String) : Build (Option Global) := do
  if ← isLexical name then return none
  return (← read).space.resolve? name

def namedEnum? (e : Expr) : Build (Option EnumType) := do
  let .var name := e.kind | return none
  let some (.enum symbol) ← global? name | return none
  return (← read).space.enumType? symbol

/-- The names of the parameters of a callee that is known by its name. -/
def calleeParams? (callee : Expr) : Build (Option (List String)) := do
  let .var name := callee.kind | return none
  let space := (← read).space
  match ← global? name with
  | some (.struct symbol) => return (space.structType? symbol).map (·.initParams)
  | some (.function symbol) => return space.params? symbol
  | _ => return none

def propertyOperand (offset : Nat) : UInt8 := UInt8.ofNat (min offset 255)

def load (name : String) (loc : Location) : Build Code := do
  let (problem, storage) ← storage? name loc
  let load ← match storage with
    | some (.slot n) => pure (.instr loc.line ⟨.getLocal, n⟩)
    | some (.capture n) => pure (.instr loc.line ⟨.getCapture, n⟩)
    | none =>
      match (← read).space.resolve? name with
      | some (.function symbol) => refer symbol loc (⟨.getModuleFunction, ·⟩)
      | some (.value symbol) => refer symbol loc (⟨.getModuleValue, ·⟩)
      | some (.struct symbol) => refer symbol loc (⟨.getStruct, ·⟩)
      | some (.enum _) => substitute (.typeUsedAsValue name) loc
      | none =>
        match Builtin.ofName? name with
        | some b => refer b.symbol loc (⟨.getBuiltin, ·⟩)
        | none => substitute (.unresolvedSymbol name) loc
  return problem ++ load

def store (name : String) (loc : Location) : Build Code := do
  let (problem, storage) ← storage? name loc
  let code ← match storage with
    | some (.slot n) => pure (.instr loc.line ⟨.setLocal, n⟩)
    | some (.capture n) => pure (.instr loc.line ⟨.setCapture, n⟩)
    | none =>
      match (← read).space.resolve? name with
      | some (.value symbol) => refer symbol loc (⟨.setModuleValue, ·⟩)
      | some _ => report .invalidAssignmentTarget loc
      | none => report (.unresolvedSymbol name) loc
  return problem ++ code

/-- Loads the receiver of a method, which a function nested in the method captures. -/
def receiver (loc : Location) : Build Code := do
  let s ← get
  if s.body.kind.hasReceiver then return .instr loc.line ⟨.getSelf, ()⟩
  let (problem, storage) ← storage? "self" loc
  let load ← match storage with
    | some (.capture n) =>
      if s.enclosing.any (·.kind.hasReceiver) then pure (.instr loc.line ⟨.getCapture, n⟩)
      else substitute .selfOutsideMethod loc
    | _ => substitute .selfOutsideMethod loc
  return problem ++ load

end StackCode.Lowering
