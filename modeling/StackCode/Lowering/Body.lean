import StackCode.Code.Check
import StackCode.Code.Layout
import StackCode.Space
import StackCode.Syntax.Tree

/-! # Bodies under construction

Compilation keeps the body that is being compiled together with the bodies around it. It yields
structured code; the tables of the chunk are filled on the way.
-/

namespace StackCode.Lowering

inductive BodyKind where
  | file
  | function
  | method
  | initializer
  /-- The expression of a module value. -/
  | value
deriving DecidableEq, Repr

namespace BodyKind

def hasReceiver : BodyKind → Bool
  | method | initializer => true
  | _ => false

end BodyKind

structure Local where
  name : String
  slot : UInt8
deriving DecidableEq, Repr

structure Body where
  kind : BodyKind
  /-- The chunk with its tables, but without code. -/
  chunk : Chunk Value
  /-- The locals in scope, the innermost first. -/
  scope : List Local := []
  /-- The slots that nested functions capture. -/
  cells : List UInt8 := []
  depth : Nat := 1
  inLoop : Bool := false
  /-- The number of functions nested directly in the body so far. -/
  nested : Nat := 0

namespace Body

/-- The slot of the innermost local of a name. -/
def slot? (b : Body) (name : String) : Option UInt8 :=
  (b.scope.find? (·.name == name)).map (·.slot)

def capture? (b : Body) (name : String) : Option Nat :=
  b.chunk.captures.findIdx? (·.name == name)

def binds (b : Body) (name : String) : Bool := (b.slot? name).isSome || (b.capture? name).isSome

end Body

/-- What is fixed while the bodies of a file are compiled. -/
structure Context where
  space : Space
  path : String

structure State where
  body : Body
  /-- The bodies around it, the innermost first. -/
  enclosing : List Body := []
  /-- The chunks of nested functions that are complete. -/
  finished : Array (Chunk Value) := #[]

abbrev Build := ReaderT Context (StateM State)

def maxLocals : Nat := 256

def maxCaptures : Nat := 256

def maxArguments : Nat := 255

def report (p : Problem) (loc : Location) : Build Code := do
  return .report ⟨p, (← read).path, loc, none⟩

def modifyBody (f : Body → Body) : Build Unit := modify fun s => { s with body := f s.body }

/-- Changes the tables of the chunk. -/
def updateChunk {α : Type} (f : Chunk Value → α × Chunk Value) : Build α :=
  modifyGet fun s =>
    let (a, chunk) := f s.body.chunk
    (a, { s with body := { s.body with chunk } })

def refer (symbol : Symbol) (loc : Location) (make : UInt16 → Instruction) : Build Code := do
  match ← updateChunk (·.addSymbol symbol) with
  | some index => return .instr loc.line (make index)
  | none => return (← report .tooManySymbols loc) ++ .instr loc.line (make 0)

def constant (v : Value) (loc : Location) : Build Code := do
  match ← updateChunk (·.addConstant v) with
  | some index => return .instr loc.line ⟨.constant, index⟩
  | none => report .tooManyConstants loc

/-- A problem in place of a value, with `none` as a substitute. -/
def substitute (p : Problem) (loc : Location) : Build Code := do
  return (← report p loc) ++ .instr loc.line ⟨.pushNone, ()⟩

/-- Reserves a fresh slot in the innermost scope. -/
def reserve? (name : String) : Build (Option UInt8) :=
  modifyGet fun s =>
    let slot := s.body.chunk.locals.size
    if slot < maxLocals then
      let chunk := { s.body.chunk with locals := s.body.chunk.locals.push name }
      let scope := ⟨name, UInt8.ofNat slot⟩ :: s.body.scope
      (some (UInt8.ofNat slot), { s with body := { s.body with chunk, scope } })
    else (none, s)

/-- Binds the value on the stack to a new local, or drops it if there is no slot left. -/
def define (name : String) (loc : Location) : Build (Code × Option UInt8) := do
  match ← reserve? name with
  | some slot => return (.bind loc.line slot, some slot)
  | none => return ((← report .tooManyLocals loc) ++ .instr loc.line ⟨.pop, ()⟩, none)

def inScope (part : Build Code) : Build Code := do
  let outer := (← get).body.scope
  modifyBody fun b => { b with depth := b.depth + 1 }
  let code ← part
  modifyBody fun b => { b with depth := b.depth - 1, scope := outer }
  return code

def inLoop (part : Build Code) : Build Code := do
  let outer := (← get).body.inLoop
  modifyBody fun b => { b with inLoop := true }
  let code ← part
  modifyBody fun b => { b with inLoop := outer }
  return code

/-- Whether declarations are those of the module. -/
def atFileScope : Build Bool := do
  let s ← get
  return s.enclosing.isEmpty && s.body.kind == .file && s.body.depth == 1

/-- The parts in order. The last ones are reached by a tail call, so there may be many. -/
def sequence (done : List Code) : List (Build Code) → Build (List Code)
  | [] => return done
  | part :: parts => do
    let code ← part
    sequence (code :: done) parts

def declareAll (loc : Location) : List String → Build Code
  | [] => return .skip
  | name :: names => do
    let code ← match ← reserve? name with
      | some _ => pure .skip
      | none => report .tooManyLocals loc
    return code ++ (← declareAll loc names)

def Body.empty (kind : BodyKind) (name : String) (symbol : Symbol) (path : String) : Body :=
  { kind, chunk := { name, symbol, path, hasReceiver := kind.hasReceiver } }

def declareParams (params : List Param) (loc : Location) : Build Code := do
  let receiver := if (← get).body.kind.hasReceiver then ["self"] else []
  let code ← declareAll loc receiver
  let tooMany ← if params.length > maxArguments then report .tooManyParameters loc else pure .skip
  modifyBody fun b =>
    { b with chunk.arity := UInt8.ofNat (min params.length maxArguments) }
  return code ++ tooMany ++ (← declareAll loc (params.map (·.name)))

/-- A compiled body, with the chunks of the functions nested in it. -/
structure Compiled where
  chunk : Chunk Value
  nested : List (Chunk Value)

/-- The chunk of a body, if its code has no problems. -/
def Body.finish (b : Body) (code : Code) : Except (List Diagnostic) (Chunk Value) :=
  match code.problems b.chunk.path with
  | [] => .ok (code.layout b.cells b.chunk)
  | problems => .error problems

def Body.compile (b : Body) (space : Space) (part : Build Code) :
    Except (List Diagnostic) Compiled :=
  let (code, s) := (part.run ⟨space, b.chunk.path⟩).run { body := b }
  (s.body.finish code).map (⟨·, s.finished.toList⟩)

/-- Compiles a body nested in the current one. Its problems stand in the code of the current
body. -/
def nest (inner : Body) (part : Build Code) : Build Code := do
  modify fun s => { s with body := inner, enclosing := s.body :: s.enclosing }
  let code ← part
  modifyGet fun s =>
    let (problems, finished) := match s.body.finish code with
      | .ok chunk => ([], s.finished.push chunk)
      | .error problems => (problems, s.finished)
    match s.enclosing with
    | outer :: enclosing =>
      (Code.join (problems.map .report), { body := outer, enclosing, finished })
    | [] => (Code.join (problems.map .report), { s with finished })

end StackCode.Lowering
