import StackCode.Lowering.Arguments
import StackCode.Lowering.Scope

/-! # Code of statements and expressions

Every expression leaves one value on the stack and every statement none. Locals live in slots, so
leaving a scope needs no code.
-/

namespace StackCode.Lowering

/-- Where a pattern finds its value below the subject: the number of an associated value for every
case pattern around it. -/
abbrev Path := List UInt8

/-- The parts that are given with the last one first, as one part. -/
def joined (codes : Build (List Code)) : Build Code := return Code.joinReversed (← codes)

def loadPath (slot : UInt8) (path : Path) (line : UInt32) : Code :=
  .instr line ⟨.getLocal, slot⟩ ++ Code.join (path.map fun i => .instr line ⟨.getAssociated, i⟩)

/-- The names that occur before in a list, in order. -/
def repeated (seen : List String) : List String → List String
  | [] => []
  | name :: names =>
    if seen.contains name then name :: repeated seen names else repeated (name :: seen) names

def checkBindings (p : Pattern) (loc : Location) : Build Code := do
  let problems ← (repeated [] p.bindings).mapM fun name =>
    report (.invalidPattern ("'" ++ name ++ "' is bound more than once")) loc
  return Code.join problems

/-- Binds the names of a pattern to the parts of the subject. -/
def bindAll (slot : UInt8) (loc : Location) : List (String × Path) → Build Code
  | [] => return .skip
  | (name, path) :: rest => do
    let (bind, _) ← define name loc
    return loadPath slot path loc.line ++ bind ++ (← bindAll slot loc rest)

def unary (loc : Location) (op : UnaryOp) (operand : Code) : Code :=
  match op with
  | .neg => operand ++ .instr loc.line ⟨.negate, ()⟩
  | .not => operand ++ .instr loc.line ⟨.not, ()⟩

/-- The right operand of `and` and `or` is evaluated only if the left one does not decide. -/
def binary (loc : Location) (op : BinaryOp) (left right : Code) : Code :=
  let strict (i : Instruction) : Code := left ++ right ++ .instr loc.line i
  match op with
  | .add => strict ⟨.add, ()⟩
  | .sub => strict ⟨.subtract, ()⟩
  | .mul => strict ⟨.multiply, ()⟩
  | .div => strict ⟨.divide, ()⟩
  | .mod => strict ⟨.modulo, ()⟩
  | .eq => strict ⟨.equal, ()⟩
  | .ne => strict ⟨.notEqual, ()⟩
  | .lt => strict ⟨.less, ()⟩
  | .le => strict ⟨.lessEqual, ()⟩
  | .gt => strict ⟨.greater, ()⟩
  | .ge => strict ⟨.greaterEqual, ()⟩
  | .and => left ++ .ite loc right (.instr loc.line ⟨.pushFalse, ()⟩)
  | .or => left ++ .ite loc (.instr loc.line ⟨.pushTrue, ()⟩) right

/-- The number of elements or entries as an operand. -/
def countOperand (n : Nat) (loc : Location) : Build (Code × UInt16) := do
  if n < 65536 then return (.skip, UInt16.ofNat n)
  return (← report .tooManyArguments loc, 65535)

def pass (callee : String) (params : Option (List String)) (args : List (Labelled (Build Code)))
    (loc : Location) : Build (Code × UInt8) := do
  let (problems, args) := Labelled.arrange callee params args
  let problems ← problems.mapM fun (p, loc) => report p loc
  let tooMany ← if args.length > maxArguments then report .tooManyArguments loc else pure .skip
  let codes ← sequence [] args
  return (Code.join problems ++ tooMany ++ Code.joinReversed codes,
    UInt8.ofNat (min args.length maxArguments))

/-- The method that a call of a member invokes on its receiver. A property of the same name hides
it. -/
def invoked? (space : Space) (type : Ty) (name : String) : Option Symbol := do
  let t ← space.structOf? type
  if (t.propertyOffset? name).isSome then none else t.method? name

def callValue (callee : Expr) (function : Build Code) (args : List (Labelled (Build Code)))
    (loc : Location) : Build Code := do
  let params ← calleeParams? callee
  let label := match callee.kind with
    | .var name => name
    | _ => "<callee>"
  let function ← function
  let (args, count) ← pass label params args loc
  return function ++ args ++ .instr loc.line ⟨.call, count⟩

/-- Reports a call of an enum case with a wrong number of values. -/
def checkCase (receiver : Expr) (name : String) (got : Nat) (loc : Location) : Build Code := do
  let some t ← namedEnum? receiver | return .skip
  match t.case? name with
  | some (_, case) =>
    if case.values.length == got then return .skip
    report (.caseArityMismatch name case.values.length got) loc
  | none => return .skip

/-- Reads a member of what is not an enum. The receiver is evaluated only if it has the member. -/
def readMember (type : Ty) (name : String) (receiver : Build Code) (loc : Location) :
    Build Code := do
  let unknown := substitute (.unknownMember type.text name) loc
  match (← read).space.structOf? type with
  | none => unknown
  | some t =>
    match t.propertyOffset? name with
    | some offset => return (← receiver) ++ .instr loc.line ⟨.getProperty, propertyOperand offset⟩
    | none =>
      match t.method? name with
      | some method => return (← receiver) ++ (← refer method loc (⟨.getMethod, ·⟩))
      | none => unknown

/-- Loads a case of an enum, or the constructor of a case with values. -/
def enumCase (t : EnumType) (name : String) (loc : Location) : Build Code := do
  match t.caseValue? name with
  | some case => constant (.enumCase case) loc
  | none => return (← report (.unknownMember t.symbol.name name) loc) ++ (← constant .none loc)

/-- Makes the closure of a function that has just been compiled. -/
def closure (function : Build (Code × Symbol)) (loc : Location) : Build Code := do
  let (problems, symbol) ← function
  return problems ++ (← refer symbol loc (⟨.makeClosure, ·⟩))

/-- Binds a name to a closure and leaves it on the stack. The name is bound before the function is
compiled, so that the function can refer to itself. -/
def bindClosure (name : String) (function : Build (Code × Symbol)) (loc : Location) :
    Build Code := do
  let (bind, slot) ← define name loc
  let code := .instr loc.line ⟨.pushNone, ()⟩ ++ bind
  match slot with
  | none => return code
  | some slot => return code ++ (← closure function loc) ++ .instr loc.line ⟨.setLocal, slot⟩

def nestFunction (label : String) (params : List Param) (loc : Location) (body : Build Code) :
    Build (Code × Symbol) := do
  modifyBody fun b => { b with nested := b.nested + 1 }
  let outer := (← get).body
  let name := outer.chunk.name ++ "." ++ label
  let symbol := Symbol.function (← read).space.module (name ++ "#" ++ toString outer.nested)
    (params.map (·.ty.text))
  let inner := Body.empty .function name symbol (← read).path
  let problems ← nest inner do return (← declareParams params loc) ++ (← body)
  return (problems, symbol)

def fallOff (stmts : List Stmt) (line : UInt32) : Code :=
  let line := (stmts.getLast?.map (·.loc.line)).getD line
  .instr line ⟨.pushNone, ()⟩ ++ .instr line ⟨.ret, ()⟩

/-- Reads a module value for the first time, unless another declaration took its name. -/
def force (name : String) (loc : Location) : Build Code := do
  let space := (← read).space
  let symbol := Symbol.value space.module name
  if space.resolve? name == some (.value symbol) then
    return (← refer symbol loc (⟨.getModuleValue, ·⟩)) ++ .instr loc.line ⟨.pop, ()⟩
  return .skip

/-- A declaration that is permitted at file scope only, where it has a chunk of its own. -/
def declaration (sort : String) (loc : Location) : Build Code := do
  if ← atFileScope then return .skip
  report (.nestedDeclaration sort) loc

mutual

def expr : Expr → Build Code
  | ⟨kind, _, loc⟩ => exprKind loc kind

def exprKind (loc : Location) : ExprKind → Build Code
  | .literal (.int n) => constant (.int n) loc
  | .literal (.bool true) => return .instr loc.line ⟨.pushTrue, ()⟩
  | .literal (.bool false) => return .instr loc.line ⟨.pushFalse, ()⟩
  | .literal (.string s) => constant (.string s) loc
  | .literal .none => return .instr loc.line ⟨.pushNone, ()⟩
  | .var name => load name loc
  | .selfRef => receiver loc
  | .unary op operand => return unary loc op (← expr operand)
  | .binary left op right => do
    let left ← expr left
    return binary loc op left (← expr right)
  | .assign target value => do
    let value := expr value
    match target with
    | ⟨.var name, _, _⟩ => return (← value) ++ (← store name loc)
    | ⟨.member receiver name, _, _⟩ =>
      let space := (← read).space
      match (space.structOf? receiver.ty).bind (·.propertyOffset? name) with
      | some offset =>
        let value ← value
        return value ++ (← expr receiver) ++
          .instr loc.line ⟨.setProperty, propertyOperand offset⟩
      | none =>
        let problem ← report (.unknownMember receiver.ty.text name) loc
        let value ← value
        return problem ++ value ++ (← expr receiver) ++ .instr loc.line ⟨.pop, ()⟩
    | ⟨.subscript receiver index, _, _⟩ =>
      let value ← value
      let receiver ← expr receiver
      return value ++ receiver ++ (← expr index) ++ .instr loc.line ⟨.setSubscript, ()⟩
    | _ => return (← report .invalidAssignmentTarget loc) ++ (← value)
  | .call callee args => do
    let function := expr callee
    let args := arguments args
    match callee with
    | ⟨.member receiver name, _, _⟩ =>
      let space := (← read).space
      match invoked? space receiver.ty name with
      | some method =>
        let receiver ← expr receiver
        let (args, count) ← pass name (space.params? method) args loc
        return receiver ++ args ++ (← refer method loc (⟨.invokeMethod, ⟨·, count⟩⟩))
      | none =>
        let problem ← checkCase receiver name args.length loc
        return problem ++ (← callValue callee function args loc)
    | _ => callValue callee function args loc
  | .member receiver name => do
    match ← namedEnum? receiver with
    | some t => enumCase t name loc
    | none => readMember receiver.ty name (expr receiver) loc
  | .subscript receiver index => do
    let receiver ← expr receiver
    return receiver ++ (← expr index) ++ .instr loc.line ⟨.get, ()⟩
  | .func decl => do
    let function := function decl
    match decl.name with
    | some name => inScope (bindClosure name function loc)
    | none => closure function loc
  | .ite cond thenBranch elseBranch => do
    let cond ← expr cond
    let yes ← expr thenBranch
    return cond ++ .ite loc yes (← expr elseBranch)
  | .array elements => do
    let codes ← exprs [] elements
    let (problem, count) ← countOperand elements.length loc
    return Code.joinReversed (.instr loc.line ⟨.initArray, count⟩ :: problem :: codes)
  | .dictionary entries => do
    let codes ← entryCodes [] entries
    let (problem, count) ← countOperand entries.length loc
    return Code.joinReversed (.instr loc.line ⟨.initDict, count⟩ :: problem :: codes)

/-- The codes of expressions behind those that are done, the last one first. -/
def exprs (done : List Code) : List Expr → Build (List Code)
  | [] => return done
  | e :: es => do
    let code ← expr e
    exprs (code :: done) es

def entryCodes (done : List Code) : List Entry → Build (List Code)
  | [] => return done
  | ⟨key, value⟩ :: entries => do
    let key ← expr key
    let value ← expr value
    entryCodes (value :: key :: done) entries

/-- The arguments of a call, still to be evaluated. -/
def arguments : List Argument → List (Labelled (Build Code))
  | [] => []
  | ⟨label, value⟩ :: args => ⟨label, value.loc, expr value⟩ :: arguments args

/-- Compiles a function literal and gives the symbol of its chunk. -/
def function : FuncDecl → Build (Code × Symbol)
  | ⟨name, params, _, body, loc⟩ =>
    nestFunction (name.getD "<lambda>") params loc do
      return (← joined (stmts [] body)) ++ fallOff body loc.line

def stmt : Stmt → Build Code
  | ⟨kind, loc⟩ => stmtKind loc kind

def stmtKind (loc : Location) : StmtKind → Build Code
  | .expr e => return (← expr e) ++ .instr loc.line ⟨.pop, ()⟩
  | .bind name _ _ value => do
    if ← atFileScope then return ← force name loc
    let value ← valueOrNone loc value
    let (bind, _) ← define name loc
    return value ++ bind
  | .func decl => do
    let function := function decl
    if ← atFileScope then return .skip
    match decl.name with
    | some name => return (← bindClosure name function loc) ++ .instr loc.line ⟨.pop, ()⟩
    | none => report (.internal "function declaration without a name") loc
  | .struct _ => declaration "struct" loc
  | .enum _ => declaration "enum" loc
  | .ite cond thenBranch none => do
    let cond ← expr cond
    return cond ++ .when loc (← inScope (joined (stmts [] thenBranch)))
  | .ite cond thenBranch (some elseBranch) => do
    let cond ← expr cond
    let yes ← inScope (joined (stmts [] thenBranch))
    return cond ++ .ite loc yes (← inScope (joined (stmts [] elseBranch)))
  | .loop cond body => do
    let cond ← expr cond
    return .loop loc cond (← inLoop (inScope (joined (stmts [] body))))
  | .ret value => do
    if (← get).body.kind == .initializer then
      let value ← valueOrSkip loc value
      return value ++ .instr loc.line ⟨.getSelf, ()⟩ ++ .instr loc.line ⟨.ret, ()⟩
    return (← valueOrNone loc value) ++ .instr loc.line ⟨.ret, ()⟩
  | .break => do
    if (← get).body.inLoop then return .leave loc.line
    report .breakOutsideLoop loc
  | .continue => do
    if (← get).body.inLoop then return .again loc
    report .continueOutsideLoop loc
  | .block body => inScope (joined (stmts [] body))
  | .cases subject cases elseBranch => inScope do
    let type := (← read).space.enumOf? subject.ty
    let subject ← expr subject
    let (bind, slot) ← define "<match>" loc
    match slot with
    | none => return subject ++ bind
    | some slot => return subject ++ bind ++ (← arms slot type loc (otherwise elseBranch) cases)

def valueOrNone (loc : Location) : Option Expr → Build Code
  | none => return .instr loc.line ⟨.pushNone, ()⟩
  | some e => expr e

/-- Evaluates an expression that may be absent and drops its value. -/
def valueOrSkip (loc : Location) : Option Expr → Build Code
  | none => return .skip
  | some e => return (← expr e) ++ .instr loc.line ⟨.pop, ()⟩

def otherwise : Option (List Stmt) → Build Code
  | none => return .skip
  | some body => inScope (joined (stmts [] body))

/-- The codes of statements behind those that are done, the last one first. -/
def stmts (done : List Code) : List Stmt → Build (List Code)
  | [] => return done
  | s :: ss => do
    let code ← stmt s
    stmts (code :: done) ss

/-- Arms are tried in order. One whose pattern fails leads to the next one. -/
def arms (slot : UInt8) (type : Option EnumType) (loc : Location) (last : Build Code) :
    List Arm → Build Code
  | [] => last
  | ⟨p, body, armLoc⟩ :: rest => do
    let armLoc := if armLoc == .synthesized then loc else armLoc
    let problems ← checkBindings p armLoc
    let (tests, names) ← pattern slot armLoc type [] p
    let body ← inScope do
      let binds ← bindAll slot armLoc names
      return binds ++ (← joined (stmts [] body))
    let rest ← arms slot type loc last rest
    return .arm loc armLoc (problems ++ tests ++ body) rest

/-- The tests of a pattern on the value at a path, and the names that it binds. -/
def pattern (slot : UInt8) (loc : Location) (type : Option EnumType) (path : Path) :
    Pattern → Build (Code × List (String × Path))
  | .wildcard => return (.skip, [])
  | .binding name => return (.skip, [(name, path)])
  | .value e => do
    let value ← expr e
    return (loadPath slot path loc.line ++ value ++ .instr loc.line ⟨.equal, ()⟩ ++
      .require loc.line, [])
  | .case name values => do
    match type with
    | none =>
      let reason := "case pattern '." ++ name ++ "' needs a value of enum type"
      return (← report (.invalidPattern reason) loc, [])
    | some t =>
      match t.case? name with
      | none => return (← report (.unknownMember t.symbol.name name) loc, [])
      | some (index, case) =>
        if case.values.length == values.length then
          let test ← refer t.symbol loc (⟨.matchCase, ⟨·, UInt8.ofNat index⟩⟩)
          let (inner, names) ← patterns slot loc path 0 case.values values
          return (loadPath slot path loc.line ++ test ++ .require loc.line ++ inner, names)
        else
          let problem := .caseArityMismatch name case.values.length values.length
          return (← report problem loc, [])

/-- The tests of the patterns for the values of a case, from the given number on. -/
def patterns (slot : UInt8) (loc : Location) (path : Path) (i : Nat) (types : List Ty) :
    List Pattern → Build (Code × List (String × Path))
  | [] => return (.skip, [])
  | p :: ps => do
    let type := (types.head?.bind (← read).space.enumOf?)
    let (first, names) ← pattern slot loc type (path ++ [UInt8.ofNat i]) p
    let (rest, more) ← patterns slot loc path (i + 1) types.tail ps
    return (first ++ rest, names ++ more)

end

end StackCode.Lowering
