import StackCode.Lowering.Tree

/-! # Compiled bodies

One chunk for every body that a module declares: a file, a function, a method, an initializer or
the expression of a value. Every problem of a body is found, and a body with problems has no chunk.
-/

namespace StackCode

namespace FuncDecl

def paramTypes (decl : FuncDecl) : List String := decl.params.map (·.ty.text)

def paramNames (decl : FuncDecl) : List String := decl.params.map (·.name)

end FuncDecl

namespace StructDecl

/-- The parameters of the initializer. Without one of its own, a struct is given the properties
that have no default. -/
def initParams (decl : StructDecl) : List Param :=
  match decl.init with
  | some init => init.params
  | none => (decl.properties.filter (·.default.isNone)).map fun p => ⟨p.name, p.ty⟩

end StructDecl

namespace Lowering

/-- A function or method with its parameters, from its first to its last instruction. -/
def functionBody (decl : FuncDecl) : Build Code := do
  let params ← declareParams decl.params decl.loc
  return params ++ (← joined (stmts [] decl.body)) ++ fallOff decl.body decl.loc.line

/-- Moves the value on the stack into a property of the receiver. -/
def storeProperty (owner : StructType) (name : String) (loc : Location) : Build Code := do
  let store ← match owner.propertyOffset? name with
    | some offset => pure (.instr loc.line ⟨.setProperty, propertyOperand offset⟩)
    | none => pure ((← report (.unknownMember owner.name name) loc) ++ .instr loc.line ⟨.pop, ()⟩)
  return .instr loc.line ⟨.getSelf, ()⟩ ++ store ++ .instr loc.line ⟨.pop, ()⟩

def storeDefaults (owner : StructType) : List PropertyDecl → Build Code
  | [] => return .skip
  | p :: ps => do
    let first ← match p.default with
      | some e => do
        let value ← expr e
        pure (value ++ (← storeProperty owner p.name e.loc))
      | none => pure .skip
    return first ++ (← storeDefaults owner ps)

/-- Stores parameters in the properties of the same name. -/
def storeParams (owner : StructType) (loc : Location) : List Param → Build Code
  | [] => return .skip
  | p :: ps => do
    let first ← match (← get).body.slot? p.name with
      | some slot => pure (.instr loc.line ⟨.getLocal, slot⟩ ++ (← storeProperty owner p.name loc))
      | none => pure .skip
    return first ++ (← storeParams owner loc ps)

/-- An initializer returns the instance that it fills. -/
def initializerBody (owner : StructType) (decl : StructDecl) : Build Code := do
  let params ← declareParams decl.initParams decl.loc
  let defaults ← storeDefaults owner decl.properties
  let body ← match decl.init with
    | some init => joined (stmts [] init.body)
    | none => storeParams owner decl.loc decl.initParams
  let line := decl.loc.line
  return params ++ defaults ++ body ++ .instr line ⟨.getSelf, ()⟩ ++ .instr line ⟨.ret, ()⟩

namespace Compiled

variable (space : Space) (path : String)

/-- The statements of a file. Declarations have chunks of their own. -/
def ofFile (symbol : Symbol) (body : List Stmt) : Except (List Diagnostic) Compiled :=
  (Body.empty .file path symbol path).compile space do
    return (← joined (stmts [] body)) ++ fallOff body 0

def ofFunction (symbol : Symbol) (decl : FuncDecl) : Except (List Diagnostic) Compiled :=
  (Body.empty .function symbol.name symbol path).compile space (functionBody decl)

def ofMethod (owner : StructType) (symbol : Symbol) (decl : FuncDecl) :
    Except (List Diagnostic) Compiled :=
  let name := owner.name ++ "." ++ symbol.name
  (Body.empty .method name symbol path).compile space (functionBody decl)

/-- Defaults are stored before the statements of the initializer run. -/
def ofInitializer (owner : StructType) (decl : StructDecl) : Except (List Diagnostic) Compiled :=
  match owner.initializer with
  | some symbol =>
    (Body.empty .initializer (owner.name ++ ".init") symbol path).compile space
      (initializerBody owner decl)
  | none =>
    let reason := "struct '" ++ owner.name ++ "' has no initializer"
    .error [⟨.internal reason, path, decl.loc, none⟩]

/-- Computes a module value, stores it and returns it. -/
def ofValue (symbol : Symbol) (value : Option Expr) (loc : Location) :
    Except (List Diagnostic) Compiled :=
  (Body.empty .value (symbol.name ++ " initializer") symbol path).compile space do
    let value ← valueOrNone loc value
    let store ← refer symbol loc (⟨.setModuleValue, ·⟩)
    return value ++ store ++ .instr loc.line ⟨.ret, ()⟩

end Compiled

end Lowering

end StackCode
