import StackCode.Proofs.Nesting

/-! # What the names in a body stand for

A name stands for its innermost binding in the scopes around it. Only if there is none, it is a name
of the module, of an import or of a builtin. The outline of a body tells this of all names that the
body reads, writes or binds, in the order of its code, and of the functions nested in it likewise.
It is found by going through the tree with nothing but the names in scope.

The code of a body tells the same by the slots, captures and symbols that its instructions refer to.
-/

namespace StackCode.Lowering

inductive Place where
  /-- A slot of the body that is reached by leaving so many bodies. -/
  | slot (out : Nat) (n : UInt8)
  | global (g : Global)
  | builtin (symbol : Symbol)
deriving DecidableEq

inductive Mark where
  | read (place : Place)
  | write (place : Place)
  | bind (slot : UInt8)
deriving DecidableEq

/-- The marks of a body in the order of its code, and the outlines of the functions that are nested
directly in it. -/
inductive Outline where
  | node (marks : List Mark) (literals : List Outline)

/-- The innermost binding of a name in the scopes of bodies, the innermost body first: the number of
bodies to leave, and the slot there. -/
def binding? (name : String) : List (List Local) → Option (Nat × UInt8)
  | [] => none
  | scope :: outer =>
    match scope.find? (·.name == name) with
    | some x => some (0, x.slot)
    | none => (binding? name outer).map fun (out, n) => (out + 1, n)

/-- A point of a body, with what was met on the way to it. -/
structure Point where
  kind : BodyKind
  /-- The names in scope, the innermost first. -/
  scope : List Local := []
  /-- The number of slots that have been given to names. -/
  slots : Nat := 0
  /-- The number of open scopes. -/
  depth : Nat := 1
  /-- The scopes of the bodies around, the innermost first. -/
  outer : List (List Local) := []
  marks : List Mark := []
  literals : List Outline := []

namespace Point

def outline (p : Point) : Outline := .node p.marks p.literals

def mark (m : Mark) (p : Point) : Point := { p with marks := p.marks ++ [m] }

/-- What a name stands for. The latest import that exports it counts. -/
def place? (space : Space) (name : String) (p : Point) : Option Place :=
  match binding? name (p.scope :: p.outer) with
  | some (out, n) => some (.slot out n)
  | none =>
    match space.globals.get? name with
    | some g => some (.global g)
    | none =>
      match space.imports.reverse.findSome? (·.module.exports.get? name) with
      | some g => some (.global g)
      | none => (Builtin.ofName? name).map fun b => .builtin b.symbol

def read (space : Space) (name : String) (p : Point) : Point :=
  match p.place? space name with
  | some place => p.mark (.read place)
  | none => p

def write (space : Space) (name : String) (p : Point) : Point :=
  match p.place? space name with
  | some place => p.mark (.write place)
  | none => p

/-- The receiver is that of the body, or one that a body around has bound. -/
def receiver (p : Point) : Point :=
  if p.kind.hasReceiver then p
  else
    match binding? "self" (p.scope :: p.outer) with
    | some (out, n) => p.mark (.read (.slot out n))
    | none => p

def declare (name : String) (p : Point) : Point :=
  { p with scope := ⟨name, UInt8.ofNat p.slots⟩ :: p.scope, slots := p.slots + 1 }

def declareAll (names : List String) (p : Point) : Point :=
  names.foldl (fun p name => p.declare name) p

def bind (name : String) (p : Point) : Point :=
  (p.declare name).mark (.bind (UInt8.ofNat p.slots))

def inScope (walk : Point → Point) (p : Point) : Point :=
  let q := walk { p with depth := p.depth + 1 }
  { q with scope := p.scope, depth := q.depth - 1 }

/-- Goes through a function in which all names of this point are in scope. -/
def nest (params : List Param) (walk : Point → Point) (p : Point) : Point :=
  let start : Point := { kind := .function, outer := p.scope :: p.outer }
  let inner := walk (start.declareAll (params.map (·.name)))
  { p with literals := p.literals ++ [inner.outline] }

/-- A function that is bound to a name can refer to itself. -/
def bindFunction (name : String) (function : Point → Point) (p : Point) : Point :=
  (function (p.bind name)).mark (.write (.slot 0 (UInt8.ofNat p.slots)))

def atFileScope (p : Point) : Bool := p.outer.isEmpty && p.kind == .file && p.depth == 1

def force (space : Space) (name : String) (p : Point) : Point :=
  let value := Global.value (.value space.module name)
  if space.resolve? name == some value then p.mark (.read (.global value)) else p

def global? (space : Space) (name : String) (p : Point) : Option Global :=
  if (binding? name (p.scope :: p.outer)).isSome then none else space.resolve? name

def namedEnum? (space : Space) (e : Expr) (p : Point) : Option EnumType :=
  match e.kind with
  | .var name =>
    match p.global? space name with
    | some (.enum symbol) => space.enumType? symbol
    | _ => none
  | _ => none

def calleeParams? (space : Space) (callee : Expr) (p : Point) : Option (List String) :=
  match callee.kind with
  | .var name =>
    match p.global? space name with
    | some (.struct symbol) => (space.structType? symbol).map (·.initParams)
    | some (.function symbol) => space.params? symbol
    | _ => none
  | _ => none

def pass (params : Option (List String)) (args : List (Labelled (Point → Point))) (p : Point) :
    Point :=
  (Labelled.arrange "" params args).2.foldl (fun p walk => walk p) p

mutual

def expr (space : Space) : Expr → Point → Point
  | ⟨kind, _, _⟩, p => exprKind space kind p

def exprKind (space : Space) : ExprKind → Point → Point
  | .literal _, p => p
  | .var name, p => p.read space name
  | .selfRef, p => p.receiver
  | .unary _ operand, p => expr space operand p
  | .binary left _ right, p => expr space right (expr space left p)
  | .assign target value, p =>
    let p := expr space value p
    match target with
    | ⟨.var name, _, _⟩ => p.write space name
    | ⟨.member receiver _, _, _⟩ => expr space receiver p
    | ⟨.subscript receiver index, _, _⟩ => expr space index (expr space receiver p)
    | _ => p
  | .call callee args, p =>
    let args := arguments space args
    let called := (expr space callee p).pass (p.calleeParams? space callee) args
    match callee with
    | ⟨.member receiver name, _, _⟩ =>
      match invoked? space receiver.ty name with
      | some method => (expr space receiver p).pass (space.params? method) args
      | none => called
    | _ => called
  | .member receiver _, p =>
    match p.namedEnum? space receiver with
    | some _ => p
    | none => expr space receiver p
  | .subscript receiver index, p => expr space index (expr space receiver p)
  | .func decl, p =>
    let function := function space decl
    match decl.name with
    | some name => p.inScope fun p => p.bindFunction name function
    | none => function p
  | .ite cond thenBranch elseBranch, p =>
    expr space elseBranch (expr space thenBranch (expr space cond p))
  | .array elements, p => exprs space elements p
  | .dictionary entries, p => entryExprs space entries p

def exprs (space : Space) : List Expr → Point → Point
  | [], p => p
  | e :: es, p => exprs space es (expr space e p)

def entryExprs (space : Space) : List Entry → Point → Point
  | [], p => p
  | ⟨key, value⟩ :: entries, p => entryExprs space entries (expr space value (expr space key p))

def arguments (space : Space) : List Argument → List (Labelled (Point → Point))
  | [] => []
  | ⟨label, value⟩ :: args => ⟨label, value.loc, expr space value⟩ :: arguments space args

def function (space : Space) : FuncDecl → Point → Point
  | ⟨_, params, _, body, _⟩, p => p.nest params fun p => stmts space body p

def stmt (space : Space) : Stmt → Point → Point
  | ⟨kind, _⟩, p => stmtKind space kind p

def stmtKind (space : Space) : StmtKind → Point → Point
  | .expr e, p => expr space e p
  | .bind name _ _ value, p =>
    if p.atFileScope then p.force space name else (valueExpr space value p).bind name
  | .func decl, p =>
    let function := function space decl
    if p.atFileScope then p
    else
      match decl.name with
      | some name => p.bindFunction name function
      | none => p
  | .struct _, p | .enum _, p => p
  | .ite cond thenBranch elseBranch, p =>
    otherwise space elseBranch ((expr space cond p).inScope fun p => stmts space thenBranch p)
  | .loop cond body, p => (expr space cond p).inScope fun p => stmts space body p
  | .ret value, p => valueExpr space value p
  | .break, p | .continue, p => p
  | .block body, p => p.inScope fun p => stmts space body p
  | .cases subject arms elseBranch, p => p.inScope fun p =>
    let p := expr space subject p
    armsWith space (UInt8.ofNat p.slots) (otherwise space elseBranch) arms (p.bind "<match>")

def valueExpr (space : Space) : Option Expr → Point → Point
  | none, p => p
  | some e, p => expr space e p

def otherwise (space : Space) : Option (List Stmt) → Point → Point
  | none, p => p
  | some body, p => p.inScope fun p => stmts space body p

def stmts (space : Space) : List Stmt → Point → Point
  | [], p => p
  | s :: ss, p => stmts space ss (stmt space s p)

/-- The names of a pattern are in scope in the statements of its arm only. Tests and names read the
subject at the given slot. -/
def armsWith (space : Space) (subject : UInt8) (last : Point → Point) : List Arm → Point → Point
  | [], p => last p
  | ⟨pat, body, _⟩ :: rest, p =>
    let p := (pattern space subject pat p).inScope fun p =>
      stmts space body (pat.bindings.foldl
        (fun p name => (p.mark (.read (.slot 0 subject))).bind name) p)
    armsWith space subject last rest p

def pattern (space : Space) (subject : UInt8) : Pattern → Point → Point
  | .wildcard, p | .binding _, p => p
  | .value e, p => expr space e (p.mark (.read (.slot 0 subject)))
  | .case _ values, p => patterns space subject values (p.mark (.read (.slot 0 subject)))

def patterns (space : Space) (subject : UInt8) : List Pattern → Point → Point
  | [], p => p
  | pat :: pats, p => patterns space subject pats (pattern space subject pat p)

end

end Point

/-! ## What instructions refer to -/

/-- The binding to which the capture of the given number leads through the captures of the bodies
around: the number of bodies to leave, and the slot there. -/
def captured? : List (Array Capture) → Nat → Option (Nat × UInt8)
  | [], _ => none
  | captures :: outer, i =>
    match captures[i]? with
    | none => none
    | some ⟨_, .slot n⟩ => some (1, n)
    | some ⟨_, .capture j⟩ => (captured? outer j.toNat).map fun (out, n) => (out + 1, n)

end StackCode.Lowering

namespace StackCode.Instruction

open Lowering

/-- What the instruction of a body does to what a name stands for, given the captures of the body
and of those around, and its symbols. It is `none` inside if a capture or a symbol is missing. -/
def named? (captures : List (Array Capture)) (symbol? : UInt16 → Option Symbol) :
    Instruction → Option (Option Mark)
  | ⟨.getLocal, n⟩ => some (some (.read (.slot 0 n)))
  | ⟨.setLocal, n⟩ => some (some (.write (.slot 0 n)))
  | ⟨.getCapture, (n : UInt8)⟩ =>
    some ((captured? captures n.toNat).map fun (out, n) => .read (.slot out n))
  | ⟨.setCapture, (n : UInt8)⟩ =>
    some ((captured? captures n.toNat).map fun (out, n) => .write (.slot out n))
  | ⟨.getModuleFunction, n⟩ => some ((symbol? n).map fun s => .read (.global (.function s)))
  | ⟨.getModuleValue, n⟩ => some ((symbol? n).map fun s => .read (.global (.value s)))
  | ⟨.setModuleValue, n⟩ => some ((symbol? n).map fun s => .write (.global (.value s)))
  | ⟨.getStruct, n⟩ => some ((symbol? n).map fun s => .read (.global (.struct s)))
  | ⟨.getBuiltin, n⟩ => some ((symbol? n).map fun s => .read (.builtin s))
  | ⟨.defineLocal, n⟩ | ⟨.defineCell, n⟩ => some (some (.bind n))
  | _ => none

end StackCode.Instruction

namespace StackCode.Lowering

/-- A closure over the literal captures a slot of the body around. -/
def Nest.Captures (t : Nest) (n : UInt8) : Prop := ∃ x ∈ t.chunk.captures, x.source = .slot n

/-- The chunk of the body, in bodies with the given captures, has the marks of the outline in order.
A slot is bound as a cell if and only if a literal directly in the body captures it. The same is
true of the literals in the body. -/
inductive Nest.Outlined : List (Array Capture) → Nest → Outline → Prop where
  | node {outer : List (Array Capture)} {c : Chunk Value} {literals : List Nest}
      {marks : List Mark} {outlines : List Outline}
      (named : c.instructions.filterMap (·.2.named? (c.captures :: outer) c.symbol?) =
        marks.map some)
      (plain : ∀ o n, (o, ⟨.defineLocal, n⟩) ∈ c.instructions → ∀ t ∈ literals, ¬ t.Captures n)
      (cell : ∀ o n, (o, ⟨.defineCell, n⟩) ∈ c.instructions → ∃ t ∈ literals, t.Captures n)
      (length : literals.length = outlines.length)
      (inner : ∀ (k : Nat) (t : Nest) (u : Outline), literals[k]? = some t →
        outlines[k]? = some u → Nest.Outlined (c.captures :: outer) t u) :
      Nest.Outlined outer (.node c literals) (.node marks outlines)

end StackCode.Lowering
