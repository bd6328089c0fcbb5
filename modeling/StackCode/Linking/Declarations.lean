import StackCode.Lowering.Compiled

/-! # Declarations of a module

The top-level names of all files, collected before any body is compiled, so that a body may use what
a later file declares. The last declaration of a name counts.
-/

namespace StackCode

namespace StructType

/-- Methods without a name are left out, and the last one of a name counts. -/
def ofDecl (module : String) (decl : StructDecl) : StructType where
  symbol := .struct module decl.name
  properties := decl.properties.map (·.name)
  initializer := some (.method module decl.name "init" (decl.initParams.map (·.ty.text)))
  initParams := decl.initParams.map (·.name)
  methods := .ofList <| decl.methods.filterMap fun method =>
    method.name.map fun name => (name, .method module decl.name name method.paramTypes)

end StructType

namespace EnumType

def ofDecl (module : String) (decl : EnumDecl) : EnumType where
  symbol := .enum module decl.name
  cases := decl.cases.map fun c => ⟨c.name, c.values⟩

end EnumType

namespace Linking

def maxProperties : Nat := 256

def maxCases : Nat := 256

def maxAssociated : Nat := 255

/-- The place of a statement: the number of its file and its own number there. -/
structure Place where
  file : Nat
  stmt : Nat
deriving DecidableEq, Repr

structure Declarations where
  space : Space
  /-- Where each name was declared last. -/
  places : Table String Place := {}
  /-- The last one first. -/
  problems : List Diagnostic := []

namespace Declarations

def add (d : Declarations) (place : Place) (name : String) (space : Space) : Declarations :=
  { d with space, places := d.places.insert name place }

def refuse (d : Declarations) (p : Problem) (path : String) (loc : Location) : Declarations :=
  { d with problems := ⟨p, path, loc, none⟩ :: d.problems }

/-- Records the names of the parameters of a struct's initializer and methods. -/
def structParams (space : Space) (t : StructType) (decl : StructDecl) : Space :=
  let space := match t.initializer with
    | some initializer => space.setParams initializer t.initParams
    | none => space
  decl.methods.foldl (fun space method =>
    match method.name.bind t.method? with
    | some symbol => space.setParams symbol method.paramNames
    | none => space) space

/-- Takes up the declaration that a statement makes, if it makes one. -/
def declare (d : Declarations) (path : String) (place : Place) (s : Stmt) : Declarations :=
  let module := d.space.module
  match s.kind with
  | .func decl =>
    match decl.name with
    | some name =>
      let symbol := Symbol.function module name decl.paramTypes
      d.add place name ((d.space.setParams symbol decl.paramNames).define name (.function symbol))
    | none => d.refuse (.internal "function declaration without a name") path s.loc
  | .bind name .. => d.add place name (d.space.define name (.value (.value module name)))
  | .struct decl =>
    if decl.properties.length > maxProperties then
      d.refuse (.tooManyProperties decl.name) path decl.loc
    else
      let t := StructType.ofDecl module decl
      d.add place decl.name ((structParams d.space t decl).defineStruct t)
  | .enum decl =>
    if decl.cases.length > maxCases then d.refuse (.tooManyCases decl.name) path decl.loc
    else if decl.cases.any (·.values.length > maxAssociated) then
      d.refuse .tooManyParameters path decl.loc
    else d.add place decl.name (d.space.defineEnum decl.name (.ofDecl module decl))
  | _ => d

def declareFile (d : Declarations) (file : SourceFile × Nat) : Declarations :=
  file.1.stmts.zipIdx.foldl (fun d (s, i) => d.declare file.1.path ⟨file.2, i⟩ s) d

def ofFiles (module : String) (imports : List Linked) (files : List SourceFile) : Declarations :=
  files.zipIdx.foldl declareFile { space := { module, imports } }

/-- Whether the statement at a place is the last declaration of a name. -/
def isLast (d : Declarations) (name : String) (place : Place) : Bool :=
  d.places.get? name == some place

end Declarations

end Linking

end StackCode
