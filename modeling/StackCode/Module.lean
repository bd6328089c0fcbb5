import StackCode.Diagnostic
import StackCode.Value.Basic

/-! # Modules

A module is what one unit of source files is compiled to. It is linked against other modules, and
a symbol is looked up in the module that owns it, anywhere in the graph of imports.
-/

namespace StackCode

structure Module where
  name : String
  main : Option (Chunk Value) := none
  chunks : Table Symbol (Chunk Value) := {}
  /-- The chunks that compute the values of the module when they are first read. -/
  initializers : Table Symbol (Chunk Value) := {}
  structs : Table Symbol StructType := {}
  enums : Table Symbol EnumType := {}
  /-- The names that other modules may use. -/
  exports : Table String Global := {}
  diagnostics : List Diagnostic := []

namespace Module

/-- Only a module with a main chunk and without diagnostics can be executed. -/
def isExecutable (m : Module) : Bool := m.main.isSome && m.diagnostics.isEmpty

end Module

inductive Linked where
  | mk (module : Module) (imports : List Linked)

namespace Linked

def module : Linked → Module
  | mk m _ => m

def imports : Linked → List Linked
  | mk _ is => is

def name (l : Linked) : String := l.module.name

mutual

/-- The modules of the import graph: each before its imports, and the imports in order. -/
def modules : Linked → List Module
  | mk m is => m :: modulesOf is

def modulesOf : List Linked → List Module
  | [] => []
  | l :: ls => l.modules ++ modulesOf ls

end

/-- The first module of a name in the import graph. -/
def find? (l : Linked) (name : String) : Option Module := l.modules.find? (·.name == name)

def chunk? (l : Linked) (s : Symbol) : Option (Chunk Value) := do
  (← l.find? s.module).chunks.get? s

def initializer? (l : Linked) (s : Symbol) : Option (Chunk Value) := do
  (← l.find? s.module).initializers.get? s

def structType? (l : Linked) (s : Symbol) : Option StructType := do
  (← l.find? s.module).structs.get? s

def enumType? (l : Linked) (s : Symbol) : Option EnumType := do
  (← l.find? s.module).enums.get? s

/-- What a name means in the exports of the direct imports, of which the latest counts. -/
def imported? (l : Linked) (name : String) : Option Global :=
  l.imports.reverse.findSome? (·.module.exports.get? name)

end Linked

end StackCode
