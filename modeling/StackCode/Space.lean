import StackCode.Standard

/-! # Module-level names

What the top-level names of a module stand for while its bodies are compiled: the declarations of
the module itself, then the exports of its imports.
-/

namespace StackCode

structure Space where
  module : String
  globals : Table String Global := {}
  structs : Table Symbol StructType := {}
  enums : Table Symbol EnumType := {}
  /-- The names of the parameters of functions, by which labels are placed. -/
  params : Table Symbol (List String) := {}
  imports : List Linked := []

namespace Space

def define (s : Space) (name : String) (g : Global) : Space :=
  { s with globals := s.globals.insert name g }

def defineStruct (s : Space) (t : StructType) : Space :=
  { s.define t.name (.struct t.symbol) with structs := s.structs.insert t.symbol t }

def defineEnum (s : Space) (name : String) (t : EnumType) : Space :=
  { s.define name (.enum t.symbol) with enums := s.enums.insert t.symbol t }

def setParams (s : Space) (symbol : Symbol) (names : List String) : Space :=
  { s with params := s.params.insert symbol names }

/-- What a name stands for. The latest import that exports it counts. -/
def resolve? (s : Space) (name : String) : Option Global :=
  match s.globals.get? name with
  | some g => some g
  | none => s.imports.reverse.findSome? (·.module.exports.get? name)

def structType? (s : Space) (symbol : Symbol) : Option StructType :=
  match s.structs.get? symbol with
  | some t => some t
  | none => s.imports.findSome? (·.structType? symbol)

def enumType? (s : Space) (symbol : Symbol) : Option EnumType :=
  match s.enums.get? symbol with
  | some t => some t
  | none => s.imports.findSome? (·.enumType? symbol)

def params? (s : Space) (symbol : Symbol) : Option (List String) := s.params.get? symbol

/-- The enum whose cases the values of a type are. -/
def enumOf? (s : Space) : Ty → Option EnumType
  | .enum name =>
    match s.resolve? name with
    | some (.enum symbol) => s.enumType? symbol
    | _ => none
  | _ => none

/-- The struct whose instances the values of a type are. -/
def structOf? (s : Space) : Ty → Option StructType
  | .struct name =>
    match s.resolve? name with
    | some (.struct symbol) => s.structType? symbol
    | _ => none
  | .array _ => s.structType? (Standard.structSymbol Standard.arrayName)
  | .dictionary .. => s.structType? (Standard.structSymbol Standard.dictionaryName)
  | _ => none

end Space

end StackCode
