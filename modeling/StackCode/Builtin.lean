import StackCode.Symbol

/-! # Builtins

The functions that the machine itself provides, by name and number of parameters.
-/

namespace StackCode

inductive Builtin where
  | print
  | allocate
  | deref
  | storePtr
  | free
  | hash
deriving DecidableEq, Repr

namespace Builtin

def all : List Builtin := [print, allocate, deref, storePtr, free, hash]

def name : Builtin → String
  | print => "print"
  | allocate => "_allocate"
  | deref => "_deref"
  | storePtr => "_storePtr"
  | free => "_free"
  | hash => "_hash"

def arity : Builtin → Nat
  | storePtr => 2
  | _ => 1

def ofName? (name : String) : Option Builtin := all.find? (·.name == name)

def symbol (b : Builtin) : Symbol := .primitive b.name

/-- The builtin that a symbol names. Only the owning module and the name count. -/
def ofSymbol? (s : Symbol) : Option Builtin :=
  if s.module == Symbol.builtinModule then ofName? s.name else none

end Builtin

end StackCode
