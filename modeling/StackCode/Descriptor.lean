import StackCode.Symbol
import StackCode.Syntax.Ty
import StackCode.Table

/-! # Type descriptors

What is known of a struct or an enum when a program runs. Properties and cases are numbered in the
order of their declaration.
-/

namespace StackCode

structure StructType where
  symbol : Symbol
  properties : List String := []
  /-- The symbol of the chunk that fills a new instance. -/
  initializer : Option Symbol := none
  /-- The names of the parameters of the initializer, by which labels are placed. -/
  initParams : List String := []
  methods : Table String Symbol := {}

namespace StructType

def name (t : StructType) : String := t.symbol.name

def propertyCount (t : StructType) : Nat := t.properties.length

def propertyOffset? (t : StructType) (name : String) : Option Nat :=
  t.properties.findIdx? (· == name)

def method? (t : StructType) (name : String) : Option Symbol := t.methods.get? name

end StructType

structure CaseType where
  name : String
  values : List Ty

structure EnumType where
  symbol : Symbol
  cases : List CaseType

namespace EnumType

/-- The number and the declaration of the first case of a name. -/
def case? (t : EnumType) (name : String) : Option (Nat × CaseType) := do
  let index ← t.cases.findIdx? (·.name == name)
  return (index, ← t.cases[index]?)

end EnumType

end StackCode
