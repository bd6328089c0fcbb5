import StackCode.Descriptor
import StackCode.Syntax.Reader

/-! # Descriptors written by hand

Reads the descriptors of structs and enums from JSON. A list that is absent is empty.
-/

namespace StackCode

open Json

namespace Json

/-- A list of which each item is a name with something else. -/
def named? {α : Type} (read : Json → Option α) : Json → Option (String × α)
  | arr [name, v] => do return (← name.str?, ← read v)
  | _ => none

end Json

namespace StructType

def ofJson? (j : Json) : Option StructType := do
  let keys := ["symbol", "properties", "init", "init_params", "methods"]
  let [symbol, properties, init, initParams, methods] ← j.record? .named keys | none
  let symbol ← required symbol fun v _ => Symbol.ofJson? v
  let properties ← optional properties fun v _ => v.strings?
  let initializer ← optional init fun v _ => Symbol.ofJson? v
  let initParams ← optional initParams fun v _ => v.strings?
  let methods ← optional methods fun v _ => v.list fun m _ => named? Symbol.ofJson? m
  return { symbol, properties := properties.getD [], initializer, initParams := initParams.getD [],
           methods := .ofList (methods.getD []) }

end StructType

namespace CaseType

def ofJson? (j : Json) : Option CaseType := do
  let (name, values) ← named? (fun v => v.list fun t _ => Ty.ofJson? t) j
  return ⟨name, values⟩

end CaseType

namespace EnumType

def ofJson? (j : Json) : Option EnumType := do
  let [symbol, cases] ← j.record? .named ["symbol", "cases"] | none
  let symbol ← required symbol fun v _ => Symbol.ofJson? v
  let cases ← optional cases fun v _ => v.list fun c _ => CaseType.ofJson? c
  return ⟨symbol, cases.getD []⟩

end EnumType

namespace Global

def ofJson? (j : Json) : Option Global := do
  let (tag, symbol) ← named? Symbol.ofJson? j
  match tag with
  | "Function" => return .function symbol
  | "Value" => return .value symbol
  | "Struct" => return .struct symbol
  | "Enum" => return .enum symbol
  | _ => none

end Global

end StackCode
