import StackCode.Module

/-! # The standard module

Declares the two collections that the machine itself provides. They are structs like any other, but
their methods have no chunks.
-/

namespace StackCode.Standard

def structSymbol (name : String) : Symbol := .struct Symbol.standardModule name

def arrayName : String := "Array"

def dictionaryName : String := "Dictionary"

/-- A struct of this module with the names of its methods and of the types of their parameters. -/
def structType (name : String) (properties : List String) (methods : List (String × List String)) :
    StructType where
  symbol := structSymbol name
  properties := properties
  methods := .ofList <| methods.map fun (method, params) =>
    (method, .method Symbol.standardModule name method params)

def arrayType : StructType :=
  structType arrayName ["_storage", "count", "capacity"]
    [("append", ["any"]), ("get", ["int"]), ("set", ["int", "any"]), ("remove", ["int"]),
      ("contains", ["any"])]

def dictionaryType : StructType :=
  structType dictionaryName ["_keys", "_values", "count", "capacity"]
    [("get", ["any"]), ("set", ["any", "any"]), ("remove", ["any"]), ("contains", ["any"])]

def module : Module where
  name := Symbol.standardModule
  structs := .ofList ([arrayType, dictionaryType].map fun t => (t.symbol, t))
  exports := .ofList ([arrayType, dictionaryType].map fun t => (t.name, .struct t.symbol))

def linked : Linked := .mk module []

end StackCode.Standard
