import StackCode.Json.Field
import StackCode.Text.Column

/-! # Symbols

A symbol names a declaration by its content: the module that owns it, the kind of the declaration
and the names that qualify it. Two modules that were compiled apart agree on a symbol without any
numbering.
-/

namespace StackCode

inductive SymbolKind where
  | function (name : String) (params : List String)
  | value (name : String)
  | struct (name : String)
  | property (owner name : String)
  | method (owner name : String) (params : List String)
  | primitive (name : String)
  | enum (name : String)
deriving DecidableEq, Repr

structure Symbol where
  module : String
  kind : SymbolKind
deriving DecidableEq, Repr

namespace SymbolKind

/-- The declared name without its qualifiers. -/
def name : SymbolKind → String
  | function name _ => name
  | value name => name
  | struct name => name
  | property _ name => name
  | method _ name _ => name
  | primitive name => name
  | enum name => name

/-- The position of the kind among all kinds, by which symbols of one module are ordered. -/
def rank : SymbolKind → Nat
  | function .. => 0
  | value _ => 1
  | struct _ => 2
  | property .. => 3
  | method .. => 4
  | primitive _ => 5
  | enum _ => 6

/-- The qualifying names in the order in which they are compared, before the parameters. -/
def names : SymbolKind → List String
  | function name _ => [name]
  | value name => [name]
  | struct name => [name]
  | property owner name => [owner, name]
  | method owner name _ => [owner, name]
  | primitive name => [name]
  | enum name => [name]

def params : SymbolKind → List String
  | function _ params => params
  | method _ _ params => params
  | _ => []

end SymbolKind

/-- The first of two comparisons, unless it says that both sides are equal. -/
def thenCompare (first second : Ordering) : Ordering :=
  match first with
  | .eq => second
  | decided => decided

/-- The order of a dictionary: the first difference decides, and an initial part comes first. -/
def compareTexts : List String → List String → Ordering
  | [], [] => .eq
  | [], _ :: _ => .lt
  | _ :: _, [] => .gt
  | s :: ss, t :: ts => thenCompare (compare s t) (compareTexts ss ts)

namespace Symbol

/-- The module whose structs are the collections that the machine itself provides. -/
def standardModule : String := "Standard"

/-- The module that owns the functions that the machine itself provides. -/
def builtinModule : String := "[builtin]"

def function (module name : String) (params : List String) : Symbol :=
  ⟨module, .function name params⟩

def value (module name : String) : Symbol := ⟨module, .value name⟩

def struct (module name : String) : Symbol := ⟨module, .struct name⟩

def method (module owner name : String) (params : List String) : Symbol :=
  ⟨module, .method owner name params⟩

def enum (module name : String) : Symbol := ⟨module, .enum name⟩

def primitive (name : String) : Symbol := ⟨builtinModule, .primitive name⟩

def name (s : Symbol) : String := s.kind.name

def isStandard (s : Symbol) : Bool := s.module == standardModule

def text (s : Symbol) : String :=
  match s.kind with
  | .function name params => "$F" ++ s.module ++ "$" ++ name ++ "$" ++ Text.join "_" params
  | .value name => "$V" ++ s.module ++ "$" ++ name
  | .struct name => "$S" ++ s.module ++ "$" ++ name
  | .property owner name => "$P" ++ s.module ++ "$" ++ owner ++ "$" ++ name
  | .method owner name params =>
    "$M" ++ s.module ++ "$" ++ owner ++ "$" ++ name ++ "$" ++ Text.join "_" params
  | .primitive name => "$B" ++ name
  | .enum name => "$E" ++ s.module ++ "$" ++ name

/-- Symbols are ordered by module, then by kind, then by their names and parameters. -/
def compare (a b : Symbol) : Ordering :=
  thenCompare (Ord.compare a.module b.module) <|
  thenCompare (Ord.compare a.kind.rank b.kind.rank) <|
  thenCompare (compareTexts a.kind.names b.kind.names) (compareTexts a.kind.params b.kind.params)

def le (a b : Symbol) : Bool := (compare a b).isLE

end Symbol

open Json

namespace SymbolKind

def ofJson? (j : Json) : Option SymbolKind :=
  match j.variant? with
  | some ("function", some ⟨v, _⟩) => do
    let [name, params] ← v.record? .named ["name", "params"] | none
    let name ← required name fun v _ => v.str?
    return .function name (← required params fun v _ => v.strings?)
  | some ("value", some ⟨v, _⟩) => v.str?.map .value
  | some ("struct", some ⟨v, _⟩) => v.str?.map .struct
  | some ("property", some ⟨v, _⟩) => do
    let [owner, name] ← v.record? .named ["owner", "name"] | none
    let owner ← required owner fun v _ => v.str?
    return .property owner (← required name fun v _ => v.str?)
  | some ("method", some ⟨v, _⟩) => do
    let [owner, name, params] ← v.record? .named ["owner", "name", "params"] | none
    let owner ← required owner fun v _ => v.str?
    let name ← required name fun v _ => v.str?
    return .method owner name (← required params fun v _ => v.strings?)
  | some ("primitive", some ⟨v, _⟩) => v.str?.map .primitive
  | some ("enum", some ⟨v, _⟩) => v.str?.map .enum
  | _ => none

def toJson : SymbolKind → Json
  | .function name params =>
    obj [("function", obj [("name", str name), ("params", arr (params.map str))])]
  | .value name => obj [("value", str name)]
  | .struct name => obj [("struct", str name)]
  | .property owner name => obj [("property", obj [("owner", str owner), ("name", str name)])]
  | .method owner name params =>
    obj [("method",
      obj [("owner", str owner), ("name", str name), ("params", arr (params.map str))])]
  | .primitive name => obj [("primitive", str name)]
  | .enum name => obj [("enum", str name)]

end SymbolKind

namespace Symbol

def ofJson? (j : Json) : Option Symbol := do
  let [module, kind] ← j.record? .listed ["module", "kind"] | none
  let module ← required module fun v _ => v.str?
  return ⟨module, ← required kind fun v _ => SymbolKind.ofJson? v⟩

def toJson (s : Symbol) : Json := obj [("module", str s.module), ("kind", s.kind.toJson)]

end Symbol

inductive Global where
  | function (symbol : Symbol)
  | value (symbol : Symbol)
  | struct (symbol : Symbol)
  | enum (symbol : Symbol)
deriving DecidableEq, Repr

namespace Global

def symbol : Global → Symbol
  | function s => s
  | value s => s
  | struct s => s
  | enum s => s

end Global

end StackCode
