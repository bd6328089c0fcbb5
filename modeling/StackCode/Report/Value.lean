import StackCode.Json.Basic
import StackCode.Trap
import StackCode.Value.Text

/-! # Reports on values

A value as JSON. An instance shows its fields, and those that are instances theirs, up to a depth;
a field that points into a block shows the first slots of the block.
-/

namespace StackCode

namespace Json

def nat (n : Nat) : Json := int n

def texts (ts : List String) : Json := arr (ts.map str)

/-- `null` stands for what is absent. -/
def orNull {α : Type} (write : α → Json) : Option α → Json
  | some a => write a
  | none => null

end Json

open Json

namespace Value

def shownSlots : Nat := 16

mutual

/-- A value, where the given function adds what is known of an instance. -/
def toJsonWith (object : Handle → List (String × Json)) (v : Value) : Json :=
  let type := ("t", str v.typeName)
  let shown := ("v", str v.text)
  match v with
  | .none => obj [type]
  | .int n => obj [type, ("v", Json.int n.toInt)]
  | .bool b => obj [type, ("v", Json.bool b)]
  | .string s => obj [type, ("v", str s)]
  | .pointer p => obj [type, shown, ("block", str p.block.text)]
  | .object ref => obj ([type, shown, ("ref", str ref.text)] ++ object ref)
  | .closure c =>
    obj [type, shown, ("symbol", str c.chunk.symbol.text),
      ("captures", Json.texts (c.cells.toList.map Handle.text))]
  | .struct t => obj [type, shown, ("symbol", str t.symbol.text)]
  | .boundMethod ref method =>
    obj [type, shown, ("symbol", str method.text), ("receiver", str ref.text)]
  | .builtin _ => obj [type, shown]
  | .enumCase ⟨owner, name, index, arity, values⟩ =>
    let isConstructor := EnumCase.isConstructor ⟨owner, name, index, arity, values⟩
    obj [type, shown, ("owner", str owner.text), ("index", nat index.toNat),
      ("arity", nat arity.toNat), ("constructor", Json.bool isConstructor),
      ("values", arr (toJsonsWith object values))]

def toJsonsWith (object : Handle → List (String × Json)) : List Value → List Json
  | [] => []
  | v :: vs => v.toJsonWith object :: toJsonsWith object vs

end

def fieldJson (heap : Heap) (object : Handle → List (String × Json)) (v : Value) : Json :=
  match v, v.toJsonWith object with
  | .pointer p, obj members =>
    match heap.blocks.get? p.block with
    | some block =>
      let slots := (block.toList.take shownSlots).map (orNull (toJsonWith object))
      obj (members ++ [("slots", arr slots)])
    | _ => obj members
  | _, j => j

/-- The type and the fields of an instance that exists, down to a depth. -/
def objectMembers (heap : Heap) : Nat → Handle → List (String × Json)
  | 0, _ => []
  | depth + 1, ref =>
    match heap.objects.get? ref with
    | some o =>
      let fields := o.fields.toList.map (orNull (fieldJson heap (objectMembers heap depth)))
      [("type", str o.type.symbol.text), ("fields", arr fields)]
    | _ => []

def toJson (heap : Heap) (depth : Nat) (v : Value) : Json := v.toJsonWith (objectMembers heap depth)

/-- A value that is not in any heap. -/
def constantJson (v : Value) : Json := v.toJsonWith fun _ => []

/-- What can be said of a value without looking into a heap. -/
def profileJson (v : Value) : Json :=
  obj [("display", str v.text), ("debug", str v.description), ("type", str v.typeName),
    ("truthy", Json.bool v.isTruthy), ("none", Json.bool v.isNone),
    ("int", orNull (Json.int ·.toInt) v.int?)]

end Value

end StackCode
