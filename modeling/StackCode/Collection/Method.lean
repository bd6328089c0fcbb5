import StackCode.Collection.Array
import StackCode.Collection.Dictionary
import StackCode.Standard

/-! # Calls on collections

Construction, method calls and subscripts of the standard structs.
-/

namespace StackCode.Collection

/-- The descriptors that new collections get. -/
structure Types where
  array : StructType
  dictionary : StructType

def construct (types : Types) (name : String) (args : List Value) : Host Value :=
  if name == Standard.arrayName then Array.create types.array args
  else if name == Standard.dictionaryName then
    match args with
    | [] => Dictionary.create types.dictionary []
    | _ => Host.trap (.arityMismatch name 0 (UInt8.ofNat args.length))
  else Host.trap (.unresolvedSymbol (Standard.structSymbol name).text)

/-- The argument at a position, which the caller must have given. -/
def argument (args : List Value) (i : Nat) : Host Value :=
  match args[i]? with
  | some v => pure v
  | none => Host.fault

def contains (extent : Host (Pointer × Nat)) (args : List Value) : Host Value := do
  let (p, count) ← extent
  return .bool (← findSlot p (← argument args 0) 0 count).isSome

def invokeArray (method : String) (ref : Handle) (args : List Value) : Host Value :=
  match method with
  | "append" => do
    Array.append ref (← argument args 0)
    return .none
  | "get" => do Array.get ref (← argument args 0)
  | "set" => do
    Array.set ref (← argument args 0) (← argument args 1)
    return .none
  | "remove" => do Array.remove ref (← argument args 0)
  | "contains" => contains (Array.extent ref) args
  | _ => Host.trap (.unknownMethod Standard.arrayName method)

def invokeDictionary (method : String) (ref : Handle) (args : List Value) : Host Value :=
  match method with
  | "get" => do Dictionary.get ref (← argument args 0)
  | "set" => do
    Dictionary.set ref (← argument args 0) (← argument args 1)
    return .none
  | "remove" => do Dictionary.remove ref (← argument args 0)
  | "contains" => contains (Dictionary.extent ref) args
  | _ => Host.trap (.unknownMethod Standard.dictionaryName method)

/-- Calls a method of the standard module with as many arguments as its symbol has parameters. -/
def invoke (method : Symbol) (ref : Handle) (args : List Value) : Host Value :=
  match method.kind with
  | .method owner name params =>
    if args.length ≠ params.length then
      Host.trap (.arityMismatch (owner ++ "." ++ name) (UInt8.ofNat params.length)
        (UInt8.ofNat args.length))
    else if owner == Standard.arrayName then invokeArray name ref args
    else if owner == Standard.dictionaryName then invokeDictionary name ref args
    else Host.trap (.unknownMethod owner name)
  | _ => Host.trap (.internal (method.text ++ " is not a method symbol"))

/-- The instance of a standard struct that a value denotes, with the name of the struct. -/
def expect (receiver : Value) : Host (Handle × String) := do
  let mismatch := Cause.typeMismatch "subscript" "Array or Dictionary" receiver.typeName
  match receiver with
  | .object ref =>
    let object ← Host.access (Heap.object ref)
    if object.type.symbol.isStandard then pure (ref, object.type.name) else Host.trap mismatch
  | _ => Host.trap mismatch

def subscript (receiver index : Value) : Host Value := do
  let (ref, name) ← expect receiver
  if name == Standard.arrayName then Array.get ref index else Dictionary.get ref index

def setSubscript (receiver index v : Value) : Host Unit := do
  let (ref, name) ← expect receiver
  if name == Standard.arrayName then Array.set ref index v else Dictionary.set ref index v

end StackCode.Collection
