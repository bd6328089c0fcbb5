import StackCode.Collection.Storage
import StackCode.Value.Hash
import StackCode.Value.Text

/-! # Running builtins -/

namespace StackCode.Builtin

def expectInt (operation : String) : Value → Host Int64
  | .int n => pure n
  | v => Host.trap (.typeMismatch operation "int" v.typeName)

def expectPointer (operation : String) : Value → Host Pointer
  | .pointer p => pure p
  | v => Host.trap (.typeMismatch operation "pointer" v.typeName)

/-- What a builtin computes from as many arguments as it has parameters, and the line that it
prints, if any. -/
def apply (b : Builtin) (args : List Value) : Host (Value × Option String) :=
  match b, args with
  | .print, [v] => pure (.none, some v.text)
  | .allocate, [v] => do
    let n ← expectInt b.name v
    if n.toInt < 0 then Host.trap (.indexOutOfBounds n 0)
    else return (.pointer (← Host.access (Heap.newBlock n.toInt.toNat)), none)
  | .deref, [v] => do
    let p ← expectPointer b.name v
    return (← Host.access (Heap.load p), none)
  | .storePtr, [v, content] => do
    let p ← expectPointer b.name v
    Host.access (Heap.store p content)
    return (.none, none)
  | .free, [v] => do
    let p ← expectPointer b.name v
    Host.access (Heap.freeBlock p)
    return (.none, none)
  | .hash, [v] =>
    match v.hash with
    | .ok n => pure (.int n, none)
    | .error cause => Host.trap cause
  | _, _ => Host.fault

end StackCode.Builtin
