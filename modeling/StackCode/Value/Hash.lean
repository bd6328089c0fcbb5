import StackCode.Hash.SipHash
import StackCode.Trap

/-! # Hashes of values

Plain values are hashed by their content, addresses by what they denote, and cases by the hashes of
their values. Other values have no hash.
-/

namespace StackCode

def bytesOf (width n : Nat) : List UInt8 :=
  (List.range width).map fun i => UInt8.ofNat (n >>> (8 * i))

/-- The bytes of a text, closed by a byte that occurs in no text. -/
def textBytes (s : String) : List UInt8 := s.toUTF8.toList ++ [0xff]

namespace Handle

def bytes (h : Handle) : List UInt8 := bytesOf 4 h.index.toNat ++ bytesOf 4 h.generation.toNat

end Handle

namespace Pointer

def bytes (p : Pointer) : List UInt8 := p.block.bytes ++ bytesOf 8 p.offset

end Pointer

namespace Symbol

def paramBytes (params : List String) : List UInt8 :=
  bytesOf 8 params.length ++ params.flatMap textBytes

def bytes (s : Symbol) : List UInt8 :=
  textBytes s.module ++ bytesOf 8 s.kind.rank ++ s.kind.names.flatMap textBytes ++
    match s.kind with
    | .function _ params | .method _ _ params => paramBytes params
    | _ => []

end Symbol

namespace Value

mutual

/-- The bytes whose hash is the hash of a value. -/
def bytes : Value → Except Cause (List UInt8)
  | none => .ok [0]
  | int n => .ok (bytesOf 8 n.toUInt64.toNat)
  | bool b => .ok [if b then 1 else 0]
  | string s => .ok (textBytes s)
  | pointer p => .ok p.bytes
  | object ref => .ok ref.bytes
  | enumCase ⟨owner, _, index, _, values⟩ =>
    (hashesOf values).map fun hashes => owner.bytes ++ bytesOf 4 index.toNat ++ hashes
  | closure _ => .error (.typeMismatch "_hash" "hashable value" "function")
  | struct _ => .error (.typeMismatch "_hash" "hashable value" "struct")
  | boundMethod .. => .error (.typeMismatch "_hash" "hashable value" "method")
  | builtin _ => .error (.typeMismatch "_hash" "hashable value" "builtin")

/-- The hashes of several values, eight bytes each. -/
def hashesOf : List Value → Except Cause (List UInt8)
  | [] => .ok []
  | v :: vs =>
    match v.bytes, hashesOf vs with
    | .ok bytes, .ok rest => .ok (bytesOf 8 (SipHash.hash bytes).toNat ++ rest)
    | .error e, _ => .error e
    | .ok _, .error e => .error e

end

def hash (v : Value) : Except Cause Int64 :=
  v.bytes.map fun bytes => (SipHash.hash bytes).toInt64

end Value

end StackCode
