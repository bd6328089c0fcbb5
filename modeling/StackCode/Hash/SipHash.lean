/-! # SipHash

The keyed hash SipHash-1-3 of a sequence of bytes, with one round for each word of eight bytes and
three at the end. Both keys are zero.
-/

namespace StackCode.SipHash

structure State where
  v0 : UInt64
  v1 : UInt64
  v2 : UInt64
  v3 : UInt64
deriving DecidableEq, Repr

def rotate (x n : UInt64) : UInt64 := (x <<< n) ||| (x >>> (64 - n))

def initial : State :=
  ⟨0x736f6d6570736575, 0x646f72616e646f6d, 0x6c7967656e657261, 0x7465646279746573⟩

def round (s : State) : State :=
  let v0 := s.v0 + s.v1
  let v1 := rotate s.v1 13 ^^^ v0
  let v0 := rotate v0 32
  let v2 := s.v2 + s.v3
  let v3 := rotate s.v3 16 ^^^ v2
  let v0 := v0 + v3
  let v3 := rotate v3 21 ^^^ v0
  let v2 := v2 + v1
  let v1 := rotate v1 17 ^^^ v2
  let v2 := rotate v2 32
  ⟨v0, v1, v2, v3⟩

def absorb (s : State) (word : UInt64) : State :=
  let s := round { s with v3 := s.v3 ^^^ word }
  { s with v0 := s.v0 ^^^ word }

/-- The number that bytes write, the low byte first. -/
def wordOf (bytes : List UInt8) : UInt64 := bytes.foldr (fun b n => (n <<< 8) ||| b.toUInt64) 0

/-- Takes in all bytes; the last word holds the bytes that remain and, on top, the length. -/
def absorbAll (length : Nat) (s : State) : List UInt8 → State
  | b0 :: b1 :: b2 :: b3 :: b4 :: b5 :: b6 :: b7 :: rest =>
    absorbAll length (absorb s (wordOf [b0, b1, b2, b3, b4, b5, b6, b7])) rest
  | rest => absorb s (wordOf rest ||| (UInt64.ofNat length <<< 56))

def hash (bytes : List UInt8) : UInt64 :=
  let s := absorbAll bytes.length initial bytes
  let s := round (round (round { s with v2 := s.v2 ^^^ 0xff }))
  s.v0 ^^^ s.v1 ^^^ s.v2 ^^^ s.v3

end StackCode.SipHash
