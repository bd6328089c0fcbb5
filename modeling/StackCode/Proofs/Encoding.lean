import StackCode.Chunk.Listing
import StackCode.Code.Layout

/-! # Reading instructions back

Bytes that were written for an instruction are read as that instruction wherever they stand. The
distance of a jump survives its two bytes as long as it is within the limit on distances.
-/

namespace StackCode

theorem ofBytes_lowByte_highByte (n : UInt16) : ofBytes (lowByte n) (highByte n) = n := by
  apply UInt16.toNat.inj
  have hn : n.toNat < 65536 := n.toNat_lt
  have hlow : (lowByte n).toNat = n.toNat % 256 := by simp [lowByte]
  have hhigh : (highByte n).toNat = n.toNat / 256 := by
    simp only [highByte, UInt16.toNat_toUInt8, UInt16.toNat_shiftRight, Nat.shiftRight_eq_div_pow]
    have h8 : UInt16.toNat 8 % 16 = 8 := rfl
    rw [h8]
    omega
  have hshift : (n.toNat / 256) <<< 8 % 65536 = (n.toNat / 256) <<< 8 := by
    rw [Nat.shiftLeft_eq]; omega
  have h8 : UInt16.toNat 8 % 16 = 8 := rfl
  simp only [ofBytes, UInt16.toNat_or, UInt16.toNat_shiftLeft, UInt8.toNat_toUInt16, hlow, hhigh]
  rw [h8, hshift, Nat.or_comm, ← Nat.shiftLeft_add_eq_or_of_lt (by omega), Nat.shiftLeft_eq]
  omega

theorem Opcode.ofByte?_toByte (op : Opcode) : Opcode.ofByte? op.toByte = some op := by
  cases op <;> rfl

namespace Code

theorem forward_toInt {n : Nat} (h : n ≤ Chunk.maxDistance) : (forward n).toInt = n :=
  Int16.toInt_ofNat_of_lt (Nat.lt_of_le_of_lt h (by decide))

theorem backward_toInt {n : Nat} (h : n ≤ Chunk.maxDistance) : (backward n).toInt = -n := by
  have hf := forward_toInt h
  rw [forward] at hf
  rw [backward, Int16.toInt_neg, hf]
  simp only [Chunk.maxDistance] at h
  exact Int.bmod_eq_of_le (by omega) (by omega)

end Code

def HoldsBytes (code : Array UInt8) (offset : Nat) (bytes : List UInt8) : Prop :=
  ∀ k b, bytes[k]? = some b → code[offset + k]? = some b

namespace HoldsBytes

variable {code : Array UInt8} {o : Nat} {b : UInt8} {bs cs : List UInt8}

theorem head (h : HoldsBytes code o (b :: bs)) : code[o]? = some b := h 0 b rfl

theorem tail (h : HoldsBytes code o (b :: bs)) : HoldsBytes code (o + 1) bs := by
  intro k c hk
  rw [Nat.add_assoc, Nat.add_comm 1 k]
  exact h (k + 1) c hk

theorem left (h : HoldsBytes code o (bs ++ cs)) : HoldsBytes code o bs := by
  intro k c hk
  have hlt : k < bs.length := (List.getElem?_eq_some_iff.mp hk).1
  exact h k c (by rw [List.getElem?_append_left hlt, hk])

theorem right (h : HoldsBytes code o (bs ++ cs)) : HoldsBytes code (o + bs.length) cs := by
  intro k c hk
  have hc : (bs ++ cs)[bs.length + k]? = some c := by
    rw [List.getElem?_append_right (Nat.le_add_right _ _), Nat.add_sub_cancel_left, hk]
  rw [Nat.add_assoc]
  exact h _ c hc

theorem whole (bs : List UInt8) : HoldsBytes bs.toArray 0 bs := by
  intro k c hk
  simpa using hk

end HoldsBytes

namespace Layout

variable {code : Array UInt8} {o : Nat}

theorem wordAt?_of_holds {n : UInt16} {bs : List UInt8}
    (h : HoldsBytes code o (lowByte n :: highByte n :: bs)) : wordAt? code o = some n := by
  simp [wordAt?, h.head, h.tail.head, ofBytes_lowByte_highByte]

theorem decode?_of_holds (l : Layout) (x : l.Operand) (h : HoldsBytes code o (l.encode x)) :
    l.decode? code o = some x := by
  cases l
  case none => rfl
  case slot | capture | argCount | property | associated => exact h.head
  case constant | symbol | count => exact wordAt?_of_holds h
  case jump => simp [decode?, wordAt?_of_holds h]
  case invoke | case =>
    have hn : byteAt? code (o + 2) = some x.number := h.tail.tail.head
    simp [decode?, wordAt?_of_holds h, hn]

end Layout

namespace Instruction

theorem decode?_of_holds {code : Array UInt8} {o : Nat} (i : Instruction)
    (h : HoldsBytes code o i.encode) : decode? code o = some i := by
  have hx := i.opcode.layout.decode?_of_holds i.operand h.tail
  simp [decode?, h.head, Opcode.ofByte?_toByte, hx]

theorem length_encode (i : Instruction) : i.encode.length = i.size := by
  obtain ⟨op, x⟩ := i
  simp only [encode, size, Opcode.size, List.length_cons, Nat.add_comm 1]
  congr 1
  generalize op.layout = l at x
  cases l <;> rfl

@[simp] theorem size_jump (d : Int16) : size ⟨.jump, d⟩ = 3 := rfl

@[simp] theorem size_jumpIfFalse (d : Int16) : size ⟨.jumpIfFalse, d⟩ = 3 := rfl

@[simp] theorem size_loop (d : Int16) : size ⟨.loop, d⟩ = 3 := rfl

theorem size_pos (i : Instruction) : 0 < i.size := by
  simp only [size, Opcode.size]; omega

end Instruction

end StackCode
