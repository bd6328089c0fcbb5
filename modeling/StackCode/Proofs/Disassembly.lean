import Mathlib.Data.List.Forall2
import StackCode.Proofs.Placement

/-! # Listings and the bytes behind them

A chunk is read from its start, one instruction behind another, up to the first offset where no
instruction stands. Instructions that were written one after another are read back with their
offsets. Of arbitrary bytes, what was read is exactly a prefix: the rows of the listing determine
its bytes, except that a row of a method or of a case shows the symbol and not the index at which
the chunk holds it.
-/

namespace StackCode

theorem toNat_ofBytes (low high : UInt8) :
    (ofBytes low high).toNat = 256 * high.toNat + low.toNat := by
  have hl : low.toNat < 256 := low.toNat_lt
  have hh : high.toNat < 256 := high.toNat_lt
  have h8 : UInt16.toNat 8 % 16 = 8 := rfl
  have hshift : high.toNat <<< 8 % 65536 = high.toNat <<< 8 := by
    rw [Nat.shiftLeft_eq]; omega
  simp only [ofBytes, UInt16.toNat_or, UInt16.toNat_shiftLeft, UInt8.toNat_toUInt16]
  rw [h8, hshift, Nat.or_comm, ← Nat.shiftLeft_add_eq_or_of_lt (by omega), Nat.shiftLeft_eq]
  omega

theorem lowByte_ofBytes (low high : UInt8) : lowByte (ofBytes low high) = low := by
  apply UInt8.toNat.inj
  have hl : low.toNat < 256 := low.toNat_lt
  simp only [lowByte, UInt16.toNat_toUInt8, toNat_ofBytes]
  omega

theorem highByte_ofBytes (low high : UInt8) : highByte (ofBytes low high) = high := by
  apply UInt8.toNat.inj
  have hl : low.toNat < 256 := low.toNat_lt
  have hh : high.toNat < 256 := high.toNat_lt
  have h8 : UInt16.toNat 8 % 16 = 8 := rfl
  simp only [highByte, UInt16.toNat_toUInt8, UInt16.toNat_shiftRight, Nat.shiftRight_eq_div_pow,
    toNat_ofBytes, h8]
  omega

theorem Opcode.toByte_of_ofByte? {b : UInt8} {op : Opcode} (h : ofByte? b = some op) :
    op.toByte = b := by
  have hall : ∀ n : Fin table.size, table[n].ctorIdx = n := by decide
  obtain ⟨hlt, hop⟩ := Array.getElem?_eq_some_iff.mp h
  have hidx : op.ctorIdx = b.toNat := hop ▸ hall ⟨b.toNat, hlt⟩
  rw [toByte, hidx, UInt8.ofNat_toNat]

theorem Opcode.toByte_inj {op op' : Opcode} (h : op.toByte = op'.toByte) : op = op' := by
  have := ofByte?_toByte op
  rw [h, ofByte?_toByte] at this
  exact (Option.some.inj this).symm

/-! ### Bytes that are read as an instruction are the bytes of that instruction -/

namespace HoldsBytes

variable {code : Array UInt8} {o : Nat} {b : UInt8} {bs cs : List UInt8}

theorem nil : HoldsBytes code o [] := by
  intro k b hk
  simp at hk

theorem cons (h : code[o]? = some b) (h' : HoldsBytes code (o + 1) bs) :
    HoldsBytes code o (b :: bs) := by
  intro k c hk
  cases k with
  | zero => simpa using h.trans hk
  | succ k =>
    rw [Nat.add_comm k 1, ← Nat.add_assoc]
    exact h' k c hk

theorem append (h : HoldsBytes code o bs) (h' : HoldsBytes code (o + bs.length) cs) :
    HoldsBytes code o (bs ++ cs) := by
  induction bs generalizing o with
  | nil => exact h'
  | cons b bs ih =>
    rw [List.length_cons, Nat.add_comm bs.length 1, ← Nat.add_assoc] at h'
    exact cons h.head (ih h.tail h')

theorem add_length_le (h : HoldsBytes code o bs) (hne : bs ≠ []) :
    o + bs.length ≤ code.size := by
  have hpos : 0 < bs.length := List.length_pos_iff.mpr hne
  have hlast := h (bs.length - 1) (bs.getLast hne) (by
    rw [← List.getLast?_eq_getElem?, List.getLast?_eq_some_getLast hne])
  have := (Array.getElem?_eq_some_iff.mp hlast).1
  omega

theorem take (h : HoldsBytes code 0 bs) : code.toList.take bs.length = bs := by
  apply List.ext_getElem?
  intro k
  rw [List.getElem?_take]
  split
  · next hk =>
    have := h k bs[k] (List.getElem?_eq_getElem hk)
    rw [Nat.zero_add] at this
    rw [Array.getElem?_toList, this, List.getElem?_eq_getElem hk]
  · next hk => rw [List.getElem?_eq_none (Nat.le_of_not_lt hk)]

end HoldsBytes

namespace Layout

variable {code : Array UInt8} {o : Nat}

theorem holds_of_byteAt? {b : UInt8} (h : byteAt? code o = some b) : HoldsBytes code o [b] :=
  .cons h .nil

theorem holds_of_wordAt? {n : UInt16} {bs : List UInt8} (h : wordAt? code o = some n)
    (hbs : HoldsBytes code (o + 2) bs) :
    HoldsBytes code o (lowByte n :: highByte n :: bs) := by
  simp only [wordAt?, Option.bind_eq_bind, Option.bind_eq_some_iff, Option.pure_def,
    Option.some.injEq] at h
  obtain ⟨low, hlow, high, hhigh, rfl⟩ := h
  rw [lowByte_ofBytes, highByte_ofBytes]
  exact .cons hlow (.cons hhigh hbs)

theorem holds_of_decode? (l : Layout) {x : l.Operand} (h : l.decode? code o = some x) :
    HoldsBytes code o (l.encode x) := by
  cases l
  case none => exact .nil
  case slot | capture | argCount | property | associated => exact holds_of_byteAt? h
  case constant | symbol | count => exact holds_of_wordAt? h .nil
  case jump =>
    obtain ⟨n, hn, rfl⟩ := Option.map_eq_some_iff.mp h
    have := holds_of_wordAt? hn HoldsBytes.nil
    rwa [← UInt16.toUInt16_toInt16 n] at this
  case invoke | case =>
    simp only [decode?, Option.bind_eq_bind, Option.bind_eq_some_iff, Option.pure_def,
      Option.some.injEq] at h
    obtain ⟨n, hn, b, hb, rfl⟩ := h
    exact holds_of_wordAt? hn (holds_of_byteAt? hb)

theorem exists_byteAt? (h : o < code.size) : ∃ b, byteAt? code o = some b :=
  ⟨code[o], Array.getElem?_eq_getElem h⟩

theorem exists_wordAt? (h : o + 2 ≤ code.size) : ∃ n, wordAt? code o = some n := by
  have hlow : o < code.size := by omega
  have hhigh : o + 1 < code.size := by omega
  exact ⟨ofBytes code[o] code[o + 1], by simp [wordAt?, hlow, hhigh]⟩

theorem exists_decode? (l : Layout) (h : o + l.width ≤ code.size) :
    ∃ x, l.decode? code o = some x := by
  cases l
  case none => exact ⟨(), rfl⟩
  case slot | capture | argCount | property | associated => exact exists_byteAt? h
  case constant | symbol | count => exact exists_wordAt? h
  case jump =>
    obtain ⟨n, hn⟩ := exists_wordAt? h
    exact ⟨n.toInt16, by rw [decode?, hn, Option.map_some]⟩
  case invoke | case =>
    simp only [width] at h
    obtain ⟨n, hn⟩ : ∃ n, wordAt? code o = some n := exists_wordAt? (by omega)
    obtain ⟨b, hb⟩ : ∃ b, byteAt? code (o + 2) = some b := exists_byteAt? (by omega)
    exact ⟨⟨n, b⟩, by simp [decode?, hn, hb]⟩

def constantIndex? : (l : Layout) → l.Operand → Option UInt16
  | .constant, n => some n
  | _, _ => .none

def symbolIndex? : (l : Layout) → l.Operand → Option UInt16
  | .symbol, n => some n
  | .invoke, s | .case, s => some s.symbol
  | _, _ => .none

def distance? : (l : Layout) → l.Operand → Option Int
  | .jump, d => some d.toInt
  | _, _ => .none

/-- Whether what an operand refers to exists, for an instruction that ends at an offset. -/
def refersInside (c : Chunk Value) (after : Int) : (l : Layout) → l.Operand → Bool
  | .constant, n => (c.constant? n).isSome
  | .symbol, n => (c.symbol? n).isSome
  | .invoke, s | .case, s => (c.symbol? s.symbol).isSome
  | .jump, d => 0 ≤ after + d.toInt
  | _, _ => true

theorem refersInside_iff {c : Chunk Value} {after : Int} (l : Layout) (x : l.Operand) :
    l.refersInside c after x = true ↔
      (∀ n, l.constantIndex? x = some n → n.toNat < c.constants.size) ∧
      (∀ n, l.symbolIndex? x = some n → n.toNat < c.symbols.size) ∧
      ∀ d, l.distance? x = some d → 0 ≤ after + d := by
  cases l <;>
    simp [refersInside, constantIndex?, symbolIndex?, distance?, Chunk.constant?, Chunk.symbol?]

end Layout

namespace Instruction

variable {code : Array UInt8} {o : Nat} {i j : Instruction}

theorem decode?_eq_some_iff : decode? code o = some i ↔ HoldsBytes code o i.encode := by
  constructor
  · intro h
    simp only [decode?, Option.bind_eq_bind, Option.bind_eq_some_iff, Option.pure_def,
      Option.some.injEq] at h
    obtain ⟨b, hb, op, hop, x, hx, rfl⟩ := h
    rw [← Opcode.toByte_of_ofByte? hop] at hb
    exact .cons hb (op.layout.holds_of_decode? hx)
  · exact decode?_of_holds i

theorem eq_of_holds (h : HoldsBytes code o i.encode) (h' : HoldsBytes code o j.encode) : i = j :=
  Option.some.inj ((decode?_of_holds i h).symm.trans (decode?_of_holds j h'))

theorem exists_decode? {op : Opcode} (h : code[o]? = some op.toByte)
    (hs : o + op.size ≤ code.size) : ∃ i, decode? code o = some i := by
  rw [Opcode.size, ← Nat.add_assoc] at hs
  obtain ⟨x, hx⟩ := op.layout.exists_decode? hs
  exact ⟨⟨op, x⟩, by simp [decode?, h, Opcode.ofByte?_toByte, hx]⟩

def constantIndex? (i : Instruction) : Option UInt16 := i.opcode.layout.constantIndex? i.operand

def symbolIndex? (i : Instruction) : Option UInt16 := i.opcode.layout.symbolIndex? i.operand

theorem distance?_eq (i : Instruction) : i.distance? = i.opcode.layout.distance? i.operand := by
  obtain ⟨op, x⟩ := i
  cases op <;> rfl

end Instruction

/-! ### Where reading stops -/

namespace Chunk

open Placed

variable {c : Chunk Value} {o : Nat} {i : Instruction}

structure InRange (c : Chunk Value) (o : Nat) (i : Instruction) : Prop where
  constant : ∀ n, i.constantIndex? = some n → n.toNat < c.constants.size
  symbol : ∀ n, i.symbolIndex? = some n → n.toNat < c.symbols.size
  target : ∀ d, i.distance? = some d → 0 ≤ o + i.size + d

theorem refersInside_eq (c : Chunk Value) (o : Nat) (i : Instruction) :
    c.refersInside o i = i.opcode.layout.refersInside c (o + i.size) i.operand := by
  obtain ⟨op, x⟩ := i
  cases op <;> rfl

theorem refersInside_iff : c.refersInside o i = true ↔ c.InRange o i := by
  rw [refersInside_eq, Layout.refersInside_iff, ← i.distance?_eq]
  exact ⟨fun h => ⟨h.1, h.2.1, h.2.2⟩, fun h => ⟨h.1, h.2, h.3⟩⟩

/-- No instruction stands at an offset: there is no byte, the byte is no opcode, the operand is not
whole, or it refers to no constant, to no symbol or to a target before the code. -/
inductive Stuck (c : Chunk Value) (o : Nat) : Prop where
  | ended (h : c.code[o]? = none)
  | unknown {b : UInt8} (h : c.code[o]? = some b) (hb : ∀ op : Opcode, op.toByte ≠ b)
  | truncated {op : Opcode} (h : c.code[o]? = some op.toByte) (hs : c.size < o + op.size)
  | noConstant {i : Instruction} {n : UInt16} (h : HoldsBytes c.code o i.encode)
      (hi : i.constantIndex? = some n) (hn : c.constants.size ≤ n.toNat)
  | noSymbol {i : Instruction} {n : UInt16} (h : HoldsBytes c.code o i.encode)
      (hi : i.symbolIndex? = some n) (hn : c.symbols.size ≤ n.toNat)
  | noTarget {i : Instruction} {d : Int} (h : HoldsBytes c.code o i.encode)
      (hi : i.distance? = some d) (hd : o + i.size + d < 0)

theorem instruction?_eq_some_iff :
    c.instruction? o = some i ↔ HoldsBytes c.code o i.encode ∧ c.InRange o i := by
  rw [instruction?, Option.filter_eq_some_iff, Instruction.decode?_eq_some_iff, refersInside_iff]

theorem not_stuck_of_instruction? (h : c.instruction? o = some i) : ¬ c.Stuck o := by
  obtain ⟨hb, hr⟩ := instruction?_eq_some_iff.mp h
  intro hs
  cases hs with
  | ended h => simp [hb.head] at h
  | unknown h hop => exact hop _ (Option.some.inj (hb.head.symm.trans h))
  | truncated h hlt =>
    have hop := Opcode.toByte_inj (Option.some.inj (hb.head.symm.trans h))
    have hle := hb.add_length_le (by simp [Instruction.encode])
    rw [i.length_encode, Instruction.size, hop] at hle
    exact absurd hle (Nat.not_le_of_lt hlt)
  | noConstant h hi hn =>
    rw [← Instruction.eq_of_holds hb h] at hi
    exact absurd (hr.constant _ hi) (Nat.not_lt_of_le hn)
  | noSymbol h hi hn =>
    rw [← Instruction.eq_of_holds hb h] at hi
    exact absurd (hr.symbol _ hi) (Nat.not_lt_of_le hn)
  | noTarget h hi hd =>
    rw [← Instruction.eq_of_holds hb h] at hi hd
    have := hr.target _ hi
    omega

theorem stuck_of_instruction? (h : c.instruction? o = none) : c.Stuck o := by
  cases hb : c.code[o]? with
  | none => exact .ended hb
  | some b =>
    by_cases hop : ∃ op : Opcode, op.toByte = b
    case neg => exact .unknown hb (by simpa using hop)
    obtain ⟨op, rfl⟩ := hop
    by_cases hs : c.size < o + op.size
    · exact .truncated hb hs
    · obtain ⟨i, hi⟩ := Instruction.exists_decode? hb (Nat.le_of_not_lt hs)
      have hh := Instruction.decode?_eq_some_iff.mp hi
      have hr : ¬ c.InRange o i := by
        intro hr
        rw [instruction?_eq_some_iff.mpr ⟨hh, hr⟩] at h
        cases h
      by_contra hns
      refine hr ⟨fun n hn => ?_, fun n hn => ?_, fun d hd => ?_⟩
      · exact Nat.lt_of_not_le fun hle => hns (.noConstant hh hn hle)
      · exact Nat.lt_of_not_le fun hle => hns (.noSymbol hh hn hle)
      · exact Int.le_of_not_gt fun hlt => hns (.noTarget hh hd hlt)

/-- Instructions that follow each other from an offset on, up to one where none stands. -/
structure Reads (c : Chunk Value) (a : Nat) (l : List Placed) (e : Nat) : Prop where
  chain : Chain a l e
  instruction : ∀ x ∈ l, c.instruction? x.1 = some x.2
  stuck : c.Stuck e

theorem exists_reads_scan (c : Chunk Value) (a : Nat) (read : List Placed) :
    ∃ l e, c.scan a read = read.reverse ++ l ∧ c.Reads a l e := by
  induction a, read using scan.induct c with
  | case1 a read hi =>
    refine ⟨[], a, ?_, .nil a, by simp, stuck_of_instruction? hi⟩
    rw [scan, hi, List.append_nil]
  | case2 a read i hi hlt ih =>
    obtain ⟨l, e, hl, hr⟩ := ih
    refine ⟨(a, i) :: l, e, ?_, .cons hr.chain, ?_, hr.stuck⟩
    · rw [scan, hi]
      simpa [hlt] using hl
    · intro x hx
      rcases List.mem_cons.mp hx with rfl | hx
      · exact hi
      · exact hr.instruction x hx
  | case3 a read i hi hlt =>
    have hb := (instruction?_eq_some_iff.mp hi).1.head
    exact absurd (Array.getElem?_eq_some_iff.mp hb).1 hlt

theorem reads_instructions (c : Chunk Value) :
    c.Reads 0 c.instructions (endOf c.instructions) := by
  obtain ⟨l, e, hl, hr⟩ := c.exists_reads_scan 0 []
  have hins : c.instructions = l := hl
  rw [hins]
  cases l with
  | nil =>
    cases hr.chain
    exact hr
  | cons x l => rwa [endOf_eq hr.chain (by simp)]

theorem Reads.holds {l : List Placed} {a e : Nat} (h : c.Reads a l e) :
    HoldsBytes c.code a (bytes l) := by
  obtain ⟨hc, hi, -⟩ := h
  induction hc with
  | nil => exact .nil
  | @cons a e i l _ ih =>
    have hhead := (instruction?_eq_some_iff.mp (hi (a, i) List.mem_cons_self)).1
    have htail := ih fun x hx => hi x (List.mem_cons_of_mem _ hx)
    rw [bytes_cons]
    exact hhead.append (by rwa [i.length_encode])

/-! ### Writing instructions one after another -/

def writeOperand (c : Chunk Value) (line : UInt32) : (l : Layout) → l.Operand → Chunk Value
  | .none, _ => c
  | .slot, n | .capture, n | .argCount, n | .property, n | .associated, n => c.writeByte n line
  | .constant, n | .symbol, n | .count, n => c.writeWord n line
  | .jump, d => c.writeWord d.toUInt16 line
  | .invoke, s | .case, s => (c.writeWord s.symbol line).writeByte s.number line

def emit (c : Chunk Value) (line : UInt32) (i : Instruction) : Chunk Value :=
  (c.writeOp i.opcode line).writeOperand line i.opcode.layout i.operand

def emitAll (c : Chunk Value) (is : List (Instruction × UInt32)) : Chunk Value :=
  is.foldl (fun c x => c.emit x.2 x.1) c

theorem emit_eq_write (c : Chunk Value) (line : UInt32) (i : Instruction) :
    c.emit line i = c.write i line := by
  obtain ⟨op, x⟩ := i
  cases op <;> rfl

end Chunk

def Placed.behind (a : Nat) : List Instruction → List Placed
  | [] => []
  | i :: is => (a, i) :: behind (a + i.size) is

namespace Chunk

open Placed

variable {c : Chunk Value} {o : Nat} {i : Instruction}

theorem chain_behind (a : Nat) (is : List Instruction) :
    Chain a (behind a is) (a + (bytes (behind a is)).length) := by
  induction is generalizing a with
  | nil => exact .nil a
  | cons i is ih =>
    rw [behind, bytes_cons, List.length_append, i.length_encode, ← Nat.add_assoc]
    exact .cons (ih _)

theorem adds_emitAll (c : Chunk Value) (a : Nat) (is : List (Instruction × UInt32)) :
    c.Adds (bytes (behind a (is.map Prod.fst))) (c.emitAll is) := by
  induction is generalizing c a with
  | nil => exact .refl c
  | cons x is ih =>
    rw [List.map_cons, behind, bytes_cons]
    refine Adds.trans ?_ (ih _ _)
    change c.Adds x.1.encode (c.emit x.2 x.1)
    rw [emit_eq_write]
    exact c.adds_write x.1 x.2

theorem instructions_emitAll (hc : c.code = #[]) (is : List (Instruction × UInt32))
    (hr : ∀ x ∈ behind 0 (is.map Prod.fst), c.InRange x.1 x.2) :
    (c.emitAll is).instructions = behind 0 (is.map Prod.fst) := by
  obtain ⟨lines, he⟩ := c.adds_emitAll 0 is
  rw [hc, Array.empty_append] at he
  have hchain := chain_behind 0 (is.map Prod.fst)
  rw [he]
  apply instructions_eq
  · rw [Nat.zero_add] at hchain
    exact hchain
  · intro x hx
    refine instruction?_eq_some_iff.mpr ⟨hchain.holds (HoldsBytes.whole _) hx, ?_⟩
    exact ⟨(hr x hx).constant, (hr x hx).symbol, (hr x hx).target⟩

end Chunk

/-! ### Rows -/

namespace Chunk

open Placed

variable {c : Chunk Value} {o : Nat} {i : Instruction}

/-- Bytes that a row stands for: its opcode, then its operand with the low byte first. A symbol that
is shown without an index stands for any index at which the chunk holds it. -/
inductive Spells (c : Chunk Value) : Row → List UInt8 → Prop where
  | none {o line op} : Spells c ⟨o, line, op, .none⟩ [op.toByte]
  | byte {o line op n} : Spells c ⟨o, line, op, .byte n⟩ [op.toByte, n]
  | count {o line op n} : Spells c ⟨o, line, op, .count n⟩ [op.toByte, lowByte n, highByte n]
  | constant {o line op n v} :
      Spells c ⟨o, line, op, .constant n v⟩ [op.toByte, lowByte n, highByte n]
  | symbol {o line op n s} :
      Spells c ⟨o, line, op, .symbol n s⟩ [op.toByte, lowByte n, highByte n]
  | jump {o line op d t} :
      Spells c ⟨o, line, op, .jump d t⟩ [op.toByte, lowByte d.toUInt16, highByte d.toUInt16]
  | selector {o line op s number n} (h : c.symbol? n = some s) :
      Spells c ⟨o, line, op, .selector s number⟩ [op.toByte, lowByte n, highByte n, number]

inductive Respells (c : Chunk Value) : List UInt8 → List UInt8 → Prop where
  | refl (bs : List UInt8) : Respells c bs bs
  | selector {b number : UInt8} {n n' : UInt16} {s : Symbol} (h : c.symbol? n = some s)
      (h' : c.symbol? n' = some s) :
      Respells c [b, lowByte n, highByte n, number] [b, lowByte n', highByte n', number]

theorem Spells.respells {r : Row} {bs bs' : List UInt8} (h : c.Spells r bs)
    (h' : c.Spells r bs') : c.Respells bs bs' := by
  cases h <;> cases h'
  case selector.selector n h n' h' => exact .selector h h'
  all_goals exact .refl _

theorem exists_operand? {after : Int} (l : Layout) {x : l.Operand}
    (h : l.refersInside c after x = true) : ∃ s, c.operand? after l x = some s := by
  cases l
  case constant | symbol | invoke | case =>
    obtain ⟨v, hv⟩ := Option.isSome_iff_exists.mp h
    exact ⟨_, by rw [operand?, hv, Option.map_some]⟩
  case jump => exact ⟨_, if_pos (of_decide_eq_true h)⟩
  all_goals exact ⟨_, rfl⟩

theorem spells_of_operand? {after : Int} {s : Shown} {line : UInt32} {op : Opcode} (l : Layout)
    {x : l.Operand} (h : c.operand? after l x = some s) :
    c.Spells ⟨o, line, op, s⟩ (op.toByte :: l.encode x) := by
  cases l
  case none => cases h; exact .none
  case slot | capture | argCount | property | associated => cases h; exact .byte
  case count => cases h; exact .count
  case constant =>
    obtain ⟨v, -, rfl⟩ := Option.map_eq_some_iff.mp h
    exact .constant
  case symbol =>
    obtain ⟨v, -, rfl⟩ := Option.map_eq_some_iff.mp h
    exact .symbol
  case invoke | case =>
    obtain ⟨v, hv, rfl⟩ := Option.map_eq_some_iff.mp h
    exact .selector hv
  case jump =>
    obtain ⟨-, he⟩ := Option.ite_none_right_eq_some.mp h
    cases he
    exact .jump

theorem exists_row? {x : Placed} (h : c.instruction? x.1 = some x.2) :
    ∃ r, c.row? x = some r ∧ c.Spells r x.2.encode := by
  have hr := refersInside_iff.mpr (instruction?_eq_some_iff.mp h).2
  rw [refersInside_eq] at hr
  obtain ⟨s, hs⟩ := exists_operand? _ hr
  exact ⟨_, by rw [row?, hs, Option.map_some], spells_of_operand? _ hs⟩

theorem spells_rows {l : List Placed} (h : ∀ x ∈ l, c.instruction? x.1 = some x.2) :
    List.Forall₂ c.Spells (l.filterMap c.row?) (l.map (·.2.encode)) := by
  induction l with
  | nil => exact .nil
  | cons x l ih =>
    obtain ⟨r, hr, hs⟩ := exists_row? (h x List.mem_cons_self)
    rw [List.filterMap_cons_some hr, List.map_cons]
    exact .cons hs (ih fun y hy => h y (List.mem_cons_of_mem _ hy))

theorem respells_of_spells {rows : List Row} {parts parts' : List (List UInt8)}
    (h : List.Forall₂ c.Spells rows parts) (h' : List.Forall₂ c.Spells rows parts') :
    List.Forall₂ c.Respells parts parts' := by
  induction h generalizing parts' with
  | nil => cases h'; exact .nil
  | cons hr _ ih =>
    cases h' with
    | cons hr' h' => exact .cons (hr.respells hr') (ih h')

/-- Instructions that are in range are read back as they were written, at the offsets that their
sizes give. For any bytes, the instructions that are read stand one behind another from the start up
to the first offset where none stands. Their rows spell the bytes up to this offset, and they spell
nothing else, up to the index of a symbol that is shown without one. -/
theorem disassembly_inverts_emission :
    (∀ (c : Chunk Value) (is : List (Instruction × UInt32)), c.code = #[] →
      (∀ x ∈ behind 0 (is.map Prod.fst), c.InRange x.1 x.2) →
      (c.emitAll is).instructions = behind 0 (is.map Prod.fst)) ∧
    ∀ c : Chunk Value,
      (∃ parts, List.Forall₂ c.Spells c.disassembly parts ∧
        parts.flatten = c.code.toList.take (endOf c.instructions) ∧
        ∀ parts', List.Forall₂ c.Spells c.disassembly parts' →
          List.Forall₂ c.Respells parts parts') ∧
      Chain 0 c.instructions (endOf c.instructions) ∧
      (∀ x ∈ c.instructions, ¬ c.Stuck x.1) ∧ c.Stuck (endOf c.instructions) := by
  refine ⟨fun c is hc hr => instructions_emitAll hc is hr, fun c => ?_⟩
  have hr := c.reads_instructions
  have hlen := hr.chain.length_bytes
  rw [Nat.zero_add] at hlen
  have hs : List.Forall₂ c.Spells c.disassembly (c.instructions.map fun x => x.2.encode) :=
    spells_rows hr.instruction
  refine ⟨⟨_, hs, ?_, fun parts' hs' => respells_of_spells hs hs'⟩, hr.chain, ?_, hr.stuck⟩
  · rw [← hlen, hr.holds.take, bytes, List.flatMap_def]
  · exact fun x hx => not_stuck_of_instruction? (hr.instruction x hx)

def shapeTables : Chunk Value where
  name := "area"
  symbol := ⟨"main", .function "area" []⟩
  constants := #[.int 7]
  symbols := #[⟨"main", .enum "Shape"⟩]

/-- A loop over the cases of an enum that is left at the second one. -/
def caseLoop : List (Instruction × UInt32) :=
  [(⟨.getLocal, (0 : UInt8)⟩, 1), (⟨.matchCase, (⟨0, 1⟩ : Selector)⟩, 1),
    (⟨.jumpIfFalse, (4 : Int16)⟩, 1), (⟨.constant, (0 : UInt16)⟩, 2), (⟨.ret, ()⟩, 2),
    (⟨.loop, (-16 : Int16)⟩, 3)]

theorem disassembly_inverts_emission_caseLoop :
    shapeTables.code = #[] ∧
    (∀ x ∈ behind 0 (caseLoop.map Prod.fst), shapeTables.InRange x.1 x.2) ∧
    (shapeTables.emitAll caseLoop).instructions =
      [(0, ⟨.getLocal, (0 : UInt8)⟩), (2, ⟨.matchCase, (⟨0, 1⟩ : Selector)⟩),
        (6, ⟨.jumpIfFalse, (4 : Int16)⟩), (9, ⟨.constant, (0 : UInt16)⟩), (12, ⟨.ret, ()⟩),
        (13, ⟨.loop, (-16 : Int16)⟩)] := by
  have hr : ∀ x ∈ behind 0 (caseLoop.map Prod.fst), shapeTables.InRange x.1 x.2 := by
    have hall : ∀ x ∈ behind 0 (caseLoop.map Prod.fst),
        shapeTables.refersInside x.1 x.2 = true := by decide
    exact fun x hx => refersInside_iff.mp (hall x hx)
  exact ⟨rfl, hr, disassembly_inverts_emission.1 shapeTables caseLoop rfl hr⟩

end Chunk

end StackCode
