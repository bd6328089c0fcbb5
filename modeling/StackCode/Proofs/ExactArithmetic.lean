import Mathlib.Algebra.Ring.Int.Defs
import StackCode.Machine.Arithmetic

/-! # Exact arithmetic

An operation on integers gives its exact result, if this is an integer of 64 bits. What the exact
quotient and remainder are is said by the equation of division. Pointers move by exact distances
within the offsets of 64 bits.
-/

namespace StackCode.Arithmetic

/-- Division toward zero: the remainder is smaller than the divisor and has the sign of the
dividend. -/
structure Divides (x y q r : Int) : Prop where
  sum : x = q * y + r
  small : r.natAbs < y.natAbs
  nonneg : 0 ≤ x → 0 ≤ r
  nonpos : x ≤ 0 → r ≤ 0

theorem divides_iff {x y q r : Int} :
    Divides x y q r ↔ y ≠ 0 ∧ x.tdiv y = q ∧ x.tmod y = r := by
  constructor
  · rintro ⟨hsum, hsmall, hpos, hneg⟩
    have hy : y ≠ 0 := by omega
    have hsum : r + y * q = x := by rw [hsum, Int.mul_comm y q, Int.add_comm]
    refine ⟨hy, ?_⟩
    rcases Int.le_total 0 x with hx | hx
    · exact (Int.tdiv_tmod_unique hx hy).mpr ⟨hsum, hpos hx, by omega⟩
    · exact (Int.tdiv_tmod_unique' hx hy).mpr ⟨hsum, by omega, hneg hx⟩
  · rintro ⟨hy, rfl, rfl⟩
    refine ⟨?_, ?_, fun hx => Int.tmod_nonneg y hx, fun hx => ?_⟩
    · rw [Int.mul_comm, Int.add_comm, Int.tmod_add_mul_tdiv]
    · rw [Int.natAbs_tmod]
      exact Nat.mod_lt _ (by omega)
    · exact ((Int.tdiv_tmod_unique' hx hy).mp ⟨rfl, rfl⟩).2.2

namespace Operation

def computing : List Operation := [add, subtract, multiply, divide, modulo]

/-- The exact result of an operation that computes an integer. -/
def Exact (op : Operation) (x y n : Int) : Prop :=
  match op with
  | add => n = x + y
  | subtract => n = x - y
  | multiply => n = x * y
  | divide => ∃ r, Divides x y n r
  | modulo => ∃ q, Divides x y q n
  | _ => False

theorem Exact.unique {op : Operation} {x y n m : Int} (h : op.Exact x y n) (h' : op.Exact x y m) :
    n = m := by
  cases op with
  | add | subtract | multiply => exact Eq.trans h (Eq.symm h')
  | divide =>
    obtain ⟨r, h⟩ := h
    obtain ⟨r', h'⟩ := h'
    exact (divides_iff.mp h).2.1.symm.trans (divides_iff.mp h').2.1
  | modulo =>
    obtain ⟨q, h⟩ := h
    obtain ⟨q', h'⟩ := h'
    exact (divides_iff.mp h).2.2.symm.trans (divides_iff.mp h').2.2
  | _ => exact h.elim

theorem Exact.ne_zero {op : Operation} {x y n : Int} (h : op.Exact x y n)
    (hop : op = divide ∨ op = modulo) : y ≠ 0 := by
  rcases hop with rfl | rfl <;> obtain ⟨m, h⟩ := h <;> exact (divides_iff.mp h).1

/-- The remainder that is refused although it is an integer of 64 bits: its quotient is not. -/
def Overshoots (op : Operation) (x y : Int) : Prop := op = modulo ∧ x = -2 ^ 63 ∧ y = -1

end Operation

def Fits (n : Int) : Prop := -2 ^ 63 ≤ n ∧ n < 2 ^ 63

theorem fits_toInt (x : Int64) : Fits x.toInt := ⟨x.le_toInt, x.toInt_lt⟩

theorem fit?_cases (n : Int) :
    (∃ m : Int64, fit? n = some m ∧ m.toInt = n) ∨ fit? n = none ∧ ¬ Fits n := by
  unfold fit?
  rw [Int64.toInt_minValue, Int64.toInt_maxValue]
  split
  · rename_i h
    exact .inl ⟨_, rfl, Int64.toInt_ofInt_of_le h.1 (by omega)⟩
  · rename_i h
    exact .inr ⟨rfl, fun hn => h ⟨hn.1, Int.le_sub_one_of_lt hn.2⟩⟩

variable {op : Operation} {x y : Int64}

/-- What an operation on two integers can come to. -/
inductive Outcome (op : Operation) (x y : Int64) : Except Cause Value → Prop where
  | zero (division : op = .divide ∨ op = .modulo) (hy : y.toInt = 0) :
    Outcome op x y (.error .divisionByZero)
  | value {n : Int64} (exact : op.Exact x.toInt y.toInt n.toInt)
    (inside : ¬ op.Overshoots x.toInt y.toInt) : Outcome op x y (.ok (.int n))
  | overflow {n : Int} (exact : op.Exact x.toInt y.toInt n)
    (outside : ¬ Fits n ∨ op.Overshoots x.toInt y.toInt) :
    Outcome op x y (.error (.integerOverflow op.name))

theorem outcome_checked {n : Int} (h : op.Exact x.toInt y.toInt n) (hop : op ≠ .modulo) :
    Outcome op x y (checked op (fit? n)) := by
  rcases fit?_cases n with ⟨m, hm, rfl⟩ | ⟨hm, hn⟩
  · rw [hm]
    exact .value h fun ho => hop ho.1
  · rw [hm]
    exact .overflow h (.inl hn)

/-- The quotient of two integers of 64 bits is one, with one exception. -/
theorem fits_tdiv_iff {x y : Int} (hx : Fits x) (hy : y ≠ 0) :
    Fits (x.tdiv y) ↔ ¬ (x = -2 ^ 63 ∧ y = -1) := by
  unfold Fits at *
  by_cases h₁ : y = 1
  · rw [h₁, Int.tdiv_one]
    omega
  by_cases h₂ : y = -1
  · rw [h₂, Int.tdiv_neg, Int.tdiv_one]
    omega
  have hle : (x.tdiv y).natAbs ≤ x.natAbs / 2 := by
    rw [Int.natAbs_tdiv]
    exact Nat.div_le_div_left (by omega) (by decide)
  omega

theorem onInts_outcome (hop : op ∈ Operation.computing) : Outcome op x y (onInts op x y) := by
  have hdiv (hy : y ≠ 0) : Divides x.toInt y.toInt (x.toInt.tdiv y.toInt) (x.toInt.tmod y.toInt) :=
    divides_iff.mpr ⟨fun h => hy (Int64.toInt_inj.mp h), rfl, rfl⟩
  cases op with
  | add | subtract | multiply => exact outcome_checked rfl (by decide)
  | divide =>
    change Outcome _ x y (if y = 0 then _ else _)
    split
    · exact .zero (.inl rfl) (by simp [*])
    · exact outcome_checked ⟨_, hdiv ‹_›⟩ (by decide)
  | modulo =>
    change Outcome _ x y (if y = 0 then _ else checked _ _)
    split
    · exact .zero (.inr rfl) (by simp [*])
    rename_i hy
    have hd := hdiv hy
    have hq := fits_tdiv_iff (fits_toInt x) (divides_iff.mp hd).1
    rcases fit?_cases (x.toInt.tdiv y.toInt) with ⟨q, he, heq⟩ | ⟨he, hn⟩
    · rcases fit?_cases (x.toInt.tmod y.toInt) with ⟨r, hr, hrn⟩ | ⟨-, hn⟩
      · rw [he, Option.bind_some, hr]
        exact .value (hrn ▸ ⟨_, hd⟩) fun h => hq.mp (heq ▸ fits_toInt q) h.2
      · have hsmall := hd.small
        have hy := fits_toInt y
        unfold Fits at hy hn
        omega
    · rw [he]
      exact .overflow ⟨_, hd⟩ (.inr ⟨rfl, Decidable.not_not.mp (mt hq.mpr hn)⟩)
  | _ => simp [Operation.computing] at hop

namespace Outcome

variable {r : Except Cause Value}

theorem ok_iff (h : Outcome op x y r) (v : Value) : r = .ok v ↔ ∃ n : Int64, v = .int n ∧
    op.Exact x.toInt y.toInt n.toInt ∧ ¬ op.Overshoots x.toInt y.toInt := by
  constructor
  · rintro rfl
    cases h with
    | value hn ho => exact ⟨_, rfl, hn, ho⟩
  · rintro ⟨n, rfl, hn, ho⟩
    cases h with
    | zero hop hy => exact absurd hy (hn.ne_zero hop)
    | value hm => rw [Int64.toInt_inj.mp (hm.unique hn)]
    | overflow hm hout => exact absurd (hm.unique hn ▸ fits_toInt n) (hout.resolve_right ho)

theorem divisionByZero_iff (h : Outcome op x y r) : r = .error .divisionByZero ↔
    (op = .divide ∨ op = .modulo) ∧ y.toInt = 0 := by
  constructor
  · rintro rfl
    cases h with
    | zero hop hy => exact ⟨hop, hy⟩
  · rintro ⟨hop, hy⟩
    cases h with
    | zero => rfl
    | value hn | overflow hn => exact absurd hy (hn.ne_zero hop)

theorem integerOverflow_iff (h : Outcome op x y r) : r = .error (.integerOverflow op.name) ↔
    (∃ n, op.Exact x.toInt y.toInt n ∧ ¬ Fits n) ∨ op.Overshoots x.toInt y.toInt := by
  constructor
  · rintro rfl
    cases h with
    | overflow hn hout => exact hout.imp_left fun hf => ⟨_, hn, hf⟩
  · intro hout
    cases h with
    | zero hop hy =>
      rcases hout with ⟨n, hn, -⟩ | ⟨-, -, hy'⟩
      · exact absurd hy (hn.ne_zero hop)
      · omega
    | value hm ho =>
      obtain ⟨n, hn, hf⟩ := hout.resolve_right ho
      exact absurd (hm.unique hn ▸ fits_toInt _) hf
    | overflow => rfl

end Outcome

variable {p : Pointer} {v : Value} {n : Int64}

theorem move?_eq_some {q : Pointer} {d : Int} : p.move? d = some q ↔
    0 ≤ p.offset + d ∧ p.offset + d < 2 ^ 64 ∧ q = ⟨p.block, (p.offset + d).toNat⟩ := by
  unfold Pointer.move?
  simp [UInt64.size, and_assoc, eq_comm]

theorem movePointer_eq_ok {delta : Option Int} :
    movePointer p n delta = .ok v ↔
      ∃ d q, delta = some d ∧ p.move? d = some q ∧ v = .pointer q := by
  unfold movePointer
  cases delta with
  | none => simp
  | some d => cases h : p.move? d <;> simp [h, eq_comm]

theorem add_pointer_eq_ok :
    binary .add (.pointer p) (.int n) = .ok v ↔
      0 ≤ p.offset + n.toInt ∧ p.offset + n.toInt < 2 ^ 64 ∧
        v = .pointer ⟨p.block, (p.offset + n.toInt).toNat⟩ := by
  change movePointer p n (some n.toInt) = .ok v ↔ _
  simp [movePointer_eq_ok, move?_eq_some, and_assoc]

theorem subtract_pointer_eq_ok :
    binary .subtract (.pointer p) (.int n) = .ok v ↔ n.toInt ≠ -2 ^ 63 ∧
      0 ≤ p.offset - n.toInt ∧ p.offset - n.toInt < 2 ^ 64 ∧
        v = .pointer ⟨p.block, (p.offset - n.toInt).toNat⟩ := by
  change movePointer p n (if n = Int64.minValue then none else some (-n.toInt)) = .ok v ↔ _
  rw [← Int64.toInt_minValue, Ne, Int64.toInt_inj]
  split
  · simp [movePointer_eq_ok, *]
  · simp [movePointer_eq_ok, move?_eq_some, and_assoc, *, ← Int.sub_eq_add_neg]

/-- Arithmetic is exact. An operation on integers gives a value exactly if its exact result is an
integer of 64 bits, with the exception of one remainder, and this value is the result. A pointer
moves exactly if it stays within the offsets of 64 bits, and moving it back gives the pointer. -/
theorem binary_exact (x y n : Int64) (p : Pointer) :
    (∀ op ∈ Operation.computing,
      (∀ v, binary op (.int x) (.int y) = .ok v ↔ ∃ m : Int64, v = .int m ∧
        op.Exact x.toInt y.toInt m.toInt ∧ ¬ op.Overshoots x.toInt y.toInt) ∧
      (binary op (.int x) (.int y) = .error .divisionByZero ↔
        (op = .divide ∨ op = .modulo) ∧ y.toInt = 0) ∧
      (binary op (.int x) (.int y) = .error (.integerOverflow op.name) ↔
        (∃ m, op.Exact x.toInt y.toInt m ∧ ¬ Fits m) ∨ op.Overshoots x.toInt y.toInt)) ∧
    (∀ v, binary .add (.pointer p) (.int n) = .ok v ↔
      0 ≤ p.offset + n.toInt ∧ p.offset + n.toInt < 2 ^ 64 ∧
        v = .pointer ⟨p.block, (p.offset + n.toInt).toNat⟩) ∧
    (∀ v, binary .subtract (.pointer p) (.int n) = .ok v ↔
      n.toInt ≠ -2 ^ 63 ∧ 0 ≤ p.offset - n.toInt ∧ p.offset - n.toInt < 2 ^ 64 ∧
        v = .pointer ⟨p.block, (p.offset - n.toInt).toNat⟩) ∧
    ∀ v w, binary .add (.pointer p) (.int n) = .ok v → binary .subtract v (.int n) = .ok w →
      w = .pointer p := by
  refine ⟨fun op hop => ?_, fun v => add_pointer_eq_ok, fun v => subtract_pointer_eq_ok,
    fun v w hv hw => ?_⟩
  · have h : Outcome op x y (binary op (.int x) (.int y)) := onInts_outcome hop
    exact ⟨h.ok_iff, h.divisionByZero_iff, h.integerOverflow_iff⟩
  · obtain ⟨hpos, -, rfl⟩ := add_pointer_eq_ok.mp hv
    obtain ⟨-, -, -, rfl⟩ := subtract_pointer_eq_ok.mp hw
    simp [Int.toNat_of_nonneg hpos]

/-- The least integer has no remainder by -1, though it would be 0. -/
theorem binary_exact_least : Operation.modulo ∈ Operation.computing ∧
    binary .modulo (.int Int64.minValue) (.int (-1)) = .error (.integerOverflow "MODULO") ∧
    binary .modulo (.int (-7)) (.int 2) = .ok (.int (-1)) ∧
    binary .add (.pointer ⟨⟨0, 0⟩, 3⟩) (.int (-3)) = .ok (.pointer ⟨⟨0, 0⟩, 0⟩) := by
  have hop : Operation.modulo ∈ Operation.computing := by decide
  have h := binary_exact Int64.minValue (-1) (-3) ⟨⟨0, 0⟩, 3⟩
  have h' := binary_exact (-7) 2 0 ⟨⟨0, 0⟩, 0⟩
  exact ⟨hop, ((h.1 _ hop).2.2.mpr (.inr ⟨rfl, rfl, rfl⟩)),
    ((h'.1 _ hop).1 _).mpr ⟨-1, rfl, ⟨-3, by decide, by decide, by decide, by decide⟩,
      fun ho => absurd ho.2.1 (by decide)⟩,
    (h.2.1 _).mpr ⟨by decide, by decide, rfl⟩⟩

end StackCode.Arithmetic
