import StackCode.Proofs.Nesting
import StackCode.Proofs.ValueEquality

/-! # Tables of constants and symbols

Both tables of a chunk are filled in the same way: what is added gets the index of the same entry,
if there is one, and else the index behind the last entry. Whatever is done to a chunk, an index
that was given out denotes what was added, and nothing stands in a table twice.
-/

namespace StackCode

namespace Chunk

theorem toNat_ofNat_of_lt {k : Nat} (h : k < maxEntries) : (UInt16.ofNat k).toNat = k := by
  rw [UInt16.toNat_ofNat']
  exact Nat.mod_eq_of_lt h

section Intern

variable {α : Type} {same : α → α → Bool} {table table' : Array α} {a : α} {n : UInt16}

/-- The index of an entry, which is added to the table unless the same one is there. -/
def intern (same : α → α → Bool) (table : Array α) (a : α) : Option UInt16 × Array α :=
  match table.findIdx? (same · a) with
  | some index => (some (UInt16.ofNat index), table)
  | none =>
    if table.size < maxEntries then (some (UInt16.ofNat table.size), table.push a)
    else (none, table)

/-- What adding an entry comes to. -/
structure Interned (same : α → α → Bool) (table : Array α) (a : α) (n : UInt16)
    (table' : Array α) : Prop where
  size : table'.size ≤ maxEntries
  denotes : ∃ x, table'[n.toNat]? = some x ∧ (x = a ∨ same x a = true)
  old : ∀ x ∈ table', x ∈ table ∨ x = a
  keeps : ∀ (k : Nat) (x : α), table[k]? = some x → table'[k]? = some x
  apart : table.toList.Pairwise (same · · = false) → table'.toList.Pairwise (same · · = false)

theorem interned_of_intern (h : intern same table a = (some n, table'))
    (ht : table.size ≤ maxEntries) : Interned same table a n table' := by
  unfold intern at h
  split at h
  · rename_i k hk
    cases h
    obtain ⟨hlt, hsame, -⟩ := Array.findIdx?_eq_some_iff_getElem.mp hk
    refine ⟨ht, ⟨table[k], ?_, .inr hsame⟩, fun _ => .inl, fun _ _ => id, id⟩
    rw [toNat_ofNat_of_lt (by omega), Array.getElem?_eq_getElem hlt]
  · rename_i hnone
    split at h
    · rename_i hlt
      cases h
      refine ⟨?_, ⟨a, ?_, .inl rfl⟩, fun x hx => Array.mem_push.mp hx, fun k x hx => ?_,
        fun hp => ?_⟩
      · rw [Array.size_push]
        exact hlt
      · rw [toNat_ofNat_of_lt hlt, Array.getElem?_push_size]
      · have hk := (Array.getElem?_eq_some_iff.mp hx).1
        rw [Array.getElem?_push_lt hk, ← hx, Array.getElem?_eq_getElem hk]
      · rw [Array.toList_push, List.pairwise_append]
        refine ⟨hp, List.pairwise_singleton _ _, fun x hx y hy => ?_⟩
        rw [List.mem_singleton.mp hy]
        exact Array.findIdx?_eq_none_iff.mp hnone x (Array.mem_toList_iff.mp hx)
    · cases h

theorem intern_eq_of_none (h : (intern same table a).1 = none) :
    intern same table a = (none, table) := by
  unfold intern at h ⊢
  split
  · rename_i hfound
    rw [hfound] at h
    cases h
  · rename_i hfound
    rw [hfound] at h
    split
    · rename_i hlt
      simp [hlt] at h
    · rfl

theorem intern_fst_eq_none_iff : (intern same table a).1 = none ↔
    maxEntries ≤ table.size ∧ ∀ x ∈ table, same x a = false := by
  unfold intern
  cases h : table.findIdx? (same · a) with
  | some k =>
    obtain ⟨hlt, hsame, -⟩ := Array.findIdx?_eq_some_iff_getElem.mp h
    simpa using fun _ => ⟨table[k], Array.getElem_mem hlt, hsame⟩
  | none =>
    dsimp only
    split
    · exact iff_of_false (by simp) fun hfull => by omega
    · exact iff_of_true rfl ⟨by omega, Array.findIdx?_eq_none_iff.mp h⟩

end Intern

variable {c c' : Chunk Value} {n : UInt16}

theorem addSymbol_eq (c : Chunk Value) (s : Symbol) : c.addSymbol s =
    ((intern (· == ·) c.symbols s).1, { c with symbols := (intern (· == ·) c.symbols s).2 }) := by
  unfold addSymbol intern
  cases c.symbols.findIdx? (· == s) with
  | some _ => rfl
  | none => dsimp only; split <;> rfl

theorem addConstant_eq (c : Chunk Value) (v : Value) : c.addConstant v =
    ((intern Value.isSameConstant c.constants v).1,
      { c with constants := (intern Value.isSameConstant c.constants v).2 }) := by
  unfold addConstant intern
  cases c.constants.findIdx? (·.isSameConstant v) with
  | some _ => rfl
  | none => dsimp only; split <;> rfl

theorem addSymbol_eq_some {s : Symbol} (h : c.addSymbol s = (some n, c'))
    (hc : c.symbols.size ≤ maxEntries) : ∃ symbols, c' = { c with symbols } ∧
      symbols[n.toNat]? = some s ∧ Interned (· == ·) c.symbols s n symbols := by
  rw [addSymbol_eq, Prod.mk.injEq] at h
  have hi := interned_of_intern (Prod.ext h.1 rfl) hc
  obtain ⟨x, hx, hsame⟩ := hi.denotes
  rw [hsame.elim id eq_of_beq] at hx
  exact ⟨_, h.2.symm, hx, hi⟩

/-- A constant that is added stands at its index, unless the same one is there already. -/
theorem addConstant_eq_some {v : Value} (h : c.addConstant v = (some n, c'))
    (hc : c.constants.size ≤ maxEntries) :
    ∃ constants, c' = { c with constants } ∧
      Interned Value.isSameConstant c.constants v n constants := by
  rw [addConstant_eq, Prod.mk.injEq] at h
  exact ⟨_, h.2.symm, interned_of_intern (Prod.ext h.1 rfl) hc⟩

/-- A full table leaves the chunk as it is. -/
theorem addSymbol_eq_of_none {s : Symbol} (h : (c.addSymbol s).1 = none) :
    c.addSymbol s = (none, c) := by
  rw [addSymbol_eq] at h ⊢
  rw [intern_eq_of_none h]

theorem addConstant_eq_of_none {v : Value} (h : (c.addConstant v).1 = none) :
    c.addConstant v = (none, c) := by
  rw [addConstant_eq] at h ⊢
  rw [intern_eq_of_none h]

theorem writeConstant_fst (c : Chunk Value) (v : Value) (line : UInt32) :
    (c.writeConstant v line).1 = (c.addConstant v).1 := by
  unfold writeConstant
  rcases c.addConstant v with ⟨_ | n, c'⟩ <;> rfl

theorem writeConstant_eq_of_none {v : Value} (line : UInt32) (h : (c.addConstant v).1 = none) :
    c.writeConstant v line = (none, c) := by
  rw [writeConstant, addConstant_eq_of_none h]

end Chunk

def Value.Shared : Value → Prop
  | none | bool _ | int _ | string _ | enumCase _ => True
  | _ => False

theorem Value.isSameConstant_iff {v w : Value} :
    v.isSameConstant w = true ↔ v.Shared ∧ (v == w) = true := by
  cases v <;> simp [isSameConstant, Shared]

namespace Chunk

inductive Edit where
  | addConstant (v : Value)
  | addSymbol (s : Symbol)
  | write (bytes : List UInt8) (line : UInt32)
  | writeConstant (v : Value) (line : UInt32)
  | writeJump (op : Opcode) (line : UInt32)
  | writeLoop (start : Nat) (line : UInt32)
  | patchWord (place : Nat) (n : UInt16)
  | patchOp (place : Nat) (op : Opcode)
  | patchJump (place : Nat)

def edit (c : Chunk Value) : Edit → Chunk Value
  | .addConstant v => (c.addConstant v).2
  | .addSymbol s => (c.addSymbol s).2
  | .write bytes line => c.writeBytes bytes line
  | .writeConstant v line => (c.writeConstant v line).2
  | .writeJump op line => (c.writeJump op line).2
  | .writeLoop start line => (c.writeLoop start line).2
  | .patchWord place n => c.patchWord place n
  | .patchOp place op => c.patchOp place op
  | .patchJump place => (c.patchJump place).2

def editAll (c : Chunk Value) (edits : List Edit) : Chunk Value := edits.foldl edit c

/-- No table is too long, and nothing stands in a table twice. -/
structure Tidy (c : Chunk Value) : Prop where
  constants : c.constants.size ≤ maxEntries
  symbols : c.symbols.size ≤ maxEntries
  apart : c.constants.toList.Pairwise (·.isSameConstant · = false)
  nodup : c.symbols.toList.Pairwise ((· == ·) · · = false)

variable {c c' c'' : Chunk Value} {n : UInt16}

/-- The tables of the later chunk are tidy and begin with those of the earlier one. -/
def Extends (c c' : Chunk Value) : Prop := c'.Tidy ∧ Lowering.Tables c c'

theorem Extends.trans (h : c.Extends c') (h' : c'.Extends c'') : c.Extends c'' :=
  ⟨h'.1, h.2.trans h'.2⟩

namespace Tidy

theorem refl (hc : c.Tidy) : c.Extends c := ⟨hc, .refl c⟩

theorem rewritten (hc : c.Tidy) (code : Array UInt8) (lines : Array LineRun) :
    c.Extends { c with code, lines } := ⟨{ hc with }, fun _ _ => id, fun _ _ => id⟩

theorem writeBytes (hc : c.Tidy) (bytes : List UInt8) (line : UInt32) :
    c.Extends (c.writeBytes bytes line) := by
  obtain ⟨lines, h⟩ := c.adds_writeBytes bytes line
  rw [h]
  exact hc.rewritten _ _

theorem addConstant (hc : c.Tidy) {v : Value} (h : c.addConstant v = (some n, c')) :
    c.Extends c' ∧ ∃ x, c'.constant? n = some x ∧ (x == v) = true := by
  obtain ⟨constants, rfl, hi⟩ := addConstant_eq_some h hc.constants
  obtain ⟨x, hx, hsame⟩ := hi.denotes
  refine ⟨⟨{ hc with constants := hi.size, apart := hi.apart hc.apart }, fun k => hi.keeps k.toNat,
    fun _ _ => id⟩, x, hx, ?_⟩
  rcases hsame with rfl | hsame
  · exact Value.beq_refl x
  · exact (Value.isSameConstant_iff.mp hsame).2

theorem writeConstant (hc : c.Tidy) {v : Value} {line : UInt32}
    (h : c.writeConstant v line = (some n, c')) :
    c.Extends c' ∧ ∃ x, c'.constant? n = some x ∧ (x == v) = true := by
  rw [Chunk.writeConstant] at h
  rcases h₁ : c.addConstant v with ⟨_ | k, c₁⟩ <;> rw [h₁] at h <;> cases h
  obtain ⟨hext, x, hx, hsame⟩ := hc.addConstant h₁
  have hwrite := hext.1.writeBytes (Instruction.encode ⟨.constant, n⟩) line
  exact ⟨hext.trans hwrite, x, hwrite.2.constants n x hx, hsame⟩

theorem addSymbol (hc : c.Tidy) {s : Symbol} (h : c.addSymbol s = (some n, c')) :
    c.Extends c' ∧ c'.symbol? n = some s := by
  obtain ⟨symbols, rfl, hs, hi⟩ := addSymbol_eq_some h hc.symbols
  exact ⟨⟨{ hc with symbols := hi.size, nodup := hi.apart hc.nodup }, fun _ _ => id,
    fun k => hi.keeps k.toNat⟩, hs⟩

theorem edit (hc : c.Tidy) (e : Edit) : c.Extends (c.edit e) := by
  have hfails {r : Option UInt16 × Chunk Value} (hnone : r.1 = none → r = (none, c))
      (h : ∀ n c', r = (some n, c') → c.Extends c') : c.Extends r.2 := by
    rcases r with ⟨_ | n, c'⟩
    · rw [hnone rfl]
      exact hc.refl
    · exact h n c' rfl
  cases e with
  | addConstant v => exact hfails addConstant_eq_of_none fun n c' h => (hc.addConstant h).1
  | addSymbol s => exact hfails addSymbol_eq_of_none fun n c' h => (hc.addSymbol h).1
  | write bytes line => exact hc.writeBytes bytes line
  | writeConstant v line =>
    refine hfails (fun h => ?_) fun n c' h => (hc.writeConstant h).1
    exact writeConstant_eq_of_none line (writeConstant_fst c v line ▸ h)
  | writeJump op line => exact hc.rewritten _ _
  | writeLoop start line =>
    rw [Chunk.edit, writeLoop]
    dsimp only
    split
    · split
      · exact hc.writeBytes _ line
      · exact hc.refl
    · exact hc.refl
  | patchWord place n => exact hc.rewritten _ c.lines
  | patchOp place op => exact hc.rewritten _ c.lines
  | patchJump place =>
    rw [Chunk.edit, patchJump]
    dsimp only
    split
    · split
      · exact hc.rewritten _ c.lines
      · exact hc.refl
    · exact hc.refl

theorem editAll (hc : c.Tidy) (edits : List Edit) : c.Extends (c.editAll edits) := by
  induction edits generalizing c with
  | nil => exact hc.refl
  | cons e edits ih => exact (hc.edit e).trans (ih (hc.edit e).1)

end Tidy

theorem eq_of_pairwise {α : Type} {R : α → α → Prop} {table : Array α} {i j : Nat} {x y : α}
    (h : table.toList.Pairwise R) (hx : table[i]? = some x) (hy : table[j]? = some y)
    (hxy : ¬ R x y) (hyx : ¬ R y x) : i = j := by
  obtain ⟨hi, rfl⟩ := Array.getElem?_eq_some_iff.mp hx
  obtain ⟨hj, rfl⟩ := Array.getElem?_eq_some_iff.mp hy
  have hlt := List.pairwise_iff_getElem.mp h
  rcases Nat.lt_trichotomy i j with hij | hij | hij
  · exact absurd (hlt i j hi hj hij) hxy
  · exact hij
  · exact absurd (hlt j i hj hi hij) hyx

/-- On a chunk that began with empty tables, whatever was done to it, an index that is given out
denotes what was added, whatever is done later. No two constants that can be shared are equal, and
no two symbols. What is added gets no index exactly if the table is full and has no such entry, and
then the chunk stays as it is. -/
theorem tables_keep_entries {head c : Chunk Value} {edits : List Edit}
    (hconstants : head.constants = #[]) (hsymbols : head.symbols = #[])
    (h : head.editAll edits = c) :
    (∀ v n c', c.addConstant v = (some n, c') ∨ (∃ line, c.writeConstant v line = (some n, c')) →
      ∀ later, ∃ x, (c'.editAll later).constant? n = some x ∧ (x == v) = true) ∧
    (∀ s n c', c.addSymbol s = (some n, c') →
      ∀ later, (c'.editAll later).symbol? n = some s) ∧
    (∀ (i j : Nat) (x y : Value), c.constants[i]? = some x → c.constants[j]? = some y →
      x.Shared → y.Shared → (x == y) = true → i = j) ∧
    (∀ (i j : Nat) (s : Symbol), c.symbols[i]? = some s → c.symbols[j]? = some s → i = j) ∧
    (∀ v line, ((c.addConstant v).1 = none ↔
        c.constants.size = 65536 ∧ ∀ x ∈ c.constants, ¬ (x.Shared ∧ (x == v) = true)) ∧
      ((c.writeConstant v line).1 = none ↔ (c.addConstant v).1 = none) ∧
      ((c.addConstant v).1 = none →
        (c.addConstant v).2 = c ∧ (c.writeConstant v line).2 = c)) ∧
    ∀ s, ((c.addSymbol s).1 = none ↔ c.symbols.size = 65536 ∧ s ∉ c.symbols) ∧
      ((c.addSymbol s).1 = none → (c.addSymbol s).2 = c) := by
  have hhead : head.Tidy := by constructor <;> simp [hconstants, hsymbols]
  have hc : c.Tidy := h ▸ (hhead.editAll edits).1
  have hfull {k : Nat} (hk : k ≤ maxEntries) : maxEntries ≤ k ↔ k = 65536 := by
    simp only [maxEntries] at hk ⊢
    omega
  refine ⟨fun v n c' hadd later => ?_, fun s n c' hadd later => ?_,
    fun i j x y hx hy hsx hsy he => ?_, fun i j s hi hj => ?_,
    fun v line => ⟨?_, by rw [writeConstant_fst], fun hnone => ?_⟩, fun s => ⟨?_, fun hnone => ?_⟩⟩
  · obtain ⟨hext, x, hx, he⟩ : c.Extends c' ∧ ∃ x, c'.constant? n = some x ∧ (x == v) = true := by
      rcases hadd with hadd | ⟨line, hadd⟩
      · exact hc.addConstant hadd
      · exact hc.writeConstant hadd
    exact ⟨x, (hext.1.editAll later).2.constants n x hx, he⟩
  · obtain ⟨hext, hs⟩ := hc.addSymbol hadd
    exact (hext.1.editAll later).2.symbols n s hs
  · refine eq_of_pairwise hc.apart hx hy ?_ ?_
    · simpa using Value.isSameConstant_iff.mpr ⟨hsx, he⟩
    · simpa using Value.isSameConstant_iff.mpr ⟨hsy, BEq.symm he⟩
  · exact eq_of_pairwise hc.nodup hi hj (by simp) (by simp)
  · rw [addConstant_eq, intern_fst_eq_none_iff, hfull hc.constants]
    simp only [← Value.isSameConstant_iff, Bool.not_eq_true]
  · rw [addConstant_eq_of_none hnone, writeConstant_eq_of_none line hnone]
    exact ⟨rfl, rfl⟩
  · rw [addSymbol_eq, intern_fst_eq_none_iff, hfull hc.symbols, ← Array.forall_mem_ne']
    simp only [beq_eq_false_iff_ne]
  · rw [addSymbol_eq_of_none hnone]

/-- A chunk in which a constant was loaded twice, with a case and a symbol added in between. -/
def loadsTwice : Chunk Value :=
  editAll { name := "test", symbol := .value "main" "test" }
    [.writeConstant (.int 42) 1, .addConstant (.enumCase ⟨.enum "main" "E", "a", 0, 0, []⟩),
      .addSymbol (.value "main" "x"), .writeConstant (.int 42) 2, .patchOp 0 .constant]

theorem tables_keep_entries_loadsTwice : loadsTwice.constants.size = 2 ∧
    ∃ n c', loadsTwice.addConstant (.int 42) = (some n, c') ∧
      ∀ later, ∃ x, (c'.editAll later).constant? n = some x ∧ (x == .int 42) = true := by
  have hadd : (loadsTwice.addConstant (.int 42)).1 = some 0 := by decide +kernel
  exact ⟨by decide +kernel, 0, _, Prod.ext hadd rfl,
    (tables_keep_entries rfl rfl rfl).1 _ _ _ (.inl (Prod.ext hadd rfl))⟩

end Chunk

end StackCode
