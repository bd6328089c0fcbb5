import StackCode.Proofs.Encoding

/-! # Where laid out code puts its instructions

Laying code out writes its instructions one behind another, each at an offset that follows from the
widths of what stands before it. Reading a chunk that was written so gives exactly these
instructions.
-/

namespace StackCode

abbrev Placed := Nat × Instruction

namespace Code

def placed (cells : List UInt8) (t : Targets) (a : Nat) : Code → List Placed
  | skip => []
  | seq first rest => first.placed cells t a ++ rest.placed cells t (a + first.width)
  | instr _ i => [(a, i)]
  | bind _ slot => [(a, binder cells slot)]
  | report _ => []
  | ite _ yes no =>
    (a, ⟨.jumpIfFalse, forward (yes.width + 3)⟩) :: yes.placed cells t (a + 3) ++
      (a + 3 + yes.width, ⟨.jump, forward no.width⟩) ::
        no.placed cells t (a + 3 + yes.width + 3)
  | when _ body => (a, ⟨.jumpIfFalse, forward body.width⟩) :: body.placed cells t (a + 3)
  | loop _ cond body =>
    let test := a + cond.width
    let back := test + 3 + body.width
    cond.placed cells t a ++ (test, ⟨.jumpIfFalse, forward (body.width + 3)⟩) ::
      body.placed cells { t with start := a, stop := back + 3 } (test + 3) ++
        [(back, ⟨.loop, backward (back + 3 - a)⟩)]
  | leave _ => [(a, ⟨.jump, forward (t.stop - (a + 3))⟩)]
  | again _ => [(a, ⟨.loop, backward (a + 3 - t.start)⟩)]
  | arm _ _ attempt rest =>
    let skip := a + attempt.width
    attempt.placed cells { t with fail := skip + 3 } a ++
      (skip, ⟨.jump, forward rest.width⟩) :: rest.placed cells t (skip + 3)
  | require _ => [(a, ⟨.jumpIfFalse, forward (t.fail - (a + 3))⟩)]

end Code

namespace Placed

def bytes (l : List Placed) : List UInt8 := l.flatMap (·.2.encode)

@[simp] theorem bytes_nil : bytes [] = [] := rfl

@[simp] theorem bytes_cons (x : Placed) (l : List Placed) :
    bytes (x :: l) = x.2.encode ++ bytes l := by
  simp [bytes]

@[simp] theorem bytes_append (l m : List Placed) : bytes (l ++ m) = bytes l ++ bytes m := by
  simp [bytes]

inductive Chain : Nat → List Placed → Nat → Prop where
  | nil (a : Nat) : Chain a [] a
  | cons {a e : Nat} {i : Instruction} {l : List Placed} (h : Chain (a + i.size) l e) :
      Chain a ((a, i) :: l) e

namespace Chain

variable {a b e o : Nat} {i : Instruction} {l m : List Placed}

theorem single (a : Nat) (i : Instruction) : Chain a [(a, i)] (a + i.size) := .cons (.nil _)

theorem append (h : Chain a l b) (h' : Chain b m e) : Chain a (l ++ m) e := by
  induction h with
  | nil => exact h'
  | cons _ ih => exact .cons (ih h')

theorem le (h : Chain a l e) : a ≤ e := by
  induction h with
  | nil => exact Nat.le_refl _
  | cons _ ih => omega

theorem length_bytes (h : Chain a l e) : a + (bytes l).length = e := by
  induction h with
  | nil => rfl
  | @cons _ _ i _ _ ih => rw [bytes_cons, List.length_append, i.length_encode]; omega

theorem offset_mem (h : Chain a l e) (hm : (o, i) ∈ l) : a ≤ o ∧ o + i.size ≤ e := by
  induction h with
  | nil => cases hm
  | @cons _ _ j _ h ih =>
    rcases List.mem_cons.mp hm with he | hm
    · cases he
      exact ⟨Nat.le_refl _, h.le⟩
    · have := ih hm
      omega

theorem holds {code : Array UInt8} (h : Chain a l e) (hb : HoldsBytes code a (bytes l))
    (hm : (o, i) ∈ l) : HoldsBytes code o i.encode := by
  induction h with
  | nil => cases hm
  | @cons a _ j l _ ih =>
    rw [bytes_cons] at hb
    rcases List.mem_cons.mp hm with he | hm
    · cases he
      exact hb.left
    · have hr := hb.right
      rw [j.length_encode] at hr
      exact ih hr hm

end Chain

end Placed

namespace Code

open Placed

theorem chain_placed (cells : List UInt8) (t : Targets) (a : Nat) (code : Code) :
    Chain a (code.placed cells t a) (a + code.width) := by
  induction code generalizing t a with
  | skip | report => exact .nil _
  | seq first rest ih ih' =>
    rw [width, ← Nat.add_assoc]
    exact (ih t a).append (ih' t _)
  | instr | leave | again | require => exact .single _ _
  | bind _ slot =>
    rw [placed, binder]
    split <;> exact .single _ _
  | ite loc yes no ih ih' =>
    have h : a + (ite loc yes no).width = a + 3 + yes.width + 3 + no.width := by
      simp only [width]; omega
    rw [h]
    exact .cons ((ih t _).append (.cons (ih' t _)))
  | when _ body ih =>
    rw [width, ← Nat.add_assoc]
    exact .cons (ih t _)
  | loop loc cond body ih ih' =>
    have h : a + (loop loc cond body).width = a + cond.width + 3 + body.width + 3 := by
      simp only [width]; omega
    rw [h]
    exact ((ih t a).append (.cons (ih' _ _))).append (.single _ _)
  | arm loc armLoc attempt rest ih ih' =>
    have h : a + (arm loc armLoc attempt rest).width = a + attempt.width + 3 + rest.width := by
      simp only [width]; omega
    rw [h]
    exact (ih _ a).append (.cons (ih' t _))

end Code

namespace Chunk

open Placed

/-- The chunk with more bytes at its end, of whatever lines. -/
def Adds (c : Chunk Value) (bytes : List UInt8) (c' : Chunk Value) : Prop :=
  ∃ lines, c' = { c with code := c.code ++ bytes.toArray, lines }

namespace Adds

variable {c c' c'' : Chunk Value} {bs bs' : List UInt8}

theorem refl (c : Chunk Value) : c.Adds [] c := ⟨c.lines, by simp⟩

theorem trans (h : c.Adds bs c') (h' : c'.Adds bs' c'') : c.Adds (bs ++ bs') c'' := by
  obtain ⟨lines, rfl⟩ := h
  obtain ⟨lines', rfl⟩ := h'
  exact ⟨lines', by simp⟩

theorem size (h : c.Adds bs c') : c'.size = c.size + bs.length := by
  obtain ⟨lines, rfl⟩ := h
  simp [Chunk.size]

theorem size_eq {i : Instruction} {a : Nat} (h : c.Adds i.encode c') (ha : c.size = a) :
    c'.size = a + i.size := by
  rw [h.size, ha, i.length_encode]

end Adds

theorem adds_writeBytes (c : Chunk Value) (bs : List UInt8) (line : UInt32) :
    c.Adds bs (c.writeBytes bs line) := by
  induction bs generalizing c with
  | nil => exact .refl c
  | cons b bs ih =>
    have hb : c.Adds [b] (c.writeByte b line) := ⟨_, by simp [writeByte]; rfl⟩
    exact hb.trans (ih _)

theorem adds_write (c : Chunk Value) (i : Instruction) (line : UInt32) :
    c.Adds i.encode (c.write i line) :=
  c.adds_writeBytes i.encode line

variable {l : List Placed}

/-- Reading a chunk from an offset on gives the instructions that stand there up to the end. -/
theorem scan_eq {c : Chunk Value} {a : Nat} (h : Chain a l c.size)
    (hi : ∀ x ∈ l, c.instruction? x.1 = some x.2) (read : List Placed) :
    c.scan a read = read.reverse ++ l := by
  generalize he : c.size = e at h
  induction h generalizing read with
  | nil a =>
    have hn : c.instruction? a = none := by
      simp [instruction?, Instruction.decode?, ← he, size]
    rw [scan, hn]
    simp
  | @cons a e i l h ih =>
    have hlt : a < c.size := by
      have := h.le
      have := i.size_pos
      omega
    have hd : c.instruction? a = some i := hi (a, i) List.mem_cons_self
    rw [scan, hd]
    simp only [hlt, if_true]
    rw [ih (fun x hx => hi x (List.mem_cons_of_mem _ hx)) _ he]
    simp

theorem instructions_eq {c : Chunk Value} (h : Chain 0 l c.size)
    (hi : ∀ x ∈ l, c.instruction? x.1 = some x.2) : c.instructions = l := by
  rw [instructions, scan_eq h hi]
  rfl

theorem endOf_eq {a e : Nat} (h : Chain a l e) (hl : l ≠ []) :
    endOf l = e := by
  induction h with
  | nil => exact absurd rfl hl
  | @cons a e i l h ih =>
    cases h with
    | nil => rfl
    | cons h' => simpa [endOf] using ih (by simp)

end Chunk

namespace Code

open Placed

theorem length_bytes_placed (cells : List UInt8) (t : Targets) (a : Nat) (code : Code) :
    (bytes (code.placed cells t a)).length = code.width := by
  have := (code.chain_placed cells t a).length_bytes
  omega

theorem size_of_adds {cells : List UInt8} {t : Targets} {a : Nat} {code : Code} {c c' : Chunk Value}
    (h : c.Adds (bytes (code.placed cells t a)) c') : c'.size = c.size + code.width := by
  rw [h.size, length_bytes_placed]

/-- Writing code adds the bytes of its instructions and nothing else. -/
theorem adds_write (cells : List UInt8) (code : Code) (t : Targets) {c : Chunk Value} {a : Nat}
    (ha : c.size = a) : c.Adds (bytes (code.placed cells t a)) (code.write cells t c) := by
  induction code generalizing t c a with
  | skip | report => exact .refl c
  | seq first rest ih ih' =>
    have h₁ := ih t ha
    have h₂ := ih' t (size_of_adds h₁)
    rw [ha] at h₂
    simpa [placed, write] using h₁.trans h₂
  | instr line i => simpa [placed, write] using c.adds_write i line
  | bind line slot => simpa [placed, write] using c.adds_write (binder cells slot) line
  | ite loc yes no ih ih' =>
    have h₁ := c.adds_write ⟨.jumpIfFalse, forward (yes.width + 3)⟩ loc.line
    have h₂ := ih t (h₁.size_eq ha)
    have hs₂ := (size_of_adds h₂).trans (congrArg (· + yes.width) (h₁.size_eq ha))
    have h₃ := (h₁.trans h₂).trans (Chunk.adds_write _ ⟨.jump, forward no.width⟩ loc.line)
    have h₄ := ih' t ((Chunk.adds_write _ ⟨.jump, forward no.width⟩ loc.line).size_eq hs₂)
    simpa [placed, write] using h₃.trans h₄
  | when loc body ih =>
    have h₁ := c.adds_write ⟨.jumpIfFalse, forward body.width⟩ loc.line
    simpa [placed, write] using h₁.trans (ih t (h₁.size_eq ha))
  | loop loc cond body ih ih' =>
    have h₁ := ih t ha
    have h₂ := Chunk.adds_write (cond.write cells t c) ⟨.jumpIfFalse, forward (body.width + 3)⟩
      loc.line
    have hs₂ := h₂.size_eq ((size_of_adds h₁).trans (congrArg (· + cond.width) ha))
    have h₃ := ih' { t with start := a, stop := a + cond.width + 3 + body.width + 3 } hs₂
    have hs₃ := (size_of_adds h₃).trans (congrArg (· + body.width) hs₂)
    have h₄ := ((h₁.trans h₂).trans h₃).trans (Chunk.adds_write _
      ⟨.loop, backward (a + cond.width + 3 + body.width + 3 - a)⟩ loc.line)
    simp only [write, ha, hs₂, Instruction.size_jumpIfFalse, hs₃]
    simpa [placed] using h₄
  | leave line => simpa [placed, write, ha] using c.adds_write _ line
  | again loc => simpa [placed, write, ha] using c.adds_write _ loc.line
  | arm loc armLoc attempt rest ih ih' =>
    have h₁ := ih { t with fail := a + attempt.width + 3 } ha
    have h₂ := Chunk.adds_write (attempt.write cells { t with fail := a + attempt.width + 3 } c)
      ⟨.jump, forward rest.width⟩ loc.line
    have hs₂ := h₂.size_eq ((size_of_adds h₁).trans (congrArg (· + attempt.width) ha))
    simp only [write, ha]
    simpa [placed] using (h₁.trans h₂).trans (ih' t hs₂)
  | require line => simpa [placed, write, ha] using c.adds_write _ line

end Code

end StackCode
