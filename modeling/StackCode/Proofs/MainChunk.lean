import StackCode.Proofs.CompiledBodies
import StackCode.Proofs.Entry

/-! # The main chunk binds what it reads

The analysis of what is known holds along the chunk with which a module starts.
-/

namespace StackCode.Linking

open Code Lowering

variable {strict : Prop} {space : Space} {module : String} {files : List SourceFile}
  {main : Option Symbol} {c : Chunk Value} {ex : Exits Knowledge} {line : UInt32} {m : Knowledge}

def firstBound (n : Nat) : Knowledge := fun f => ∃ slot : UInt8, slot.toNat < n ∧ f = .bound slot

theorem firstBound_binding {n k : Nat} {slot : UInt8} (h : n ≤ k ∨ n = k + 1 ∧ slot.toNat = k) :
    ((firstBound k).binding slot).Covers (firstBound n) := by
  rintro f ⟨other, hlt, rfl⟩
  by_cases he : other = slot
  · exact .inl (he ▸ rfl)
  · refine .inr ⟨⟨trivial, other, ?_, rfl⟩, fun _ _ _ hf => by cases hf⟩
    rcases h with h | ⟨h, hs⟩
    · omega
    · have : other.toNat ≠ slot.toNat := fun h => he (UInt8.toNat.inj h)
      omega

theorem firstBound_lasts (n : Nat) : (firstBound n).lasting.Covers (firstBound n) := by
  rintro f ⟨slot, hlt, rfl⟩
  exact ⟨trivial, slot, hlt, rfl⟩

theorem flows_free {i : Instruction} (n : Nat) (hi : isFree i = true) :
    Flows (bindings strict space c []) ex (.instr line i) (firstBound n) (firstBound n) := by
  obtain ⟨hj, hn, ha⟩ := runs_of_isFree hi
  exact .instr ⟨hn .., ha c _ ▸ firstBound_lasts n⟩ hj

theorem flows_getLocal {slot : UInt8} {n : Nat} (h : slot.toNat < n) :
    Flows (bindings strict space c []) ex (.instr line ⟨.getLocal, slot⟩) (firstBound n)
      (firstBound n) :=
  .instr ⟨⟨slot, h, rfl⟩, fun f hf => .inl (firstBound_lasts n f hf)⟩ rfl

theorem flows_runFiles {indices : List UInt16} {rest : List Code}
    (h : Flows (bindings strict space c []) ex (join rest) (firstBound 1) m) :
    Flows (bindings strict space c []) ex (join (indices.flatMap runFile ++ rest)) (firstBound 1)
      m := by
  induction indices with
  | nil => exact h
  | cons n ns ih =>
    have hbind : Flows (bindings strict space c []) ex (.bind 0 fileSlot) (firstBound 1)
        (firstBound 2) := .bind (firstBound_binding (.inr ⟨rfl, rfl⟩))
    have hget : Flows (bindings strict space c []) ex (.instr 0 ⟨.getLocal, fileSlot⟩)
        (firstBound 2) (firstBound 2) := flows_getLocal (by decide)
    have hset : Flows (bindings strict space c []) ex (.instr 0 ⟨.setLocal, resultSlot⟩)
        (firstBound 2) (firstBound 2) :=
      .instr ⟨trivial, firstBound_binding (.inl (Nat.le_refl 2))⟩ rfl
    have hkeep : Flows (bindings strict space c []) ex keepCode (firstBound 2) (firstBound 2) :=
      .when ⟨fun f hf => .inl (firstBound_lasts 2 f hf), firstBound_lasts 2⟩
        (hget.seq (hset.seq (.seq (flows_free 2 rfl) .skip)))
    have hforget : (firstBound 2).Covers (firstBound 1) := by
      rintro f ⟨slot, hlt, rfl⟩
      exact ⟨slot, by omega, rfl⟩
    rw [List.flatMap_cons, List.append_assoc, join_runFile]
    exact (flows_free 1 rfl).seq (hbind.seq (hget.seq ((flows_free 2 rfl).seq
      ((flows_free 2 rfl).seq (hkeep.seq (.weaken hforget ih fun _ => id))))))

section Start

variable {indices : List UInt16} {finish : List Code} {head : Chunk Value}

/-- The chunk with which a module starts binds what it reads. -/
theorem Parts.flows (h : Parts module files main indices finish head) :
    Flows (bindings strict space c []) ex (startCode indices finish) (firstBound 0)
      (firstBound 1) := by
  have hret : Flows (bindings strict space c []) ex (.instr 0 ⟨.ret, ()⟩ ++ .skip) (firstBound 1)
      (firstBound 1) := (flows_free 1 rfl).seq .skip
  rw [startCode_eq]
  refine (flows_free 0 rfl).seq
    (.seq (.bind (firstBound_binding (.inr ⟨rfl, rfl⟩))) (flows_runFiles ?_))
  have hfinish := h.finishes
  cases main with
  | none =>
    rw [hfinish]
    exact (flows_getLocal (by decide)).seq hret
  | some symbol =>
    obtain ⟨n, -, rfl⟩ := hfinish
    exact (flows_free 1 rfl).seq ((flows_free 1 rfl).seq hret)

theorem mainChunk?_traced (h : mainChunk? module files main = some c) :
    (Nest.node c []).Traced strict space ∧ c.hasReceiver = false ∧ c.captures = #[] ∧
      c.arity = 0 := by
  obtain ⟨indices, finish, head, hparts, rfl⟩ := exists_parts h
  obtain ⟨lines, hlay⟩ := adds_layout [] (startCode indices finish) head
  obtain ⟨hreceiver, hcaptures, harity⟩ := hparts.plain
  refine ⟨.node ⟨?_, fun _ x hx => ?_, fun _ ht => absurd ht List.not_mem_nil,
    fun _ ht => absurd ht List.not_mem_nil⟩ fun _ ht => absurd ht List.not_mem_nil, ?_⟩
  · have hentry : (entry ((startCode indices finish).layout [] head)).Covers (firstBound 0) := by
      rintro f ⟨slot, hlt, rfl⟩
      omega
    exact (Flows.weaken hentry hparts.flows fun _ => id).exists_explains hparts.code hparts.fits
      (runs_binder_of_open fun n hn => absurd hn List.not_mem_nil) (ends_join _ rfl)
  · rw [(congrArg (·.constants) hlay).trans hparts.constants] at hx
    exact absurd hx (Array.not_mem_empty _)
  · rw [hlay]
    exact ⟨hreceiver, hcaptures, harity⟩

end Start

end StackCode.Linking
