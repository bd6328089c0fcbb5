import StackCode.Proofs.Computations
import StackCode.Proofs.Frames

/-! # The values of modules

No instruction changes the values of modules but the one that stores such a value. So a value that
was computed once stays there, if not the same one, for the rest of the run.
-/

namespace StackCode.Machine

variable {α β : Type} {p : Program}

/-! ## Computations that succeed -/

variable {s s' : State} {n : UInt16}

theorem bind_eq_ok {m : Exec α} {f : α → Exec β} {b : β} (h : (m >>= f) s = .ok b s') :
    ∃ a s₁, m s = .ok a s₁ ∧ f a s₁ = .ok b s' := by
  change EStateM.bind m f s = _ at h
  unfold EStateM.bind at h
  split at h
  · exact ⟨_, _, by assumption, h⟩
  · cases h

theorem ofOption_eq_ok {x : Option α} {cause : Cause} {a : α}
    (h : Exec.ofOption x cause s = .ok a s') : x = some a ∧ s' = s := by
  cases x with
  | none => cases h
  | some a =>
    cases h
    exact ⟨rfl, rfl⟩

theorem symbolAt_eq_ok {symbol : Symbol} (h : symbolAt n s = .ok symbol s') :
    s.frame.chunk.symbol? n = some symbol ∧ s' = s :=
  ofOption_eq_ok (x := s.frame.chunk.symbol? n) h

theorem peek_eq_ok {v : Value} (h : peek s = .ok v s') : s' = s := by
  unfold peek at h
  split at h <;> cases h
  rfl

/-! ## What leaves the values of modules alone -/

/-- The computation leaves the values of modules as they are. -/
def Spares (m : Exec α) : Prop := ∀ s a s', m s = .ok a s' → s'.values = s.values

theorem Spares.bind {m : Exec α} {f : α → Exec β} (h : Spares m) (hf : ∀ a, Spares (f a)) :
    Spares (m >>= f) := by
  intro s b s' hs
  obtain ⟨a, s₁, hm, hs⟩ := bind_eq_ok hs
  exact (hf a s₁ b s' hs).trans (h s a s₁ hm)

theorem spares_host (op : Host α) : Spares (Exec.host op) := by
  intro s a s' h
  simp only [Exec.host] at h
  split at h <;> cases h
  rfl

theorem spares_enter (closure : Closure Value) (base : Nat) (args : List Value)
    (receiver : Option Handle) : Spares (enter p closure base args receiver) := by
  intro s a s' h
  unfold enter at h
  dsimp only at h
  split at h
  · cases h
  obtain ⟨s₁, s₂, hget, h⟩ := bind_eq_ok h
  cases hget
  split at h
  · cases h
  split at h
  · cases receiver <;> cases h
    rfl
  · cases h
    rfl

theorem spares_push (v : Value) : Spares (push p v) := by
  intro s a s' h
  unfold push at h
  split at h <;> cases h
  rfl

theorem spares_leave (v : Value) : Spares (leave p v) := by
  intro s a s' h
  rw [leave_run] at h
  split at h
  · cases h
    rfl
  · obtain ⟨_, s₁, hpush, h⟩ := bind_eq_ok h
    cases h
    have hspares := spares_push v _ _ _ hpush
    exact hspares

/-- Only the instruction that stores the value of a module changes these. -/
theorem Made.spares {C : Prop} {m : Limits → Exec α} (h : Made p C False m)
    (l : Limits) : Spares (m l) := by
  induction h with
  | bind _ _ ih ih' => exact ih.bind ih'
  | access _ | host _ _ => exact spares_host _
  | enter => exact spares_enter _ _ _ _
  | store h => exact h.elim
  | leave => exact spares_leave _
  | push => exact spares_push _
  | pop | peek =>
    intro s a s' h
    simp only [Machine.pop, Machine.peek] at h
    split at h <;> cases h
    rfl
  | _ =>
    intro s a s' h
    cases h
    try rfl

/-! ## Steps -/

variable {s s' : State} {i : Instruction} {r : Option Value}

theorem setModuleValue_stores {a : Unit} (h : execute p ⟨.setModuleValue, n⟩ s = .ok a s') :
    ∃ symbol v, s.frame.chunk.symbol? n = some symbol ∧ s'.values = s.values.insert symbol v := by
  obtain ⟨symbol, s₁, hsymbol, h₁⟩ := bind_eq_ok h
  obtain ⟨hn, rfl⟩ := symbolAt_eq_ok hsymbol
  obtain ⟨v, s₂, hpeek, h₂⟩ := bind_eq_ok h₁
  cases peek_eq_ok hpeek
  cases h₂
  exact ⟨symbol, v, hn, rfl⟩

theorem step_spares (hi : Instruction.decode? s.frame.chunk.code s.frame.next = some i)
    (h : step p s = .ok r s') (ho : i.opcode ≠ .setModuleValue) : s'.values = s.values := by
  rw [step_of_decode? hi] at h
  exact (Made.carryOut i (fun _ => trivial) ho).spares p.limits (s.fetched i) r s' h

theorem step_stores
    (hi : Instruction.decode? s.frame.chunk.code s.frame.next = some ⟨.setModuleValue, n⟩)
    (h : step p s = .ok r s') :
    ∃ symbol v, s.frame.chunk.symbol? n = some symbol ∧ s'.values = s.values.insert symbol v := by
  rw [step_of_decode? hi, if_neg (by simp)] at h
  obtain ⟨a, s₁, hs, h⟩ := bind_eq_ok h
  cases h
  exact setModuleValue_stores (s := s.fetched ⟨.setModuleValue, n⟩) hs

theorem step_keeps_value (hi : Instruction.decode? s.frame.chunk.code s.frame.next = some i)
    (h : step p s = .ok r s') {symbol : Symbol} (hv : s'.values.get? symbol = none) :
    s.values.get? symbol = none := by
  by_cases ho : i.opcode = .setModuleValue
  · obtain ⟨op, operand⟩ := i
    cases ho
    obtain ⟨x, v, -, he⟩ := step_stores hi h
    rw [he, Table.get?_insert] at hv
    split at hv
    · cases hv
    · exact hv
  · rwa [step_spares hi h ho] at hv

end StackCode.Machine
