import StackCode.Proofs.Computations
import StackCode.Proofs.Soundness

/-! # Limits on frames and on the stack

A limit is consulted where a value is pushed and where a frame is entered, and all that it can do is
to overflow. Two programs that differ in their limits only are run side by side: as long as the
narrow one does not overflow, the wide one does the same.
-/

namespace StackCode

namespace Machine

/-- The wide limits leave room for all that the narrow ones do, and blocks are as large. -/
structure Limits.Widens (narrow wide : Limits) : Prop where
  maxFrames : narrow.maxFrames ≤ wide.maxFrames
  maxStack : narrow.maxStack ≤ wide.maxStack
  maxBlockSlots : wide.maxBlockSlots = narrow.maxBlockSlots

theorem Limits.Widens.refl (l : Limits) : l.Widens l := ⟨Nat.le_refl _, Nat.le_refl _, rfl⟩

/-- The state keeps to the limits. There is always the frame of the body that runs. -/
structure State.Confined (s : State) (l : Limits) : Prop where
  stack : s.stack.size ≤ l.maxStack
  frames : s.callers.size + 1 ≤ max 1 l.maxFrames

variable {l : Limits}

theorem State.Confined.of_le {s s' : State} (h : s.Confined l)
    (hstack : s'.stack.size ≤ s.stack.size) (hcallers : s'.callers.size ≤ s.callers.size) :
    s'.Confined l :=
  ⟨Nat.le_trans hstack h.stack, Nat.le_trans (Nat.succ_le_succ hcallers) h.frames⟩

/-- The first computation leads to a state that keeps to the limits, and the second does the same
unless the first overflows. -/
def FitsAt {α : Type} (l : Limits) (m m' : Exec α) (s : State) : Prop :=
  Meets (fun _ s' => s'.Confined l) (fun _ s' => s'.Confined l) (m s) ∧
    (m' s = m s ∨ ∃ s', m s = .error (.trap .stackOverflow) s')

def Fits {α : Type} (l : Limits) (m m' : Exec α) : Prop :=
  ∀ s : State, s.Confined l → FitsAt l m m' s

section Rules

variable {α β : Type} {l : Limits} {m m' : Exec α}

theorem Fits.bind {rest rest' : α → Exec β} (h : Fits l m m')
    (h' : ∀ a, Fits l (rest a) (rest' a)) : Fits l (m >>= rest) (m' >>= rest') := by
  intro s hs
  obtain ⟨hm, heq⟩ := h s hs
  cases hr : m s with
  | ok a s' =>
    rw [hr] at hm heq
    have hm' : m' s = .ok a s' := by
      rcases heq with heq | ⟨_, he⟩
      · exact heq
      · cases he
    rw [FitsAt, bind_of_ok hr, bind_of_ok hm']
    exact h' a s' hm
  | error e s' =>
    rw [hr] at hm heq
    rw [FitsAt, bind_of_error hr]
    refine ⟨hm, ?_⟩
    rcases heq with heq | ⟨_, he⟩
    · exact .inl (bind_of_error heq)
    · cases he
      exact .inr ⟨_, rfl⟩

theorem FitsAt.read {rest rest' : State → Exec β} {s : State} (h : FitsAt l (rest s) (rest' s) s) :
    FitsAt l (get >>= rest) (get >>= rest') s := h

/-- A computation that consults no limit and leaves no more on the stack and no more frames. -/
theorem Fits.of_meets (h : ∀ s, Meets
      (fun _ s' => s'.stack.size ≤ s.stack.size ∧ s'.callers.size ≤ s.callers.size)
      (fun _ s' => s'.stack.size ≤ s.stack.size ∧ s'.callers.size ≤ s.callers.size) (m s)) :
    Fits l m m :=
  fun s hs => ⟨(h s).mono (fun _ _ h => hs.of_le h.1 h.2) fun _ _ h => hs.of_le h.1 h.2, .inl rfl⟩

theorem fits_pure (a : α) : Fits l (pure a) (pure a) :=
  .of_meets fun _ => ⟨Nat.le_refl _, Nat.le_refl _⟩

theorem fits_trap (cause : Cause) : Fits l (Exec.trap cause : Exec α) (Exec.trap cause) :=
  .of_meets fun _ => ⟨Nat.le_refl _, Nat.le_refl _⟩

theorem fits_modify {f : State → State} (hstack : ∀ s, (f s).stack.size ≤ s.stack.size)
    (hcallers : ∀ s, (f s).callers.size ≤ s.callers.size) :
    Fits l (modify f : Exec PUnit) (modify f) :=
  .of_meets fun s => ⟨hstack s, hcallers s⟩

theorem fits_host (op : Host α) : Fits l (Exec.host op) (Exec.host op) := by
  refine .of_meets fun s => ?_
  unfold Exec.host
  dsimp only
  cases op s.heap <;> exact ⟨Nat.le_refl _, Nat.le_refl _⟩

end Rules

theorem size_shrink_le (stack : Array Value) (height : Nat) :
    (stack.shrink height).size ≤ stack.size := by
  rw [Array.size_shrink]
  exact Nat.min_le_right _ _

theorem fits_pop : Fits l pop pop := by
  refine .of_meets fun s => ?_
  unfold pop
  cases s.stack.back? with
  | some v => exact ⟨by simp, Nat.le_refl _⟩
  | none => exact ⟨Nat.le_refl _, Nat.le_refl _⟩

theorem fits_peek : Fits l peek peek := by
  refine .of_meets fun s => ?_
  unfold peek
  cases s.stack.back? <;> exact ⟨Nat.le_refl _, Nat.le_refl _⟩

theorem fits_fetch : Fits l fetch fetch := by
  refine .of_meets fun s => ?_
  unfold fetch
  dsimp only
  split <;> exact ⟨Nat.le_refl _, Nat.le_refl _⟩

/-! ## Pushing and entering -/

section Steps

variable {p : Program} {wide : Limits}

theorem fits_push (hw : p.limits.Widens wide) (v : Value) :
    Fits p.limits (push p v) (push (p.within wide) v) := by
  intro s hs
  by_cases h : s.stack.size < p.limits.maxStack
  · have hwide : s.stack.size < (p.within wide).limits.maxStack := Nat.lt_of_lt_of_le h hw.maxStack
    refine ⟨?_, .inl ?_⟩
    · rw [push, if_pos h]
      exact ⟨by rwa [Array.size_push], hs.frames⟩
    · rw [push, push, if_pos h, if_pos hwide]
  · rw [FitsAt, push, if_neg h]
    exact ⟨hs, .inr ⟨s, rfl⟩⟩

theorem fits_enterStart {s : State} (hs : s.Confined p.limits)
    (hroom : ¬ p.limits.maxFrames ≤ s.callers.size + 1) (frame : Frame) :
    Meets (fun _ s' => s'.Confined p.limits) (fun _ s' => s'.Confined p.limits)
      (enter.start frame s) := by
  refine ⟨hs.stack, ?_⟩
  rw [Array.size_push]
  omega

theorem fits_enter (hw : p.limits.Widens wide) (closure : Closure Value) (base : Nat)
    (args : List Value) (receiver : Option Handle) :
    Fits p.limits (enter p closure base args receiver)
      (enter (p.within wide) closure base args receiver) := by
  unfold enter
  dsimp only
  split
  · exact fits_trap _
  refine fun s hs => .read ?_
  by_cases hroom : p.limits.maxFrames ≤ s.callers.size + 1
  · rw [FitsAt, if_pos hroom]
    exact ⟨hs, .inr ⟨s, rfl⟩⟩
  have hwide : ¬ (p.within wide).limits.maxFrames ≤ s.callers.size + 1 := fun h =>
    hroom (Nat.le_trans hw.maxFrames h)
  rw [if_neg hroom, if_neg hwide]
  refine ⟨?_, .inl rfl⟩
  split
  · cases receiver with
    | none => exact hs
    | some ref => exact fits_enterStart hs hroom _
  · exact fits_enterStart hs hroom _

theorem fits_leave (hw : p.limits.Widens wide) (v : Value) :
    Fits p.limits (leave p v) (leave (p.within wide) v) := by
  refine fun s hs => .read ?_
  cases s.callers.back? with
  | none => exact fits_pure _ s hs
  | some caller =>
    have hback : State.Confined { s with
        frame := caller, callers := s.callers.pop, stack := s.stack.shrink s.frame.base }
        p.limits :=
      hs.of_le (size_shrink_le _ _) (by simp)
    exact ((fits_push hw v).bind fun _ => fits_pure none) _ hback

theorem Made.fits {α : Type} {C S : Prop} {m : Limits → Exec α} (h : Made p C S m)
    (hw : p.limits.Widens wide) : Fits p.limits (m p.limits) (m wide) := by
  induction h with
  | done a => exact fits_pure a
  | trap cause => exact fits_trap cause
  | bind _ _ ih ih' => exact ih.bind ih'
  | read => exact .of_meets fun _ => ⟨Nat.le_refl _, Nat.le_refl _⟩
  | access _ | host _ _ => exact fits_host _
  | push v => exact fits_push hw v
  | pop => exact fits_pop
  | peek => exact fits_peek
  | cutAbove height => exact .of_meets fun _ => ⟨size_shrink_le _ _, Nat.le_refl _⟩
  | shrink height => exact fits_modify (fun _ => size_shrink_le _ _) fun _ => Nat.le_refl _
  | modifyFrame _ | print _ | count _ | store _ _ _ =>
    exact fits_modify (fun _ => Nat.le_refl _) fun _ => Nat.le_refl _
  | enter c base args receiver => exact fits_enter hw c base args receiver
  | leave v => exact fits_leave hw v

theorem fits_step (hw : p.limits.Widens wide) : Fits p.limits (step p) (step (p.within wide)) :=
  fits_fetch.bind fun i => (Made.carryOut i (fun _ => trivial) fun _ => trivial).fits hw

end Steps

/-! ## Runs -/

variable {p : Program} {s : State} {wide : Limits}

theorem runFrom_within (hw : p.limits.Widens wide) (hs : s.Confined p.limits) (fuel : Nat)
    (h : ∀ t, (runFrom p s fuel).1 = .trap t → t.cause ≠ .stackOverflow) :
    runFrom (p.within wide) s fuel = runFrom p s fuel := by
  induction fuel generalizing s with
  | zero => rfl
  | succ fuel ih =>
    obtain ⟨hm, heq⟩ := fits_step hw s hs
    have hstep : step (p.within wide) s = step p s := by
      rcases heq with heq | ⟨s', he⟩
      · exact heq
      · refine absurd (cause_ofTrace .stackOverflow s'.trace) (h _ ?_)
        rw [runFrom, he]
    rw [runFrom] at h
    rw [runFrom, runFrom, hstep]
    generalize step p s = r at hm h ⊢
    cases r with
    | error e s' => cases e <;> rfl
    | ok v s' =>
      cases v with
      | some v => rfl
      | none => exact ih hm h

theorem confined_start (heap : Heap) (closures : Nat) : (start p heap closures).Confined p.limits :=
  ⟨Nat.zero_le _, Nat.le_max_left _ _⟩

theorem Reaches.confined {heights : List Nat} (h : Reaches p s heights) : s.Confined p.limits := by
  induction h with
  | start => exact confined_start _ _
  | step _ _ hstep ih =>
    have := (fits_step (Limits.Widens.refl _) _ ih).1
    rwa [hstep] at this

theorem Program.ofLinked?_within {l : Linked} {narrow : Limits}
    (hp : Program.ofLinked? l narrow = some p) (wide : Limits) :
    Program.ofLinked? l wide = some (p.within wide) ∧ p.limits = narrow := by
  unfold Program.ofLinked? at hp ⊢
  split at hp
  · cases hp
    exact ⟨rfl, rfl⟩
  · cases hp

/-- A first run that does not overflow goes the same way under wider limits, to the last printed
line and the last slot of the heap. Every state that a run reaches keeps to the limits, and so does
the one in which it stops. -/
theorem limits_seen_as_overflow {l : Linked} {narrow wide : Limits} {p : Program}
    (hp : Program.ofLinked? l narrow = some p) (hw : narrow.Widens wide) :
    ∃ q, Program.ofLinked? l wide = some q ∧
      (∀ fuel, (∀ t, (runOnce p fuel).1 = .trap t → t.cause ≠ .stackOverflow) →
        runOnce q fuel = runOnce p fuel) ∧
      ∀ s heights, Reaches p s heights → s.Confined narrow ∧
        Meets (fun _ s' => s'.Confined narrow) (fun _ s' => s'.Confined narrow) (step p s) := by
  obtain ⟨hq, rfl⟩ := Program.ofLinked?_within hp wide
  refine ⟨p.within wide, hq, fun fuel h => ?_, fun s heights h => ?_⟩
  · have hheap : (p.within wide).heap = p.heap := by
      rw [Program.heap, Program.heap, Program.within, hw.maxBlockSlots]
    have hrun := runFrom_within hw (confined_start p.heap 0) fuel h
    rw [runOnce, hheap]
    exact hrun
  · exact ⟨h.confined, (fits_step (Limits.Widens.refl _) s h.confined).1⟩

/-- Room for one call, with the callee and its result on the stack. -/
def tightLimits : Limits := { maxFrames := 2, maxStack := 2 }

theorem limits_seen_as_overflow_call :
    Program.ofLinked? callingModule tightLimits = some (callingProgram.within tightLimits) ∧
    tightLimits.Widens {} ∧
    (runOnce (callingProgram.within tightLimits) 5).1 = .value .none ∧
    runOnce callingProgram 5 = runOnce (callingProgram.within tightLimits) 5 := by
  have hp : Program.ofLinked? callingModule tightLimits =
      some (callingProgram.within tightLimits) := rfl
  have hw : tightLimits.Widens {} := ⟨by decide, by decide, rfl⟩
  have hvalue : (runOnce (callingProgram.within tightLimits) 5).1 = .value .none := rfl
  obtain ⟨q, hq, hrun, -⟩ := limits_seen_as_overflow hp hw
  cases hq
  refine ⟨hp, hw, hvalue, hrun 5 fun t ht => ?_⟩
  rw [hvalue] at ht
  cases ht

end Machine

end StackCode
