import StackCode.Proofs.Steps

/-! # Frames on the stack

Every step of a good program keeps the depths that the check of its chunks gives: each frame has so
many values above the height at which it was entered as the check says for its next instruction.
What a step keeps holds in all states that runs reach.
-/

namespace StackCode.Machine

variable {closed : Prop} {p : Program} {n j : Nat} {s s' : State} {i : Instruction} {f : Frame}
  {height : Nat} {heights : List Nat}

/-! ## Good states -/

section Good

variable {g : Frame} {c : Closure Value}

theorem Frame.Good.fetched (hf : s.frame.Good closed p) (i : Instruction) :
    (s.fetched i).frame.Good closed p := ⟨hf.runnable, hf.slots⟩

theorem Moves.good (hf : s.frame.Good closed p) (h : Moves p (Fine closed p) s i g) :
    g.Good closed p where
  runnable := h.chunk ▸ hf.runnable
  slots := h.values hf.slots

theorem Callee.runnable (hp : p.Good closed) (h : Callee p (Fine closed p) f i c) :
    Runnable closed p c.chunk := by
  cases h with
  | closure h => exact h
  | method _ hc | invoked _ hc | chunk _ hc => exact hp.chunk _ _ hc
  | initializer _ _ _ hc => exact hp.chunk _ _ hc
  | value _ hc => exact hp.initializer _ _ hc

theorem Started.good (hc : Runnable closed p c.chunk) (h : Started (Fine closed p) c g) :
    g.Good closed p where
  runnable := by
    rw [Frame.chunk, h.closure]
    exact hc
  slots := h.values

variable (hres : closed → Resolves p f.chunk i)
include hres

theorem Frame.Good.yields (hp : p.Good closed) (hf : f.Good closed p) :
    Yields p f i (Fine closed p) where
  data := fine_of_data
  slot := hf.slots
  constant _ _ _ hv := hf.runnable.constant hv
  part _ v hc hv := fine_enumCase.mp hc v hv
  complete _ _ _ _ hv := fine_enumCase.mpr hv
  function _ symbol c _ _ hc := hp.chunk symbol c hc
  struct n symbol type hi hs ht hc := by
    subst hi
    obtain ⟨type', ht', hconstructs⟩ := (hres hc).apply hs
    cases ht.symm.trans ht'
    exact hconstructs
  method n symbol ref hi hs hc := by
    subst hi
    exact (hres hc).apply hs
  closure _ symbol c _ _ _ _ hc _ := hp.chunk symbol c hc

theorem closes_of_resolves (hc : closed) : Closes p f i (Fine closed p) where
  resolves := hres hc
  struct _ ht := ht hc
  method _ _ hm := hm hc

end Good

/-! ## Frames -/

/-- The frame has so many values above the height at which it was entered, in a stack of the given
size, as the check of its chunk says for its next instruction. -/
def Rests (f : Frame) (height size : Nat) : Prop :=
  f.base ≤ height ∧ ∃ r d, f.chunk.depths = .ok r ∧ r.depth? f.next = some d ∧
    (size : Int) = height + d

/-- The frames rest on each other, the innermost first: each one is resumed when the stack is cut to
the base of the one before and has the result on top. -/
def Stacked : List Frame → Nat → List Nat → Prop
  | [], _, [] => True
  | f :: fs, size, height :: heights => Rests f height size ∧ Stacked fs (f.base + 1) heights
  | _, _, _ => False

/-- The next instruction of a resting frame finds its inputs, and its successors have the depth that
it leaves. -/
theorem Rests.instruction {size : Nat} (h : Rests f height size) :
    ∃ r i j, f.chunk.depths = .ok r ∧ f.chunk.Reaches f.next ∧
      f.chunk.instruction? f.next = some i ∧ size = height + (j + i.inputs) ∧
      (i.opcode = .ret → j + i.inputs = 1) ∧
      ∀ t ∈ Chunk.successors f.next i, r.depth? t = some (j + (i.inputs + i.effect)) := by
  obtain ⟨-, r, d, hr, hd, hsize⟩ := h
  obtain ⟨after, next, hc, hn⟩ := (Chunk.depths_sound hr).1.check _ _ hd
  obtain ⟨i, hi, hin, hret, -, rfl, rfl⟩ := Chunk.checkDepth_eq_ok_iff.mp hc
  refine ⟨r, i, (d - i.inputs).toNat, hr, ⟨r, d, hr, hd⟩, hi, by omega, fun ho => ?_,
    fun t ht => ?_⟩
  · have := hret ho
    omega
  · rw [hn t ht]
    congr 1
    omega

/-- A good state whose frames rest on each other, with the heights at which they were entered. -/
structure Invariant (closed : Prop) (p : Program) (s : State) (heights : List Nat) : Prop where
  good : s.Good closed p
  stacked : Stacked (s.frame :: s.callers.toList.reverse) s.stack.size heights

/-- The heights after a step with an instruction: a new frame adds its own, a return drops one. -/
def heightsAfter (op : Opcode) (s s' : State) (heights : List Nat) : List Nat :=
  if s.callers.size < s'.callers.size then entryHeight op s'.frame.base :: heights
  else if s'.callers.size < s.callers.size then heights.tail
  else heights

theorem rests_of_depth {g : Frame} {size size' o : Nat} {r : DepthReport} {d : Int}
    (h : Rests f height size) (hr : f.chunk.depths = .ok r) (hd : r.depth? o = some d)
    (hc : g.closure = f.closure) (hb : g.base = f.base) (hn : g.next = o)
    (hs : (size' : Int) = height + d) : Rests g height size' := by
  refine ⟨hb ▸ h.1, r, d, ?_, hn ▸ hd, hs⟩
  rw [Frame.chunk, hc]
  exact hr

theorem Invariant.after {r : DepthReport} (hp : p.Good closed)
    (h : Invariant closed p s (height :: heights)) (hr : s.frame.chunk.depths = .ok r)
    (hret : i.opcode ≠ .ret)
    (hnext : ∀ t ∈ Chunk.successors s.frame.next i,
      r.depth? t = some (j + (i.inputs + i.effect)))
    (ha : Outcome ⟨p, Fine closed p, closed, height⟩ j (s.fetched i) i s') :
    Invariant closed p s' (heightsAfter i.opcode s s' (height :: heights)) := by
  obtain ⟨hrest, hwait⟩ := h.stacked
  have hfetched := h.good.frame.fetched i
  cases ha with
  | @moves g k hm depth hw =>
    have hcallers : s'.callers = s.callers := hw.callers
    have hheights : heightsAfter i.opcode s s' (height :: heights) = height :: heights := by
      simp [heightsAfter, hcallers]
    have hbase : s'.frame.base = s.frame.base := hw.frame ▸ hm.base
    rw [hheights]
    refine ⟨{ hw.toHolds with
      frame := hw.frame ▸ hm.good hfetched
      callers := hcallers ▸ h.good.callers }, ?_, ?_⟩
    · have hsize : s'.stack.size = height + (j + k) := hw.size
      refine rests_of_depth hrest hr (hnext _ (hm.next.mem_successors hret)) ?_ hbase
        (congrArg Frame.next hw.frame) (by omega)
      rw [hw.frame]
      exact hm.closure
    · rw [hcallers, hbase]
      exact hwait
  | @enters c k callee depth hk he =>
    obtain ⟨g, hg, hb, hw⟩ := he
    have hcallers : s'.callers = s.callers.push (s.fetched i).frame := hw.callers
    have hbase : s'.frame.base = height + j := hw.frame ▸ hb
    have hsize : s'.stack.size = entryHeight i.opcode s'.frame.base := by
      rw [hbase]
      exact hw.size.trans hk
    have hheights : heightsAfter i.opcode s s' (height :: heights) =
        entryHeight i.opcode s'.frame.base :: height :: heights := by
      simp [heightsAfter, hcallers]
    have hgood : g.Good closed p := hg.good (callee.runnable hp)
    rw [hheights]
    obtain ⟨r', hr'⟩ := hgood.runnable.depths
    have hstart := (Chunk.depths_sound hr').1.start
    refine ⟨{ hw.toHolds with
      frame := hw.frame ▸ hgood
      callers := fun f hf => ?_ }, ?_, ?_⟩
    · rw [hcallers] at hf
      rcases Array.mem_push.mp hf with hf | rfl
      · exact h.good.callers f hf
      · exact hfetched
    · refine ⟨?_, r', 0, hw.frame ▸ hr', ?_, by omega⟩
      · unfold entryHeight
        split <;> omega
      · rw [hw.frame, hg.next]
        exact hstart
    · have hreverse : s'.callers.toList.reverse =
          (s.fetched i).frame :: s.callers.toList.reverse := by
        simp [hcallers]
      have hmem : s.frame.next + i.size ∈ Chunk.successors s.frame.next i :=
        Chunk.next_mem_successors hret (.inl callee.distance?)
      rw [hreverse]
      exact ⟨rests_of_depth hrest hr (hnext _ hmem) rfl rfl rfl (by omega), hwait⟩

theorem reverse_of_back? {α : Type} {a : Array α} {x : α} (h : a.back? = some x) :
    a.toList.reverse = x :: a.pop.toList.reverse := by
  have hlast : a.toList.getLast? = some x := by
    rw [Array.getLast?_toList]
    exact h
  rw [Array.toList_pop]
  obtain ⟨l, hl⟩ := List.getLast?_eq_some_iff.mp hlast
  simp [hl]

theorem Invariant.returned (h : Invariant closed p s (height :: heights)) (hn : n ≤ s.frame.base)
    (hf : s.callers.back? = some f)
    (hw : Held ⟨p, Fine closed p, closed, n⟩ (s.frame.base - n + 1) s.callers.pop f s') :
    Invariant closed p s' (heightsAfter .ret s s' (height :: heights)) := by
  obtain ⟨-, hwait⟩ := h.stacked
  have hcallers : s'.callers = s.callers.pop := hw.callers
  have hpos : 0 < s.callers.size := by
    rcases Nat.eq_zero_or_pos s.callers.size with hz | hz
    · rw [Array.size_eq_zero_iff.mp hz] at hf
      cases hf
    · exact hz
  have hheights : heightsAfter .ret s s' (height :: heights) = heights := by
    have hsize : s'.callers.size = s.callers.size - 1 := by simp [hcallers]
    unfold heightsAfter
    rw [if_neg (by omega), if_pos (by omega)]
    rfl
  have hsize : s'.stack.size = s.frame.base + 1 := by
    rw [hw.size]
    dsimp only
    omega
  rw [hheights]
  refine ⟨{ hw.toHolds with
    frame := hw.frame ▸ h.good.callers f (Array.mem_of_back? hf)
    callers := fun g hg => h.good.callers g (mem_of_mem_pop (hcallers ▸ hg)) }, ?_⟩
  rw [hsize, hw.frame, hcallers, ← reverse_of_back? hf]
  exact hwait

/-- A step from a state that satisfies the invariant, with the heights of the frames after it. -/
theorem Invariant.step (hp : p.Good closed) (h : Invariant closed p s heights) :
    Meets (fun r s' => Kept p (Fine closed p) s'.heap ∧ (r = none → ∃ i,
        Instruction.decode? s.frame.chunk.code s.frame.next = some i ∧
        Invariant closed p s' (heightsAfter i.opcode s s' heights)))
      (fun e s' => e.Allowed closed ∧ Kept p (Fine closed p) s'.heap) (Machine.step p s) := by
  cases heights with
  | nil => exact h.stacked.elim
  | cons height heights =>
    obtain ⟨hrest, -⟩ := h.stacked
    obtain ⟨r, i, j, hr, hreach, hi, hsize, hone, hnext⟩ := hrest.instruction
    have hd := (decode?_of_instruction? hi).1
    by_cases hret : i.opcode = .ret
    · have hb := hrest.1
      have hone := hone hret
      have hruns := return_acts (K := ⟨p, Fine closed p, closed, s.frame.base⟩) (L := True) hi hret
        h.good.toHolds (Nat.le_refl _) (by omega)
      refine hruns.result.mono (fun x s' hx => ⟨hx.1, fun hn => ⟨i, hd, ?_⟩⟩)
        fun _ _ he => ⟨he.1.1, he.2⟩
      obtain ⟨f, hf, hw⟩ := hx.2.2 hn
      exact hret ▸ h.returned (Nat.le_refl _) hf hw
    · have hres : closed → Resolves p s.frame.chunk i := fun hc =>
        h.good.frame.runnable.resolves hc _ i hreach hi
      have hfetched := h.good.frame.fetched i
      have hruns := step_acts (K := ⟨p, Fine closed p, closed, height⟩) hi hret
        (hfetched.yields hres hp) (closes_of_resolves hres) h.good.toHolds hsize
      refine hruns.result.mono (fun x s' hx => ?_) fun _ _ he => ⟨he.1.1, he.2⟩
      have hinv := h.after hp hr hret hnext hx.2.1
      exact ⟨hinv.good.heap, fun _ => ⟨i, hd, hinv⟩⟩

/-- A step does the same whatever values lie below the height at which the running frame was
entered; only a return drops the value of the callee between this height and the base. -/
theorem Invariant.framed (hp : p.Good closed) (h : Invariant closed p s (height :: heights))
    {xs : Array Value} (hx : xs.size ≤ height)
    (hret : ∀ i, Instruction.decode? s.frame.chunk.code s.frame.next = some i →
      i.opcode = .ret → xs.size ≤ s.frame.base) :
    Machine.step p (s.under xs) = resultUnder xs (Machine.step p s) := by
  obtain ⟨hrest, -⟩ := h.stacked
  obtain ⟨r, i, j, hr, hreach, hi, hsize, hone, hnext⟩ := hrest.instruction
  have hd := (decode?_of_instruction? hi).1
  by_cases ho : i.opcode = .ret
  · have hb := hrest.1
    have hone := hone ho
    have hn := hret i hd ho
    have hruns := return_acts (K := ⟨p, Fine closed p, closed, xs.size⟩) (L := True) hi ho
      h.good.toHolds hn (by omega)
    exact hruns.framed xs rfl
  · have hres : closed → Resolves p s.frame.chunk i := fun hc =>
      h.good.frame.runnable.resolves hc _ i hreach hi
    have hsize : s.stack.size = xs.size + (height - xs.size + j + i.inputs) := by omega
    have hfetched := h.good.frame.fetched i
    have hruns := step_acts (K := ⟨p, Fine closed p, closed, xs.size⟩) hi ho
      (hfetched.yields hres hp) (closes_of_resolves hres) h.good.toHolds hsize
    exact hruns.framed xs rfl

/-- In a state that is as accepted code leaves it, the running frame stands at an instruction whose
inputs are there. -/
theorem Invariant.fetches (h : Invariant closed p s heights) :
    ∃ i, Instruction.decode? s.frame.chunk.code s.frame.next = some i ∧
      s.frame.chunk.Reaches s.frame.next ∧ s.frame.chunk.instruction? s.frame.next = some i ∧
      (∃ j, s.stack.size = j + i.inputs) ∧ (i.opcode = .ret → s.frame.base < s.stack.size) := by
  cases heights with
  | nil => exact h.stacked.elim
  | cons height heights =>
    obtain ⟨hrest, -⟩ := h.stacked
    obtain ⟨-, i, j, -, hreach, hi, hsize, hone, -⟩ := hrest.instruction
    have hb := hrest.1
    refine ⟨i, (decode?_of_instruction? hi).1, hreach, hi, ⟨height + j, by omega⟩, fun hret => ?_⟩
    have := hone hret
    omega

section Property

variable {O : Value → Prop} (h : Invariant closed p s heights)
  (hi : Instruction.decode? s.frame.chunk.code s.frame.next = some i) (ho : Holds p O s)
include h hi ho

/-- What an instruction other than a return leads to if the values have a property. -/
theorem Invariant.outcome (hret : i.opcode ≠ .ret) (hy : Yields p (s.fetched i).frame i O) :
    ∃ j, Acts ⟨p, O, False, 0⟩ (Lacks p O (s.fetched i).frame i) (Machine.step p) s fun r s' =>
      r = none ∧ Outcome ⟨p, O, False, 0⟩ j (s.fetched i) i s' ∧
        Shows (s.fetched i) s'.stack.back? i := by
  obtain ⟨_, hd, -, hi', ⟨j, hsize⟩, -⟩ := h.fetches
  cases hi.symm.trans hd
  exact ⟨j, step_acts (K := ⟨p, O, False, 0⟩) hi' hret hy False.elim ho
    (hsize.trans (Nat.zero_add _).symm)⟩

/-- What a return leads to if the values have a property. -/
theorem Invariant.returns {L : Prop} (hret : i.opcode = .ret) :
    Acts ⟨p, O, False, 0⟩ L (Machine.step p) s fun r s' => Kept p O s'.heap ∧
      (∀ v, r = some v → O v) ∧ (r = none → ∃ f, s.callers.back? = some f ∧
        Held ⟨p, O, False, 0⟩ (s.frame.base + 1) s.callers.pop f s') := by
  obtain ⟨_, hd, -, hi', -, hb⟩ := h.fetches
  cases hi.symm.trans hd
  exact return_acts (K := ⟨p, O, False, 0⟩) hi' hret ho (Nat.zero_le _) (hb hret)

end Property

/-! ## Runs -/

/-- What earlier runs of a program may leave for the next one: the heap and the number of closures
made. -/
inductive Left (p : Program) : Heap → Nat → Prop where
  | first : Left p p.heap 0
  | again {heap : Heap} {closures : Nat} (h : Left p heap closures) (fuel : Nat) :
    Left p (run p heap closures fuel).2.heap (run p heap closures fuel).2.closures

/-- The states that a run of a program reaches, with the heights at which the frames were entered,
the innermost first. -/
inductive Reaches (p : Program) : State → List Nat → Prop where
  | start {heap : Heap} {closures : Nat} (h : Left p heap closures) :
    Reaches p (start p heap closures) [0]
  | step {s s' : State} {heights : List Nat} {i : Instruction} (h : Reaches p s heights)
      (hi : Instruction.decode? s.frame.chunk.code s.frame.next = some i)
      (hs : step p s = .ok none s') : Reaches p s' (heightsAfter i.opcode s s' heights)

theorem invariant_start (hp : p.Good closed) {heap : Heap} (hh : Kept p (Fine closed p) heap)
    (closures : Nat) : Invariant closed p (start p heap closures) [0] := by
  obtain ⟨r, hr⟩ := hp.main.depths
  have hframe : (start p heap closures).frame.Good closed p := by
    refine ⟨hp.main, fun n v hv => ?_⟩
    cases (slot_enter _ 0 n).symm.trans hv
  have hrests : Rests (start p heap closures).frame 0 0 :=
    ⟨Nat.le_refl 0, r, 0, hr, (Chunk.depths_sound hr).1.start, rfl⟩
  exact {
    good := {
      stack := fun v hv => absurd hv (Array.not_mem_empty v)
      frame := hframe
      callers := fun f hf => absurd hf (Array.not_mem_empty f)
      heap := hh
      values := nofun
      room := Nat.zero_le _ }
    stacked := ⟨hrests, trivial⟩ }

theorem Invariant.of_step (hp : p.Good closed) (h : Invariant closed p s heights)
    (hi : Instruction.decode? s.frame.chunk.code s.frame.next = some i)
    (hs : Machine.step p s = .ok none s') :
    Invariant closed p s' (heightsAfter i.opcode s s' heights) := by
  have hm := h.step hp
  rw [hs] at hm
  obtain ⟨i', hi', hinv⟩ := hm.2 rfl
  cases hi.symm.trans hi'
  exact hinv

/-- A run from a state that satisfies the invariant fails only as accepted code may, and leaves a
good heap. -/
theorem Invariant.runFrom (hp : p.Good closed) (h : Invariant closed p s heights) (fuel : Nat) :
    Kept p (Fine closed p) (runFrom p s fuel).2.heap ∧
      ∀ t, (runFrom p s fuel).1 = .trap t → (Failure.trap t.cause).Allowed closed := by
  induction fuel generalizing s heights with
  | zero => exact ⟨h.good.heap, nofun⟩
  | succ fuel ih =>
    have hm := h.step hp
    unfold Machine.runFrom
    cases hs : Machine.step p s with
    | ok r s' =>
      rw [hs] at hm
      cases r with
      | none =>
        obtain ⟨i, -, hinv⟩ := hm.2 rfl
        exact ih hinv
      | some v => exact ⟨hm.1, nofun⟩
    | error e s' =>
      rw [hs] at hm
      cases e with
      | fault => exact ⟨hm.2, nofun⟩
      | trap cause =>
        refine ⟨hm.2, fun t ht => ?_⟩
        cases ht
        exact hm.1

theorem Left.good (hp : p.Good closed) {heap : Heap} {closures : Nat} (h : Left p heap closures) :
    Kept p (Fine closed p) heap := by
  induction h with
  | first => exact ⟨Heap.all_empty _ _, rfl⟩
  | again _ fuel ih => exact ((invariant_start hp ih _).runFrom hp fuel).1

theorem Reaches.invariant (hp : p.Good closed) (h : Reaches p s heights) :
    Invariant closed p s heights := by
  induction h with
  | start hl => exact invariant_start hp (hl.good hp) _
  | step _ hi hs ih => exact ih.of_step hp hi hs

section Runs

variable {O : Value → Prop} {I : State → List Nat → Prop} {H : Heap → Prop}

/-- A step keeps what holds of states, and leaves a heap as told in any case. -/
def Preserves (p : Program) (I : State → List Nat → Prop) (H : Heap → Prop) : Prop :=
  ∀ s heights, I s heights → H s.heap ∧
    Meets (fun r s' => H s'.heap ∧ (r = none → ∃ i,
        Instruction.decode? s.frame.chunk.code s.frame.next = some i ∧
        I s' (heightsAfter i.opcode s s' heights)))
      (fun _ s' => H s'.heap) (step p s)

theorem Preserves.runFrom (h : Preserves p I H) (hs : I s heights) (fuel : Nat) :
    H (runFrom p s fuel).2.heap := by
  induction fuel generalizing s heights with
  | zero => exact (h s heights hs).1
  | succ fuel ih =>
    have hm := (h s heights hs).2
    unfold Machine.runFrom
    cases hr : step p s with
    | ok r s' =>
      rw [hr] at hm
      cases r with
      | none =>
        obtain ⟨i, -, hi⟩ := hm.2 rfl
        exact ih hi
      | some v => exact hm.1
    | error e s' =>
      rw [hr] at hm
      cases e <;> exact hm

/-- What holds at the start of every run and is kept by steps holds in all states that runs reach,
with a heap as told. -/
theorem Preserves.reaches (h : Preserves p I H) (hfirst : H p.heap)
    (hstart : ∀ heap closures, H heap → I (start p heap closures) [0]) (hs : Reaches p s heights) :
    I s heights := by
  have hleft : ∀ {heap closures}, Left p heap closures → H heap := by
    intro heap closures hl
    induction hl with
    | first => exact hfirst
    | again _ fuel ih => exact h.runFrom (hstart _ _ ih) fuel
  induction hs with
  | start hl => exact hstart _ _ (hleft hl)
  | @step s s' heights i _ hi hs ih =>
    have hm := (h s heights ih).2
    rw [hs] at hm
    obtain ⟨i', hi', hI⟩ := hm.2 rfl
    cases hi.symm.trans hi'
    exact hI

/-- What a step keeps in states that are as accepted code leaves them. -/
def Keeps (p : Program) (O : Value → Prop) (J : State → Prop) : Prop :=
  ∀ s heights, Invariant False p s heights → J s → Kept p O s.heap ∧
    Meets (fun r s' => Kept p O s'.heap ∧ (r = none → J s')) (fun _ s' => Kept p O s'.heap)
      (step p s)

theorem Keeps.reaches {J : State → Prop} (hp : p.Good False) (h : Keeps p O J)
    (hstart : ∀ heap closures, Kept p O heap → J (start p heap closures))
    (hs : Reaches p s heights) :
    Invariant False p s heights ∧ J s := by
  have hpreserves : Preserves p (fun s heights => Invariant False p s heights ∧ J s)
      fun heap => Kept p (Fine False p) heap ∧ Kept p O heap := by
    rintro s heights ⟨hinv, hJ⟩
    obtain ⟨hheap, hstep⟩ := h s heights hinv hJ
    refine ⟨⟨hinv.good.heap, hheap⟩, ?_⟩
    have hrests := hinv.step hp
    generalize Machine.step p s = r at hrests hstep
    cases r with
    | ok r s' =>
      refine ⟨⟨hrests.1, hstep.1⟩, fun hn => ?_⟩
      obtain ⟨i, hi, hinv⟩ := hrests.2 hn
      exact ⟨i, hi, hinv, hstep.2 hn⟩
    | error e s' => exact ⟨hrests.2, hstep⟩
  exact hpreserves.reaches ⟨⟨Heap.all_empty _ _, rfl⟩, Heap.all_empty _ _, rfl⟩
    (fun _ closures hh => ⟨invariant_start hp hh.1 closures, hstart _ closures hh.2⟩) hs

end Runs

/-- How a run can end with a step from a state. -/
def Ending.Of (p : Program) (s : State) : Ending → Prop
  | .value v => ∃ s', step p s = .ok (some v) s'
  | .trap t => ∃ s', step p s = .error (.trap t.cause) s'
  | .fault => ∃ s', step p s = .error .fault s'
  | .unfinished => True

theorem decode?_of_step {r : Option Value} (h : step p s = .ok r s') :
    ∃ i, Instruction.decode? s.frame.chunk.code s.frame.next = some i := by
  cases hi : Instruction.decode? s.frame.chunk.code s.frame.next with
  | some i => exact ⟨i, rfl⟩
  | none => cases (step_of_decode?_eq_none hi).symm.trans h

theorem cause_ofTrace (cause : Cause) (trace : List TraceEntry) :
    (Trap.ofTrace cause trace).cause = cause := by
  cases trace <;> rfl

/-- A run ends with a step from a state that it reaches. -/
theorem Reaches.ends (h : Reaches p s heights) (fuel : Nat) :
    ∃ s₁ heights₁, Reaches p s₁ heights₁ ∧ (runFrom p s fuel).1.Of p s₁ := by
  induction fuel generalizing s heights with
  | zero => exact ⟨s, heights, h, trivial⟩
  | succ fuel ih =>
    unfold Machine.runFrom
    cases hr : Machine.step p s with
    | ok r s' =>
      cases r with
      | none =>
        obtain ⟨i, hi⟩ := decode?_of_step hr
        exact ih (.step h hi hr)
      | some v => exact ⟨s, heights, h, s', hr⟩
    | error e s' =>
      cases e with
      | trap cause =>
        refine ⟨s, heights, h, s', ?_⟩
        rw [cause_ofTrace]
        exact hr
      | fault => exact ⟨s, heights, h, s', hr⟩

end StackCode.Machine
