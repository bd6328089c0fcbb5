import StackCode.Proofs.Clashes
import StackCode.Proofs.CoreCorrectness
import StackCode.Proofs.Frames

/-! # The calls of the main chunk

A run that gives a value has called the files of the module from its main chunk, each of them once
and in their order. Then it has called the main function, if there is one, and its result is that of
the run. Otherwise the last result of a file that is not `none` is.
-/

namespace StackCode.Machine

/-! ## Calls in a run -/

inductive Event where
  | enters (body : Chunk Value)
  | leaves (result : Option Value)

/-- The frame that a step enters or leaves, with the number of frames that wait for it. -/
def eventOf (s t : State) : List (Nat × Event) :=
  if s.callers.size < t.callers.size then [(t.callers.size, .enters t.frame.chunk)]
  else if t.callers.size < s.callers.size then [(s.callers.size, .leaves t.stack.back?)]
  else []

def events (p : Program) : Nat → State → List (Nat × Event)
  | 0, _ => []
  | n + 1, s =>
    match step p s with
    | .ok none t => eventOf s t ++ events p n t
    | _ => []

/-- The result of the files so far with that of another one, which counts unless it is `none`. -/
def kept (result file : Value) : Value :=
  match file with
  | .none => result
  | _ => file

def lastGiven (vs : List Value) : Value := vs.foldl kept .none

def direct (es : List (Nat × Event)) : List Event := (es.filter (·.1 == 1)).map (·.2)

def callEvents (calls : List (Chunk Value × Value)) : List Event :=
  calls.flatMap fun c => [.enters c.1, .leaves (some c.2)]

/-- From a state that a run reaches, it goes on to give the value, and these frames are entered and
left. -/
inductive Gives (p : Program) (v : Value) : State → List (Nat × Event) → Prop where
  | ends {s t : State} {heights : List Nat} (hs : Reaches p s heights)
      (h : step p s = .ok (some v) t) : Gives p v s []
  | goes {s t : State} {heights : List Nat} {es : List (Nat × Event)} (hs : Reaches p s heights)
      (h : step p s = .ok none t) (rest : Gives p v t es) : Gives p v s (eventOf s t ++ es)

variable {p : Program} {v : Value} {s t : State} {es : List (Nat × Event)} {heights : List Nat}

theorem direct_append (es es' : List (Nat × Event)) :
    direct (es ++ es') = direct es ++ direct es' := by
  simp [direct]

theorem eventOf_same (h : t.callers = s.callers) : eventOf s t = [] := by
  simp [eventOf, h]

theorem direct_enters (h : s.callers.size < t.callers.size) :
    direct (eventOf s t) = if t.callers.size = 1 then [.enters t.frame.chunk] else [] := by
  rw [eventOf, if_pos h, direct]
  by_cases ht : t.callers.size = 1 <;> simp [ht]

theorem direct_leaves (h : t.callers.size < s.callers.size) :
    direct (eventOf s t) = if s.callers.size = 1 then [.leaves t.stack.back?] else [] := by
  rw [eventOf, if_neg (Nat.lt_asymm h), if_pos h, direct]
  by_cases hs : s.callers.size = 1 <;> simp [hs]

theorem gives_of_runFrom {fuel : Nat} (hs : Reaches p s heights)
    (h : (runFrom p s fuel).1 = .value v) : Gives p v s (events p fuel s) := by
  induction fuel generalizing s heights with
  | zero => cases h
  | succ fuel ih =>
    rw [runFrom] at h
    rw [events]
    cases hstep : Machine.step p s with
    | error e t =>
      rw [hstep] at h
      cases e <;> cases h
    | ok r t =>
      rw [hstep] at h
      cases r with
      | some w =>
        cases h
        exact .ends hs hstep
      | none =>
        obtain ⟨i, hi⟩ := decode?_of_step hstep
        exact .goes hs hstep (ih (.step hs hi hstep) h)

/-! ## A call -/

/-- A return gives the result of the run, or it puts it on the stack of the frame that waits. -/
theorem return_shows {i : Instruction}
    (hi : Instruction.decode? s.frame.chunk.code s.frame.next = some i) (hret : i.opcode = .ret) :
    Meets (fun r t => ∃ w, s.stack.back? = some w ∧ (s.callers.back? = none ∧ r = some w ∨
        r = none ∧ s.callers.back? = some t.frame ∧ t.callers = s.callers.pop ∧
          ∃ below, t.stack = Array.push below w))
      (fun _ _ => True) (step p s) := by
  rw [step_of_decode? hi, if_pos hret]
  refine (pop_shows _).bind fun w s₁ hs₁ => ?_
  obtain ⟨hw, rfl⟩ := hs₁
  rw [leave_run]
  dsimp only
  rw [show (s.fetched i).callers = s.callers from rfl]
  cases s.callers.back? with
  | none => exact ⟨w, hw, .inl ⟨rfl, rfl⟩⟩
  | some f =>
    refine Meets.bind (Q := fun _ t => some f = some t.frame ∧ t.callers = s.callers.pop ∧
      ∃ below, t.stack = Array.push below w) ?_ fun _ _ ht => ⟨w, hw, .inr ⟨rfl, ht⟩⟩
    unfold push
    split
    · exact ⟨rfl, rfl, _, rfl⟩
    · trivial

/-- While a call from the outermost frame runs, a step goes on with it or returns from it. -/
theorem step_inside {f : Frame} {r : Option Value} (hp : p.Good False)
    (hinv : Invariant False p s heights) (h : s.callers[0]? = some f) (hs : step p s = .ok r t) :
    r = none ∧ (t.callers[0]? = some f ∧ direct (eventOf s t) = [] ∨
      t.frame = f ∧ t.callers = #[] ∧ ∃ w below, t.stack = Array.push below w ∧
        direct (eventOf s t) = [.leaves (some w)]) := by
  obtain ⟨hpos, hbottom⟩ := Array.getElem?_eq_some_iff.mp h
  cases heights with
  | nil => exact hinv.stacked.elim
  | cons height heights =>
    obtain ⟨report, i, j, -, hreach, hi, hsize, -, -⟩ := hinv.stacked.1.instruction
    by_cases hret : i.opcode = .ret
    · have hreturn := return_shows (p := p) (decode?_of_instruction? hi).1 hret
      rw [hs] at hreturn
      obtain ⟨w, -, ⟨hnone, -⟩ | ⟨rfl, hf, hc, below, hw⟩⟩ := hreturn
      · simp [Array.back?_eq_none_iff.mp hnone] at hpos
      · rw [direct_leaves (by rw [hc, Array.size_pop]; omega), hw, Array.back?_push]
        rw [Array.back?_eq_getElem?] at hf
        refine ⟨rfl, ?_⟩
        by_cases hone : s.callers.size = 1
        · rw [hone, h] at hf
          refine .inr ⟨(Option.some.inj hf).symm, ?_, w, below, rfl, if_pos hone⟩
          rw [hc, ← Array.size_eq_zero_iff, Array.size_pop, hone]
        · refine .inl ⟨?_, if_neg hone⟩
          rw [hc, Array.getElem?_pop, if_pos (by omega), h]
    · obtain ⟨_, hacts⟩ := hinv.outcome (decode?_of_instruction? hi).1 hinv.good.toHolds hret
        ((hinv.good.frame.fetched i).yields False.elim hp)
      have hruns := hacts.result
      rw [hs] at hruns
      obtain ⟨rfl, ha, -⟩ := hruns
      refine ⟨rfl, .inl ?_⟩
      cases ha with
      | moves _ _ hw =>
        have hc : t.callers = s.callers := hw.callers
        rw [eventOf_same hc, hc]
        exact ⟨h, rfl⟩
      | enters _ _ _ he =>
        obtain ⟨g, -, -, hw⟩ := he
        have hc := hw.callers
        have hlt : t.callers.size = s.callers.size + 1 := by rw [hc, Array.size_push]; rfl
        rw [direct_enters (by omega), if_neg (by omega), hc]
        exact ⟨(Array.getElem?_push_lt hpos).trans (congrArg some hbottom), rfl⟩

theorem Gives.returns {f : Frame} (hp : p.Good False) (h : Gives p v s es)
    (hs : s.callers[0]? = some f) :
    ∃ w below t es', direct es = .leaves (some w) :: direct es' ∧ t.frame = f ∧ t.callers = #[] ∧
      t.stack = Array.push below w ∧ Gives p v t es' := by
  induction h with
  | ends hr hstep => cases (step_inside hp (hr.invariant hp) hs hstep).1
  | goes hr hstep rest ih =>
    rw [direct_append]
    rcases (step_inside hp (hr.invariant hp) hs hstep).2 with ⟨hin, he⟩ | ⟨hf, hc, w, below, hw, he⟩
    · rw [he]
      exact ih hin
    · rw [he]
      exact ⟨w, below, _, _, rfl, hf, hc, hw, rest⟩

/-! ## The outermost frame -/

section Main

variable {σ : State} {a b current : Nat} {stack stack' : Array Value} {locals : Array Slot}
  {i : Instruction} {w : Value}

theorem enter_eq_ok {c : Closure Value} {base : Nat} (h : enter p c base [] none s = .ok () t) :
    t = { s with frame := .enter c base, callers := s.callers.push s.frame } := by
  unfold enter at h
  dsimp only at h
  split at h
  · cases h
  rw [bind_of_ok (get_eq_ok s)] at h
  split at h
  · cases h
  split at h <;> cases h
  rfl

section Instruction

variable (h : Gives p v (σ.moved a stack locals current) es)
  (hi : Instruction.decode? σ.frame.chunk.code a = some i) (hret : i.opcode ≠ .ret)

include h hi hret

theorem Gives.executes : ∃ t es', execute p i (σ.moved (a + i.size) stack locals a) = .ok () t ∧
    es = eventOf σ t ++ es' ∧ Gives p v t es' := by
  have hstep : step p (σ.moved a stack locals current) = _ := step_moved hi hret
  cases hx : execute p i (σ.moved (a + i.size) stack locals a) with
  | error e u =>
    rw [bind_of_error hx] at hstep
    cases h with
    | ends _ ht => cases hstep.symm.trans ht
    | goes _ ht => cases hstep.symm.trans ht
  | ok _ u =>
    rw [bind_of_ok hx] at hstep
    cases h with
    | ends _ ht => cases hstep.symm.trans ht
    | goes _ ht rest =>
      cases hstep.symm.trans ht
      exact ⟨u, _, rfl, rfl, rest⟩

theorem Gives.moves (hx : execute p i (σ.moved (a + i.size) stack locals a) = .ok () t)
    (hc : t.callers = σ.callers) : Gives p v t es := by
  obtain ⟨u, es', hu, rfl, hrest⟩ := h.executes hi hret
  cases hu.symm.trans hx
  rwa [eventOf_same hc]

theorem Gives.pushes (hx : execute p i (σ.moved (a + i.size) stack locals a) =
    push p w (σ.moved b stack' locals a)) : Gives p v (σ.moved b (stack'.push w) locals a) es := by
  by_cases hlt : stack'.size < p.limits.maxStack
  · exact h.moves hi hret (hx.trans (if_pos hlt)) rfl
  · obtain ⟨u, es', hu, -⟩ := h.executes hi hret
    cases hu.symm.trans (hx.trans (if_neg hlt))

/-- A call from the outermost frame returns, and its result is on top of the stack. -/
theorem Gives.calls (hp : p.Good False) (hσ : σ.callers = #[]) {c : Closure Value} {base : Nat}
    (hx : execute p i (σ.moved (a + i.size) stack locals a) =
      enter p c base [] none (σ.moved (a + i.size) stack' locals a)) :
    ∃ w es' current' below, ∃ τ : State,
      direct es = [.enters c.chunk, .leaves (some w)] ++ direct es' ∧
      τ.callers = #[] ∧ τ.frame.chunk = σ.frame.chunk ∧
      Gives p v (τ.moved (a + i.size) (Array.push below w) locals current') es' := by
  obtain ⟨t, es₁, ht, rfl, hrest⟩ := h.executes hi hret
  have ht := enter_eq_ok (hx.symm.trans ht)
  have hcallers : t.callers = #[(σ.moved (a + i.size) stack' locals a).frame] := by
    rw [ht]
    exact congrArg (Array.push · _) hσ
  obtain ⟨w, below, τ, es₂, hes, hframe, hτ, hstack, hrest⟩ :=
    hrest.returns hp (congrArg (·[0]?) hcallers)
  refine ⟨w, es₂, τ.current, below, τ, ?_, hτ, by rw [hframe]; rfl, ?_⟩
  · rw [direct_append, direct_enters (by simp [hcallers, hσ]), if_pos (by simp [hcallers]), hes, ht]
    rfl
  · have hself : τ.moved (a + i.size) (below.push w) locals τ.current = τ := by
      cases τ
      cases hframe
      cases hstack
      rfl
    rwa [hself]

end Instruction

theorem Gives.ret (h : Gives p v (σ.moved a (stack.push w) locals current) es)
    (hi : Instruction.decode? σ.frame.chunk.code a = some ⟨.ret, ()⟩) (hσ : σ.callers = #[]) :
    es = [] ∧ v = w := by
  have hreturn : Meets _ _ (step p (σ.moved a (stack.push w) locals current)) :=
    return_shows hi rfl
  cases h with
  | ends _ ht =>
    rw [ht] at hreturn
    obtain ⟨w', hw, ⟨-, hr⟩ | ⟨hr, -⟩⟩ := hreturn <;> cases hr
    exact ⟨rfl, Option.some.inj (hw.symm.trans Array.back?_push)⟩
  | goes _ ht =>
    rw [ht] at hreturn
    obtain ⟨w', -, ⟨-, hr⟩ | ⟨-, hf, -⟩⟩ := hreturn
    · cases hr
    · cases (congrArg Array.back? hσ).symm.trans hf

open Linking

/-- The outermost frame stands before the given code. It has kept a result of the files, and it
makes the given calls. -/
def Before (p : Program) (v : Value) (code : List Code) (result : Value) (calls : List Event) :
    Prop :=
  ∃ (σ : State) (a current : Nat) (stack : Array Value) (locals : Array Slot)
    (es : List (Nat × Event)), σ.callers = #[] ∧ σ.frame.chunk = p.main ∧
    Installed σ false {} a (Code.join code) ∧ locals[resultSlot.toNat]? = some (.value result) ∧
    direct es = calls ∧ Gives p v (σ.moved a stack locals current) es

theorem Installed.transfer {τ : State} {code : Code} (h : Installed σ false {} a code)
    (hc : τ.frame.chunk = σ.frame.chunk) : Installed τ false {} a code :=
  ⟨fun o i hi => hc ▸ h.placed o i hi, h.fits, nofun⟩

theorem Installed.bind {line : UInt32} {slot : UInt8}
    (h : Installed σ false {} a (.bind line slot)) :
    Instruction.decode? σ.frame.chunk.code a = some ⟨.defineLocal, slot⟩ :=
  h.placed a _ (List.mem_singleton_self _)

theorem callChunk_moved {n : UInt16} {symbol : Symbol} {c : Chunk Value}
    (hn : σ.frame.chunk.symbol? n = some symbol) (hc : p.chunk? symbol = some c) :
    execute p ⟨.callChunk, n⟩ (σ.moved a stack locals current) =
      enter p (plainClosure c symbol) stack.size [] none (σ.moved a stack locals current) :=
  (bind_of_ok (ofOption_of_eq_some hn)).trans (bind_of_ok (ofOption_of_eq_some hc))

theorem call_moved {c : Closure Value} :
    execute p ⟨.call, (0 : UInt8)⟩ (σ.moved a (stack.push (.closure c)) locals current) =
      enter p c stack.size [] none (σ.moved a (stack.push (.closure c)) locals current) := by
  change callValue p (UInt8.ofNat ([] : List Value).length) _ = _
  exact callValue_closure Array.append_empty.symm (by decide)

theorem defineLocal_moved {n : UInt8} (w : Value) :
    execute p ⟨.defineLocal, n⟩ (σ.moved a (stack.push w) locals current) =
      .ok () (σ.moved a stack (withSlot locals n.toNat w) current) := bind_of_ok (pop_moved w)

theorem Before.file (hp : p.Good False) {n : UInt16} {symbol : Symbol} {c : Chunk Value}
    {rest : List Code} {result : Value} {calls : List Event}
    (h : Before p v (runFile n ++ rest) result calls) (hn : p.main.symbol? n = some symbol)
    (hchunk : p.chunk? symbol = some c) :
    ∃ w calls', calls = [.enters c, .leaves (some w)] ++ calls' ∧
      Before p v rest (kept result w) calls' := by
  obtain ⟨σ, a, current, stack, locals, es, hσ, hmain, hc, hresult, rfl, h⟩ := h
  rw [join_runFile] at hc
  obtain ⟨w, es', current₁, below, τ, hcalls, hτ, hframe, h⟩ :=
    h.calls hc.left.instr (by simp) hp hσ (callChunk_moved (hmain ▸ hn) hchunk)
  refine ⟨w, direct es', hcalls, ?_⟩
  have hc := hc.right.transfer hframe
  have h₁ := h.moves hc.left.bind (by simp) (defineLocal_moved w) rfl
  have hfile := getElem?_withSlot_self locals fileSlot.toNat w
  have hc := hc.right
  have h₂ := h₁.pushes hc.left.instr (by simp) (bind_of_ok (getLocal_moved hfile))
  have hc := hc.right
  have h₃ := h₂.pushes hc.left.instr (by simp) rfl
  have hc := hc.right
  have h₄ := h₃.pushes hc.left.instr (by simp)
    ((bind_of_ok (pop_moved Value.none)).trans (bind_of_ok (pop_moved w)))
  have hc := hc.right
  have hjump := hc.left
  have h₅ := h₄.moves (hjump.placed _ _ List.mem_cons_self) (by simp)
    (jumpIfFalse_moved hjump.fits.1) rfl
  have hother : (withSlot locals fileSlot.toNat w)[resultSlot.toNat]? = some (.value result) :=
    getElem?_withSlot_ne (by decide) hresult
  by_cases hw : w = .none
  · subst hw
    exact ⟨τ, _, _, _, _, _, hτ, hframe.trans hmain, hc.right, hother, rfl, h₅⟩
  · have hbody := hjump.body
    obtain ⟨hne, hkept⟩ : Value.isTruthy (.bool (w != .none)) = true ∧ kept result w = w := by
      cases w with
      | none => exact absurd rfl hw
      | _ => exact ⟨rfl, rfl⟩
    rw [hne, if_pos rfl] at h₅
    have h₆ := h₅.pushes hbody.left.instr (by simp) (bind_of_ok (getLocal_moved hfile))
    have h₇ := h₆.moves hbody.right.left.instr (by simp)
      ((bind_of_ok (peek_moved w)).trans (setLocal_moved hother)) rfl
    have h₈ := h₇.moves hbody.right.right.left.instr (by simp) (bind_of_ok (pop_moved w)) rfl
    rw [hkept]
    exact ⟨τ, _, _, _, _, _, hτ, hframe.trans hmain, hc.right, getElem?_withSlot_self _ _ w,
      rfl, h₈⟩

/-- The files are called in their order, and the last result that is not `none` is kept. -/
theorem Before.files (hp : p.Good False) {module : String} {files : List SourceFile}
    {indices : List UInt16} {rest : List Code} {result : Value}
    (hcalls : List.Forall₂ (fun n file => p.main.symbol? n = some (fileSymbol module file.path))
      indices files)
    {Q : SourceFile → Chunk Value → Prop}
    (hchunks : ∀ file ∈ files, ∃ c, p.chunk? (fileSymbol module file.path) = some c ∧ Q file c)
    {es : List Event} (h : Before p v (indices.flatMap runFile ++ rest) result es) :
    ∃ calls es', List.Forall₂ (fun file call => Q file call.1) files calls ∧
      es = callEvents calls ++ es' ∧ Before p v rest ((calls.map (·.2)).foldl kept result) es' := by
  induction hcalls generalizing result es with
  | nil => exact ⟨[], es, .nil, rfl, h⟩
  | @cons n file ns files hn _ ih =>
    rw [List.flatMap_cons, List.append_assoc] at h
    obtain ⟨c, hc, hq⟩ := hchunks file List.mem_cons_self
    obtain ⟨w, es₁, rfl, hrest⟩ := h.file hp hn hc
    obtain ⟨calls, es', hcalls, rfl, hend⟩ :=
      ih (fun f hf => hchunks f (List.mem_cons_of_mem file hf)) hrest
    exact ⟨(c, w) :: calls, es', .cons hq hcalls, rfl, hend⟩

theorem Before.gives {result : Value} {es : List Event}
    (h : Before p v [.instr 0 ⟨.getLocal, resultSlot⟩, .instr 0 ⟨.ret, ()⟩] result es) :
    es = [] ∧ v = result := by
  obtain ⟨σ, a, current, stack, locals, es, hσ, -, hc, hresult, rfl, h⟩ := h
  have h := h.pushes hc.left.instr (by simp) (bind_of_ok (getLocal_moved hresult))
  obtain ⟨rfl, rfl⟩ := h.ret hc.right.left.instr hσ
  exact ⟨rfl, rfl⟩

theorem Before.calls (hp : p.Good False) {n : UInt16} {symbol : Symbol} {c : Chunk Value}
    {result : Value} {es : List Event} (hn : p.main.symbol? n = some symbol)
    (hchunk : p.chunk? symbol = some c)
    (h : Before p v [.instr 0 ⟨.getModuleFunction, n⟩, .instr 0 ⟨.call, (0 : UInt8)⟩,
      .instr 0 ⟨.ret, ()⟩] result es) : es = callEvents [(c, v)] := by
  obtain ⟨σ, a, current, stack, locals, es, hσ, hmain, hc, -, rfl, h⟩ := h
  have h := h.pushes hc.left.instr (by simp)
    ((bind_of_ok (ofOption_of_eq_some (hmain ▸ hn))).trans
      (bind_of_ok (ofOption_of_eq_some hchunk)))
  obtain ⟨w, es', current₁, below, τ, hcalls, hτ, hframe, h⟩ :=
    h.calls hc.right.left.instr (by simp) hp hσ call_moved
  obtain ⟨rfl, rfl⟩ := h.ret (hc.right.right.left.transfer hframe).instr hτ
  exact hcalls

theorem before_start {heap : Heap} {closures : Nat} {indices : List UInt16} {finish : List Code}
    (h : Gives p v (start p heap closures) es)
    (hc : Installed (start p heap closures) false {} 0 (startCode indices finish)) :
    Before p v (indices.flatMap runFile ++ (finish ++ [.instr 0 ⟨.ret, ()⟩]))
      .none (direct es) := by
  rw [startCode_eq] at hc
  have h₁ : Gives p v ((start p heap closures).moved 0 #[] _ 0) es := h
  have h₂ := h₁.pushes hc.left.instr (by simp) rfl
  have h₃ := h₂.moves hc.right.left.bind (by simp) (defineLocal_moved Value.none) rfl
  exact ⟨_, _, _, _, _, _, rfl, rfl, hc.right.right, getElem?_withSlot_self _ _ _, rfl, h₃⟩

end Main

end StackCode.Machine
