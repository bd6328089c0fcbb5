import StackCode.Proofs.Frames

/-! # Soundness of the check of depths

A module whose chunks are all accepted runs as the check says: the running frame always has as many
values on the stack as the check gives for its next instruction, it never touches a value of the
frames below, and no run fails for want of a value, an operand or an instruction.
-/

namespace StackCode

def Chunk.Accepted (c : Chunk Value) : Prop :=
  (∃ r, c.depths = .ok r) ∧ ∀ v ∈ c.constants, v.Throughout fun v => ∀ f, v ≠ .closure f

/-- The main chunk is accepted, and so are all chunks in the graph of imports. -/
structure Linked.Accepted (l : Linked) : Prop where
  main : ∀ c, l.module.main = some c → c.Accepted
  chunks : ∀ m ∈ l.modules, ∀ s c, m.chunks.get? s = some c → c.Accepted
  initializers : ∀ m ∈ l.modules, ∀ s c, m.initializers.get? s = some c → c.Accepted

/-- The chunks that a run of the module may enter. -/
def Linked.Keeps (l : Linked) (c : Chunk Value) : Prop :=
  l.module.main = some c ∨
    ∃ m ∈ l.modules, ∃ s, m.chunks.get? s = some c ∨ m.initializers.get? s = some c

theorem Linked.Accepted.of_keeps {l : Linked} (h : l.Accepted) {c : Chunk Value}
    (hc : l.Keeps c) : c.Accepted := by
  rcases hc with hc | ⟨m, hm, s, hc | hc⟩
  · exact h.main c hc
  · exact h.chunks m hm s c hc
  · exact h.initializers m hm s c hc

namespace Machine

variable {closed : Prop} {p : Program}

/-- In a program that need not be closed, an accepted chunk may run. -/
theorem runnable_of_accepted {c : Chunk Value} (h : c.Accepted) (ho : ¬ closed) :
    Runnable closed p c where
  depths := h.1
  constants v hv := by
    refine Value.Throughout.mono (fun w hw => ?_) v (h.2 v hv)
    cases w with
    | closure f => exact hw f rfl
    | struct _ | boundMethod _ _ => exact fun hc => absurd hc ho
    | _ => trivial
  resolves hc := absurd hc ho

theorem Program.mem_of_find? {name : String} {m : Module} (h : p.find? name = some m) :
    m ∈ p.modules := List.mem_of_find?_eq_some h

variable {limits : Limits} {l : Linked}

theorem Program.ofLinked?_eq_some (h : Program.ofLinked? l limits = some p) :
    l.module.main = some p.main ∧ l.module.diagnostics = [] ∧ p.modules = l.modules := by
  unfold Program.ofLinked? at h
  split at h
  · rename_i main hmain hd
    cases h
    exact ⟨hmain, hd, rfl⟩
  · cases h

theorem Program.exists_ofLinked? {main : Chunk Value} (hmain : l.module.main = some main)
    (hd : l.module.diagnostics = []) (limits : Limits) :
    ∃ p, Program.ofLinked? l limits = some p ∧ p.limits = limits := by
  rw [Program.ofLinked?, hmain, hd]
  exact ⟨_, rfl, rfl⟩

/-- The bodies that a run may enter are those of the modules. -/
theorem keeps_of_ofLinked? (hp : Program.ofLinked? l limits = some p) :
    l.Keeps p.main ∧ (∀ s c, p.chunk? s = some c → l.Keeps c) ∧
      ∀ s c, p.initializer? s = some c → l.Keeps c := by
  obtain ⟨hmain, -, hmodules⟩ := Program.ofLinked?_eq_some hp
  refine ⟨.inl hmain, fun s c hc => ?_, fun s c hc => ?_⟩
  · obtain ⟨m, hm, hc⟩ := Option.bind_eq_some_iff.mp hc
    exact .inr ⟨m, hmodules ▸ Program.mem_of_find? hm, s, .inl hc⟩
  · obtain ⟨m, hm, hc⟩ := Option.bind_eq_some_iff.mp hc
    exact .inr ⟨m, hmodules ▸ Program.mem_of_find? hm, s, .inr hc⟩

theorem good_of_keeps (hp : Program.ofLinked? l limits = some p)
    (h : ∀ c, l.Keeps c → Runnable closed p c) : p.Good closed := by
  obtain ⟨hmain, hchunk, hinitializer⟩ := keeps_of_ofLinked? hp
  exact ⟨h _ hmain, fun s c hc => h c (hchunk s c hc), fun s c hc => h c (hinitializer s c hc)⟩

/-- In every state that a run of an accepted module reaches, the running frame has as many values
above the height at which it was entered as the check gives for its next instruction. The step from
there neither reads nor changes the values below this height, except that a return drops the value
of the callee above its base. No run fails for a reason that the check rules out. -/
theorem accepted_runs_sound {l : Linked} {limits : Limits}
    (hp : Program.ofLinked? l limits = some p) (ha : l.Accepted) :
    (∀ s heights, Reaches p s heights → ∃ height callers, heights = height :: callers ∧
      (∃ r d, s.frame.chunk.depths = .ok r ∧ r.depth? s.frame.next = some d ∧
        (s.stack.size : Int) = height + d ∧ d ≤ r.maxDepth) ∧
      (∀ cause s', step p s = .error (.trap cause) s' → ¬ cause.Unsound) ∧
      ∀ xs : Array Value, xs.size ≤ height →
        (∀ i, Instruction.decode? s.frame.chunk.code s.frame.next = some i →
          i.opcode = .ret → xs.size ≤ s.frame.base) →
        step p (s.under xs) = resultUnder xs (step p s)) ∧
    ∀ heap closures, Left p heap closures → ∀ fuel t,
      (run p heap closures fuel).1 = .trap t → ¬ t.cause.Unsound := by
  have hgood : p.Good False :=
    good_of_keeps hp fun c hc => runnable_of_accepted (ha.of_keeps hc) id
  refine ⟨fun s heights h => ?_, fun heap closures hl fuel t ht => ?_⟩
  · have hinv := h.invariant hgood
    cases heights with
    | nil => exact hinv.stacked.elim
    | cons height callers =>
      obtain ⟨⟨-, r, d, hr, hd, hsize⟩, -⟩ := hinv.stacked
      refine ⟨height, callers, rfl, ⟨r, d, hr, hd, hsize, (Chunk.depths_sound hr).2 _ d hd⟩,
        fun cause s' hs => ?_, fun xs hx hret => hinv.framed hgood hx hret⟩
      have hm := hinv.step hgood
      rw [hs] at hm
      exact hm.1.1
  · exact (((invariant_start hgood (hl.good hgood) closures).runFrom hgood fuel).2 t ht).1

/-! ## A module that calls a function -/

def calleeSymbol : Symbol := .function "Main" "f" []

def calleeChunk : Chunk Value :=
  { name := "f", symbol := calleeSymbol, code := #[Opcode.pushNone.toByte, Opcode.ret.toByte] }

def callerChunk : Chunk Value :=
  { name := "<main>", symbol := .function "Main" "<main>" [], symbols := #[calleeSymbol]
    code := #[Opcode.getModuleFunction.toByte, 0, 0, Opcode.call.toByte, 0, Opcode.ret.toByte] }

def callingModule : Linked :=
  .mk { name := "Main", main := some callerChunk, chunks := ⟨[(calleeSymbol, calleeChunk)]⟩ } []

def callingProgram : Program :=
  { name := "Main", main := callerChunk, modules := callingModule.modules
    types := ⟨Standard.arrayType, Standard.dictionaryType⟩, limits := {} }

/-- Depths that agree with each other are found. -/
theorem exists_depths {c : Chunk Value} (ds : List (Nat × Int)) (hstart : ds.lookup 0 = some 0)
    (hcheck : ∀ e ∈ ds, ∃ after next, c.checkDepth e.1 e.2 = .ok (after, next) ∧
      ∀ t ∈ next, ds.lookup t = some after) : ∃ r, c.depths = .ok r := by
  have hD : c.Assigns (ds.lookup ·) := ⟨hstart, fun o d h => by
    obtain ⟨before, after, he, -⟩ := List.lookup_eq_some_iff.mp h
    exact hcheck (o, d) (he ▸ List.mem_append_right _ List.mem_cons_self)⟩
  obtain ⟨r, hr, -⟩ := Chunk.depths_complete hD
  exact ⟨r, hr⟩

theorem calleeChunk_accepted : calleeChunk.Accepted := by
  refine ⟨exists_depths [(0, 0), (1, 1)] rfl ?_, nofun⟩
  simp only [List.forall_mem_cons]
  exact ⟨⟨1, [1], rfl, by decide⟩, ⟨0, [], rfl, nofun⟩, nofun⟩

theorem callerChunk_accepted : callerChunk.Accepted := by
  refine ⟨exists_depths [(0, 0), (3, 1), (5, 1)] rfl ?_, nofun⟩
  simp only [List.forall_mem_cons]
  exact ⟨⟨1, [3], rfl, by decide⟩, ⟨1, [5], rfl, by decide⟩, ⟨0, [], rfl, nofun⟩, nofun⟩

theorem callingModule_accepted : callingModule.Accepted where
  main c hc := by
    cases hc
    exact callerChunk_accepted
  chunks m hm s c hc := by
    cases List.mem_singleton.mp hm
    have hc : [(calleeSymbol, calleeChunk)].lookup s = some c := hc
    rw [List.lookup_cons] at hc
    cases hs : s == calleeSymbol with
    | true =>
      rw [hs] at hc
      cases hc
      exact calleeChunk_accepted
    | false =>
      rw [hs] at hc
      cases hc
  initializers m hm s c hc := by
    cases List.mem_singleton.mp hm
    cases hc

def beforeCall : State :=
  { start callingProgram callingProgram.heap 0 with
    stack := #[.closure (plainClosure calleeChunk calleeSymbol)]
    frame := { Frame.enter (plainClosure callerChunk callerChunk.symbol) 0 with next := 3 } }

def afterCall : State :=
  { beforeCall with
    frame := .enter (plainClosure calleeChunk calleeSymbol) 0
    callers := #[{ beforeCall.frame with next := 5 }]
    current := 3 }

theorem reaches_afterCall : Reaches callingProgram afterCall [1, 0] := by
  have h₁ : Reaches callingProgram beforeCall (heightsAfter .getModuleFunction
      (start callingProgram callingProgram.heap 0) beforeCall [0]) :=
    .step (i := ⟨.getModuleFunction, (0 : UInt16)⟩) (.start .first) rfl rfl
  have h₂ : Reaches callingProgram afterCall (heightsAfter .call beforeCall afterCall [0]) :=
    .step (i := ⟨.call, (0 : UInt8)⟩) h₁ rfl rfl
  exact h₂

theorem accepted_runs_sound_call : callingModule.Accepted ∧
    Reaches callingProgram afterCall [1, 0] ∧
      ∃ r d, afterCall.frame.chunk.depths = .ok r ∧ r.depth? afterCall.frame.next = some d ∧
        (afterCall.stack.size : Int) = 1 + d ∧ d ≤ r.maxDepth := by
  have hp : Program.ofLinked? callingModule {} = some callingProgram := rfl
  obtain ⟨height, callers, he, hd, -⟩ :=
    (accepted_runs_sound hp callingModule_accepted).1 afterCall _ reaches_afterCall
  cases he
  exact ⟨callingModule_accepted, reaches_afterCall, hd⟩

end Machine

end StackCode
