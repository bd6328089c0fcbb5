import StackCode.Proofs.Actions
import StackCode.Proofs.Table

/-! # What a step can do

One description of a step from every state whose stack has the inputs of the instruction: which
slots it binds, where it goes on, which frames it enters, which bindings it can miss and how high
the stack is then. Invariants of runs are derived from it without another look at the machine.
-/

namespace StackCode

namespace Arithmetic

/-- A result that is plain data, or an error that accepted code may give. -/
def Sensible : Except Cause Value → Prop
  | .ok v => v.Data
  | .error cause => ¬ cause.Unsound ∧ ¬ cause.Unresolved ∧ ¬ cause.Unbound

theorem checked_sensible (op : Operation) (n : Option Int64) : Sensible (checked op n) := by
  cases n with
  | some n => trivial
  | none => exact ⟨nofun, id, nofun⟩

theorem onInts_sensible (op : Operation) (x y : Int64) : Sensible (onInts op x y) := by
  cases op with
  | add | subtract | multiply => exact checked_sensible _ _
  | divide | modulo =>
    unfold onInts
    dsimp only
    split
    · exact ⟨nofun, id, nofun⟩
    · exact checked_sensible _ _
  | less | greater | lessEqual | greaterEqual => trivial

theorem mismatch_sensible (op : Operation) (a b : Value) : Sensible (.error (mismatch op a b)) := by
  unfold mismatch
  split <;> exact ⟨nofun, id, nofun⟩

theorem movePointer_sensible (p : Pointer) (n : Int64) (delta : Option Int) :
    Sensible (movePointer p n delta) := by
  unfold movePointer
  split
  · trivial
  · exact ⟨nofun, id, nofun⟩

theorem onTexts?_data {op : Operation} {x y : String} {v : Value} (h : onTexts? op x y = some v) :
    v.Data := by
  cases op <;> cases h <;> trivial

theorem binary_sensible (op : Operation) (a b : Value) : Sensible (binary op a b) := by
  unfold binary
  split
  · exact onInts_sensible op _ _
  · split
    · rename_i h
      exact onTexts?_data h
    · exact mismatch_sensible op _ _
  · split
    · exact movePointer_sensible _ _ _
    · exact mismatch_sensible op _ _
  · exact mismatch_sensible op _ _

theorem negate_sensible (v : Value) : Sensible (negate v) := by
  unfold negate
  split
  · split
    · trivial
    · exact ⟨nofun, id, nofun⟩
  · exact ⟨nofun, id, nofun⟩

end Arithmetic

def Instruction.binder? : Instruction → Option UInt8
  | ⟨.setLocal, n⟩ | ⟨.defineLocal, n⟩ | ⟨.defineCell, n⟩ => some n
  | _ => none

namespace Machine

variable {K : Terms} {L : Prop} {j : Nat} {s : State} {i : Instruction}

/-- The height of the stack at which a frame starts that an instruction enters: a callee or
receiver stays below it. -/
def entryHeight (op : Opcode) (base : Nat) : Nat :=
  match op with
  | .callChunk | .getModuleValue => base
  | _ => base + 1

section Outcome

variable (p : Program) (O : Value → Prop)

def Binds (f : Frame) (n : Nat) (x : Slot) : Instruction → Prop
  | ⟨.setLocal, (m : UInt8)⟩ | ⟨.defineLocal, (m : UInt8)⟩ =>
    n = m.toNat ∧ ∃ v, O v ∧ x = .value v
  | ⟨.defineCell, (m : UInt8)⟩ => n = m.toNat ∧ ∃ c, x = .cell c
  | ⟨.makeClosure, (m : UInt16)⟩ => (∃ c, x = .cell c) ∧ ∃ symbol c,
    f.chunk.symbol? m = some symbol ∧ p.chunk? symbol = some c ∧
      ∃ y ∈ c.captures, ∃ k : UInt8, y.source = .slot k ∧ k.toNat = n
  | _ => False

def Proceeds (s : State) (o : Nat) : Instruction → Prop
  | ⟨.jump, (d : Int16)⟩ | ⟨.loop, (d : Int16)⟩ => (o : Int) = s.frame.next + d.toInt
  | ⟨.jumpIfFalse, (d : Int16)⟩ => ∃ v, s.stack.back? = some v ∧
    (o : Int) = if v.isTruthy then (s.frame.next : Int) else s.frame.next + d.toInt
  | _ => o = s.frame.next

structure Moves (s : State) (i : Instruction) (g : Frame) : Prop where
  closure : g.closure = s.frame.closure
  base : g.base = s.frame.base
  next : Proceeds s g.next i
  slots : ∀ n, g.slot n = s.frame.slot n ∨ Binds p O s.frame n (g.slot n) i
  bound : ∀ n, i.binder? = some n → g.slot n.toNat ≠ .empty

/-- The bindings that an instruction misses. -/
def Lacks (f : Frame) : Instruction → Prop
  | ⟨.getLocal, (n : UInt8)⟩ => f.slot n.toNat = .empty
  | ⟨.getSelf, _⟩ => f.chunk.hasReceiver = false ∨ f.slot 0 = .empty
  | ⟨.getCapture, (n : UInt8)⟩ | ⟨.setCapture, (n : UInt8)⟩ => f.closure.cells[n.toNat]? = none
  | ⟨.makeClosure, (n : UInt16)⟩ => ∃ symbol c, f.chunk.symbol? n = some symbol ∧
    p.chunk? symbol = some c ∧ CaptureMissing f c.captures.toList
  | ⟨.call, (_ : UInt8)⟩ => ∃ c, O (.closure c) ∧ c.chunk.hasReceiver = true
  | ⟨.callChunk, (n : UInt16)⟩ => ∃ symbol c, f.chunk.symbol? n = some symbol ∧
    p.chunk? symbol = some c ∧ c.hasReceiver = true
  | ⟨.getModuleValue, (n : UInt16)⟩ => ∃ symbol c, f.chunk.symbol? n = some symbol ∧
    p.initializer? symbol = some c ∧ c.hasReceiver = true
  | _ => False

/-- What stands on top of the stack behind an instruction that looks at a local or a case, or at
nothing. -/
def Shows (s : State) (top : Option Value) : Instruction → Prop
  | ⟨.getLocal, (n : UInt8)⟩ => ∀ v, s.frame.slot n.toNat = .value v → top = some v
  | ⟨.matchCase, (c : Selector)⟩ => ∃ owner v, s.frame.chunk.symbol? c.symbol = some owner ∧
    s.stack.back? = some v ∧ top = some (.bool (isCase owner c.number v))
  | ⟨.getAssociated, (n : UInt8)⟩ => ∃ case w, s.stack.back? = some (.enumCase case) ∧
    case.values[n.toNat]? = some w ∧ top = some w
  | ⟨.jump, _⟩ | ⟨.loop, _⟩ => top = s.stack.back?
  | _ => True

end Outcome

/-- What an instruction other than a return leads to: it takes its inputs off the stack and puts its
results there, or enters a frame above what is left. -/
inductive Outcome (K : Terms) (j : Nat) (s : State) (i : Instruction) (s' : State) : Prop where
  | moves {g : Frame} {k : Nat} (moves : Moves K.p K.O s i g)
      (depth : (i.inputs : Int) + i.effect = k) (held : Held K (j + k) s.callers g s')
  | enters {c : Closure Value} {k : Nat} (callee : Callee K.p K.O s.frame i c)
      (depth : (i.inputs : Int) + i.effect = 1)
      (height : K.n + k = entryHeight i.opcode (K.n + j))
      (enters : Enters K (K.n + j) k s.callers s.frame c s')

section Moves

variable {p : Program} {O : Value → Prop}

/-- What a slot is bound to has the property of all values. -/
theorem Binds.value {f : Frame} {n : Nat} {v : Value} (h : Binds p O f n (.value v) i) :
    O v := by
  obtain ⟨op, operand⟩ := i
  cases op
  case setLocal | defineLocal =>
    obtain ⟨-, w, hw, he⟩ := h
    cases he
    exact hw
  case defineCell =>
    obtain ⟨-, c, he⟩ := h
    cases he
  case makeClosure =>
    obtain ⟨⟨c, he⟩, -⟩ := h
    cases he
  all_goals exact h.elim

theorem Moves.chunk {g : Frame} (h : Moves p O s i g) : g.chunk = s.frame.chunk :=
  congrArg Closure.chunk h.closure

theorem Moves.values {g : Frame} (h : Moves p O s i g) (hs : ∀ n v, s.frame.slot n = .value v → O v)
    (n : Nat) (v : Value) (hv : g.slot n = .value v) : O v := by
  rcases h.slots n with he | hb
  · exact hs n v (he.symm.trans hv)
  · exact (hv ▸ hb).value

theorem Started.values {c : Closure Value} {g : Frame} (h : Started O c g) (n : Nat) (v : Value)
    (hv : g.slot n = .value v) : O v := by
  rcases h.slots n with he | ⟨w, hw, he⟩
  · cases he.symm.trans hv
  · cases he.symm.trans hv
    exact hw

theorem moves_self (hb : i.binder? = none) (hj : i.distance? = none) : Moves p O s i s.frame where
  closure := rfl
  base := rfl
  next := by
    obtain ⟨op, operand⟩ := i
    cases op
    case jump | loop | jumpIfFalse => cases hj
    all_goals rfl
  slots _ := .inl rfl
  bound n hn := by
    rw [hb] at hn
    cases hn

theorem moves_setSlot {n : UInt8} {x : Slot} (hi : i.binder? = some n)
    (hx : Binds p O s.frame n.toNat x i) (hne : x ≠ .empty) :
    Moves p O s i (s.frame.setSlot n.toNat x) := by
  have hr := rebinds_setSlot s.frame n.toNat x
  refine ⟨rfl, rfl, ?_, fun m => ?_, fun m hm => ?_⟩
  · obtain ⟨op, operand⟩ := i
    cases op
    case setLocal | defineLocal | defineCell => rfl
    all_goals cases hi
  · by_cases hm : m = n.toNat
    · subst hm
      rw [hr.slot]
      exact .inr hx
    · exact .inl (hr.others m hm)
  · cases hi.symm.trans hm
    rw [hr.slot]
    exact hne

theorem moves_jump {o : Nat} (hb : i.binder? = none) (ho : Proceeds s o i) :
    Moves p O s i { s.frame with next := o } where
  closure := rfl
  base := rfl
  next := ho
  slots _ := .inl rfl
  bound n hn := by
    rw [hb] at hn
    cases hn

end Moves

theorem Acts.stays {m : Exec Unit} {k : Nat} (hb : i.binder? = none) (hj : i.distance? = none)
    (hk : (i.inputs : Int) + i.effect = k)
    (h : Acts K L m s fun _ => Held K (j + k) s.callers s.frame) :
    Acts K L m s fun _ => Outcome K j s i :=
  h.mono fun _ _ hw => .moves (moves_self hb hj) hk hw

theorem Acts.calls {m : Exec Unit} (hb : i.binder? = none) (hj : i.distance? = none)
    (hk : (i.inputs : Int) + i.effect = 1) (hh : ∀ base, base + 1 = entryHeight i.opcode base)
    (h : Acts K L m s fun _ => Calls K j s.callers s.frame i) :
    Acts K L m s fun _ => Outcome K j s i := by
  refine h.mono fun _ _ hw => ?_
  rcases hw with hw | ⟨c, hc, he⟩
  · exact .moves (moves_self hb hj) hk hw
  · exact .enters hc hk (hh _) he

/-! ## Instructions -/

theorem symbolAt_acts {n : UInt16} (hn : (s.frame.chunk.symbol? n).isSome) :
    Acts K L (symbolAt n) s fun x s' => s.frame.chunk.symbol? n = some x ∧ s' = s :=
  .read (fun _ _ => rfl) (.present hn)

theorem constantAt_acts {n : UInt16} (hn : (s.frame.chunk.constant? n).isSome) :
    Acts K L (constantAt n) s fun v s' => s.frame.chunk.constant? n = some v ∧ s' = s :=
  .read (fun _ _ => rfl) (.present hn)

variable {f : Frame} {callers : Array Frame}

theorem sensible_acts (hd : ∀ v : Value, v.Data → K.O v) (h : Held K j callers f s)
    {e : Except Cause Value} (he : Arithmetic.Sensible e) :
    Acts K L (Exec.ofExcept e) s fun v s' => K.O v ∧ Held K j callers f s' := by
  cases e with
  | ok v => exact .done ⟨hd v he, h⟩
  | error cause => exact .trap he h.heap

theorem arithmetic_acts (hd : ∀ v : Value, v.Data → K.O v) (h : Held K (j + 2) callers f s)
    (op : Arithmetic.Operation) :
    Acts K L (arithmetic K.p op) s fun _ => Held K (j + 1) callers f :=
  (pop_acts h).bind fun b _ hb => (pop_acts hb.2).bind fun a _ ha =>
    (sensible_acts hd ha.2 (Arithmetic.binary_sensible op a b)).bind fun _ _ hv =>
      push_acts hv.2 hv.1

theorem expectObject_acts (h : Held K j callers f s) (operation : String) (v : Value) :
    Acts K L (expectObject operation v) s fun _ => Held K j callers f := by
  cases v with
  | object ref => exact .done h
  | _ => exact .trap ⟨nofun, id, nofun⟩ h.heap

theorem associated_acts {c : Frame} (hy : Yields K.p c i K.O) (h : Held K j callers f s)
    (index : UInt8) {v : Value} (hv : K.O v) :
    Acts K L (associated index v) s fun w s' => K.O w ∧ Held K j callers f s' := by
  cases v with
  | enumCase case =>
    exact .ofOption (fun w hw => ⟨hy.part case w hv (List.mem_of_getElem? hw), h⟩)
      fun _ => .trap ⟨nofun, id, nofun⟩ h.heap
  | _ => exact .trap ⟨nofun, id, nofun⟩ h.heap

theorem mem_pairs {vs : List Value} : ∀ {e : Value × Value}, e ∈ pairs vs →
    e.1 ∈ vs ∧ e.2 ∈ vs := by
  fun_induction pairs vs with
  | case1 key v rest ih =>
    intro e he
    rcases List.mem_cons.mp he with rfl | he
    · exact ⟨List.mem_cons_self, List.mem_cons_of_mem _ List.mem_cons_self⟩
    · have := ih he
      exact ⟨List.mem_cons_of_mem _ (List.mem_cons_of_mem _ this.1),
        List.mem_cons_of_mem _ (List.mem_cons_of_mem _ this.2)⟩
  | case2 => exact fun he => absurd he List.not_mem_nil

theorem jump_acts (h : Held K j callers f s) {d : Int16} (hd : 0 ≤ f.next + d.toInt) :
    Acts K L (jump d) s fun _ s' => ∃ o : Nat, (o : Int) = f.next + d.toInt ∧
      Held K j callers { f with next := o } s' := by
  refine .read (fun _ _ => rfl) ?_
  dsimp only
  rw [h.frame, if_pos hd]
  exact (modifyFrame_acts h _).mono fun _ _ hw => ⟨_, Int.toNat_of_nonneg hd, hw⟩

theorem makeClosure_acts {n : UInt16} (hy : Yields K.p s.frame ⟨.makeClosure, n⟩ K.O)
    (h : Held K j s.callers s.frame s) {symbol : Symbol}
    (hs : s.frame.chunk.symbol? n = some symbol) (hc : K.closed → (K.p.chunk? symbol).isSome) :
    Acts K (Lacks K.p K.O s.frame ⟨.makeClosure, n⟩) (makeClosure K.p symbol) s fun _ =>
      Outcome K j s ⟨.makeClosure, n⟩ := by
  refine (resolveChunk_acts h hc).looks fun c hc => ?_
  have hmissing : CaptureMissing s.frame c.captures.toList →
      Lacks K.p K.O s.frame ⟨.makeClosure, n⟩ := fun hm => ⟨symbol, c, hs, hc, hm⟩
  refine (captureAll_acts hy.data c.captures.toList #[] h hy.slot hmissing).bind
    fun cells s₂ hw => ?_
  obtain ⟨hsize, g, hg, hw⟩ := hw
  have hsize : cells.size = c.captures.size := by simpa using hsize
  refine .read (fun _ _ => rfl) ?_
  have hcount : Acts K (Lacks K.p K.O s.frame ⟨.makeClosure, n⟩)
      (modify fun s => { s with closures := s₂.closures + 1 }) s₂ fun _ =>
        Held K j s.callers g := .modified (fun _ _ => rfl) { hw with }
  refine hcount.bind fun _ s₃ hw => (push_acts hw ?_).mono fun _ _ hw => .moves ?_ rfl hw
  · exact hy.closure n symbol c _ cells rfl hs hc hsize
  · refine ⟨hg.closure, hg.base, hg.next, fun m => ?_, nofun⟩
    refine (hg.slots m).imp_right fun hm => ⟨hm.1, symbol, c, hs, hc, ?_⟩
    obtain ⟨x, hx, hi⟩ := hm.2
    exact ⟨x, Array.mem_toList_iff.mp hx, hi⟩

/-- A body without arguments starts at the height of the stack. -/
theorem enterBody_acts (hd : ∀ v : Value, v.Data → K.O v) (h : Held K j s.callers s.frame s)
    {c : Closure Value} (hc : Callee K.p K.O s.frame i c)
    (hk : (i.inputs : Int) + i.effect = 1) (hh : ∀ base, base = entryHeight i.opcode base)
    (hL : c.chunk.hasReceiver = true → L) :
    Acts K L (do enter K.p c (← get).stack.size [] none) s fun _ => Outcome K j s i := by
  have hargs : ∀ v ∈ ([] : List Value), K.O v := fun v hv => absurd hv List.not_mem_nil
  refine .read (fun xs hx => ?_) ?_
  · have hsize : (s.under xs).stack.size = s.stack.size := size_rebase (h.le hx)
    rw [hsize]
  · rw [h.size]
    exact (enter_acts hd h hargs _ fun hr _ => hL hr).mono fun _ _ he => .enters hc hk (hh _) he

theorem getModuleValue_acts {n : UInt16} (hy : Yields K.p s.frame ⟨.getModuleValue, n⟩ K.O)
    (h : Held K j s.callers s.frame s) {symbol : Symbol}
    (hs : s.frame.chunk.symbol? n = some symbol)
    (hc : K.closed → (K.p.initializer? symbol).isSome) :
    Acts K (Lacks K.p K.O s.frame ⟨.getModuleValue, n⟩) (getModuleValue K.p symbol) s fun _ =>
      Outcome K j s ⟨.getModuleValue, n⟩ := by
  refine .read (fun _ _ => rfl) ?_
  cases hv : s.values.get? symbol with
  | some v => exact .stays rfl rfl rfl (push_acts h (h.values symbol v hv))
  | none =>
    refine (Acts.lookup h.heap hc symbol).looks fun c hc => ?_
    exact enterBody_acts hy.data h (.value hs hc) rfl (fun _ => rfl)
      fun hr => ⟨symbol, c, hs, hc, hr⟩

theorem jumpIfFalse_acts {d : Int16} (h : Held K (j + 1) s.callers s.frame s)
    (hd : 0 ≤ s.frame.next + d.toInt) :
    Acts K L (execute K.p ⟨.jumpIfFalse, d⟩) s fun _ => Outcome K j s ⟨.jumpIfFalse, d⟩ := by
  refine (popTop_acts h).bind fun v s₁ hv => ?_
  split
  · rename_i ht
    refine (jump_acts hv.2 hd).mono fun _ s' hw => ?_
    obtain ⟨o, ho, hw⟩ := hw
    refine .moves (k := 0) (moves_jump rfl ⟨v, hv.1, ?_⟩) rfl hw
    rw [if_neg (by simpa using ht)]
    exact ho
  · rename_i ht
    refine .done (.moves (g := s.frame) (k := 0)
      (moves_jump (o := s.frame.next) rfl ⟨v, hv.1, ?_⟩) rfl hv.2)
    rw [if_pos (by simpa using ht)]

/-- Whatever the instruction, its outcome is as described. -/
theorem execute_acts {o : Nat} (hy : Yields K.p s.frame i K.O)
    (hcl : K.closed → Closes K.p s.frame i K.O)
    (h : Held K (j + i.inputs) s.callers s.frame s) (ho : s.frame.next = o + i.size)
    (hin : s.frame.chunk.refersInside o i = true) (hret : i.opcode ≠ .ret) :
    Acts K (Lacks K.p K.O s.frame i) (execute K.p i) s fun _ => Outcome K j s i := by
  obtain ⟨op, operand⟩ := i
  cases op
  case ret => exact absurd rfl hret
  case constant =>
    refine .stays rfl rfl rfl ((constantAt_acts hin).looks fun v hv => ?_)
    exact push_acts h (hy.constant operand v rfl hv)
  case pushNone | pushTrue | pushFalse =>
    refine .stays rfl rfl rfl (push_acts h ?_)
    exact hy.data _ trivial
  case pop => exact .stays (k := 0) rfl rfl rfl ((pop_acts h).bind fun _ _ hv => .done hv.2)
  case getLocal =>
    exact .stays rfl rfl rfl ((getLocal_acts h (hy.slot _) id).bind fun v s' hv =>
      push_acts hv.2 hv.1)
  case setLocal =>
    refine (peek_acts h).looks fun v hv => ?_
    refine (setLocal_acts h (UInt8.toNat operand) hv).mono fun _ s'' hw => ?_
    rcases hw with ⟨⟨c, hc⟩, hw⟩ | hw
    · refine .moves ⟨rfl, rfl, rfl, fun _ => .inl rfl, fun n hn => ?_⟩ rfl hw
      cases hn
      rw [hc]
      exact nofun
    · exact .moves (moves_setSlot rfl ⟨rfl, v, hv, rfl⟩ nofun) rfl hw
  case defineLocal =>
    refine (pop_acts h).bind fun v s' hv => (modifyFrame_acts hv.2 _).mono fun _ _ hw => ?_
    exact .moves (k := 0) (moves_setSlot rfl ⟨rfl, v, hv.1, rfl⟩ nofun) rfl hw
  case defineCell =>
    refine (pop_acts h).bind fun v s' hv =>
      (host_acts hv.2 (Host.newCell_safe hv.1)).bind fun c s'' hc =>
        (modifyFrame_acts hc.2 _).mono fun _ _ hw => ?_
    exact .moves (k := 0) (moves_setSlot rfl ⟨rfl, c, rfl⟩ nofun) rfl hw
  case getCapture =>
    refine .stays rfl rfl rfl ((captured_acts h id).bind fun c s' hs => ?_)
    subst hs
    exact (host_acts h (Host.readCell_safe c)).bind fun v s'' hv => push_acts hv.2 hv.1
  case setCapture =>
    refine .stays rfl rfl rfl ((captured_acts h id).bind fun c s' hs => ?_)
    subst hs
    refine (peek_acts h).looks fun v hv => ?_
    exact (host_acts h (Host.writeCell_safe c hv)).mono fun _ _ hw => hw.2
  case getModuleValue =>
    refine (symbolAt_acts hin).looks fun symbol hs => ?_
    exact getModuleValue_acts hy h hs fun hc => (hcl hc).resolves.apply hs
  case setModuleValue =>
    refine .stays rfl rfl rfl ((symbolAt_acts hin).looks fun symbol hs => ?_)
    refine (peek_acts h).looks fun v hv => ?_
    refine .modified (fun _ _ => rfl) { h with values := fun k w hw => ?_ }
    rw [Table.get?_insert] at hw
    split at hw
    · cases hw
      exact hv
    · exact h.values k w hw
  case getModuleFunction =>
    refine .stays rfl rfl rfl ((symbolAt_acts hin).looks fun symbol hs => ?_)
    refine (resolveChunk_acts h fun hc => (hcl hc).resolves.apply hs).looks fun c hc => ?_
    exact push_acts h (hy.function operand symbol c rfl hs hc)
  case getStruct =>
    refine .stays rfl rfl rfl ((symbolAt_acts hin).looks fun symbol hs => ?_)
    have hfound : K.closed → (K.p.structType? symbol).isSome := fun hc => by
      obtain ⟨type, ht, -⟩ := (hcl hc).resolves.apply hs
      exact Option.isSome_of_eq_some ht
    refine (Acts.lookup h.heap hfound symbol).looks fun type ht => ?_
    exact push_acts h (hy.struct operand symbol type rfl hs ht)
  case getBuiltin =>
    refine .stays rfl rfl rfl ((symbolAt_acts hin).looks fun symbol hs => ?_)
    refine (Acts.lookup h.heap (fun hc => (hcl hc).resolves.apply hs) symbol).looks fun b _ => ?_
    refine push_acts h ?_
    exact hy.data _ trivial
  case getSelf =>
    refine .stays rfl rfl rfl (.read (fun _ _ => rfl) ?_)
    split
    · exact (getLocal_acts h (hy.slot 0) .inr).bind fun v s' hv => push_acts hv.2 hv.1
    · rename_i hr
      exact .misses (Failure.allowed_of_start (by simp)) (.inl (Bool.eq_false_iff.mpr hr)) h.heap
  case makeClosure =>
    refine (symbolAt_acts hin).looks fun symbol hs => ?_
    exact makeClosure_acts hy h hs fun hc => (hcl hc).resolves.apply hs
  case call =>
    have h : Held K (j + 1 + UInt8.toNat operand) s.callers s.frame s := by
      rw [Nat.add_assoc, Nat.add_comm 1]
      exact h
    refine .calls rfl rfl ?_ (fun _ => rfl) (callValue_acts hy hcl h id)
    change ((UInt8.toNat operand + 1 : Nat) : Int) + -UInt8.toNat operand = 1
    omega
  case callChunk =>
    refine (symbolAt_acts hin).looks fun symbol hs => ?_
    refine (resolveChunk_acts h fun hc => (hcl hc).resolves.apply hs).looks fun c hc => ?_
    exact enterBody_acts hy.data h (.chunk hs hc) rfl (fun _ => rfl)
      fun hr => ⟨symbol, c, hs, hc, hr⟩
  case invokeMethod =>
    obtain ⟨index, count⟩ := operand
    have h : Held K (j + 1 + count.toNat) s.callers s.frame s := by
      rw [Nat.add_assoc, Nat.add_comm 1]
      exact h
    have hk : ((count.toNat + 1 : Nat) : Int) + -count.toNat = 1 := by omega
    refine .calls rfl rfl hk (fun _ => rfl) ((symbolAt_acts hin).looks fun method hs => ?_)
    refine (calleeHeight_acts h).bind fun height s'' hh => ?_
    obtain ⟨rfl, rfl⟩ := hh
    refine (valueAt_acts h).looks fun v _ => (expectObject_acts h _ v).bind fun ref s₃ hw => ?_
    exact callMethod_acts hy.data hw ref (fun hc => (hcl hc).resolves.apply hs)
      fun c hc => .invoked hs hc
  case getMethod =>
    refine .stays rfl rfl rfl ((symbolAt_acts hin).looks fun method hs => ?_)
    exact (pop_acts h).bind fun v s₁ hv => (expectObject_acts hv.2 _ v).bind fun ref s₂ hw =>
      push_acts hw (hy.method operand method ref rfl hs)
  case getProperty =>
    exact .stays rfl rfl rfl ((pop_acts h).bind fun v s₁ hv => (expectObject_acts hv.2 _ v).bind
      fun ref s₂ hw => (host_acts hw (Host.getField_safe hy.data ref _)).bind fun w s₃ hw =>
        push_acts hw.2 hw.1)
  case setProperty =>
    refine .stays rfl rfl rfl ((pop_acts h).bind fun v s₁ hv => (expectObject_acts hv.2 _ v).bind
      fun ref s₂ hw => (peek_acts hw).looks fun w hv => ?_)
    exact (host_acts hw (Host.setField_safe hy.data ref _ hv)).mono fun _ _ hw => hw.2
  case initArray =>
    have hk : (UInt16.toNat operand : Int) + (1 - UInt16.toNat operand) = 1 := by omega
    exact .stays (k := 1) rfl rfl hk ((popMany_acts h).bind fun vs s₁ hv =>
      (host_acts hv.2 (Collection.Array.create_safe hy.data _ hv.1)).bind fun v s₂ hv =>
        push_acts hv.2 hv.1)
  case initDict =>
    have h : Held K (j + UInt16.toNat operand * 2) s.callers s.frame s := Nat.mul_comm 2 _ ▸ h
    have hk : ((2 * UInt16.toNat operand : Nat) : Int) + (1 - 2 * UInt16.toNat operand) = 1 := by
      omega
    refine .stays (k := 1) rfl rfl hk ((popMany_acts h).bind fun vs s₁ hv => ?_)
    have hentries : ∀ e ∈ pairs vs, K.O e.1 ∧ K.O e.2 := fun e he =>
      ⟨hv.1 _ (mem_pairs he).1, hv.1 _ (mem_pairs he).2⟩
    exact (host_acts hv.2 (Collection.Dictionary.create_safe hy.data _ hentries)).bind
      fun v s₂ hv => push_acts hv.2 hv.1
  case get =>
    exact .stays rfl rfl rfl ((pop_acts h).bind fun index s₁ hi => (pop_acts hi.2).bind
      fun receiver s₂ hr => (host_acts hr.2 (Collection.subscript_safe hy.data hr.1 hi.1)).bind
        fun v s₃ hv => push_acts hv.2 hv.1)
  case setSubscript =>
    refine .stays rfl rfl rfl ((pop_acts h).bind fun index s₁ hi => (pop_acts hi.2).bind
      fun receiver s₂ hr => (peek_acts hr.2).looks fun v hv => ?_)
    exact (host_acts hr.2 (Collection.setSubscript_safe hy.data hr.1 hi.1 hv)).mono
      fun _ _ hw => hw.2
  case add | subtract | multiply | divide | modulo | less | greater | lessEqual | greaterEqual =>
    exact .stays rfl rfl rfl (arithmetic_acts hy.data h _)
  case negate =>
    exact .stays rfl rfl rfl ((pop_acts h).bind fun v s₁ hv =>
      (sensible_acts hy.data hv.2 (Arithmetic.negate_sensible v)).bind fun w s₂ hw =>
        push_acts hw.2 hw.1)
  case not =>
    refine .stays rfl rfl rfl ((pop_acts h).bind fun v s₁ hv => push_acts hv.2 ?_)
    exact hy.data _ trivial
  case equal | notEqual =>
    refine .stays rfl rfl rfl ((pop_acts h).bind fun b s₁ hb => (pop_acts hb.2).bind
      fun a s₂ ha => push_acts ha.2 ?_)
    exact hy.data _ trivial
  case jump | loop =>
    have hd : 0 ≤ s.frame.next + Int16.toInt operand := ho ▸ of_decide_eq_true hin
    refine (jump_acts h hd).mono fun _ s' hw => ?_
    obtain ⟨o, ho, hw⟩ := hw
    exact .moves (k := 0) (moves_jump rfl ho) rfl hw
  case jumpIfFalse =>
    have hd : 0 ≤ s.frame.next + Int16.toInt operand := ho ▸ of_decide_eq_true hin
    exact jumpIfFalse_acts h hd
  case matchCase =>
    obtain ⟨index, number⟩ := operand
    refine .stays rfl rfl rfl ((symbolAt_acts hin).looks fun owner hs => ?_)
    refine (pop_acts h).bind fun v s₁ hv => push_acts hv.2 ?_
    exact hy.data _ trivial
  case getAssociated =>
    exact .stays rfl rfl rfl ((pop_acts h).bind fun v s₁ hv =>
      (associated_acts hy hv.2 operand hv.1).bind fun w s₂ hw => push_acts hw.2 hw.1)

theorem push_shows (p : Program) (v : Value) (s : State) :
    Meets (fun _ s' => s'.stack.back? = some v) (fun _ _ => True) (push p v s) := by
  unfold push
  split
  · exact Array.back?_push
  · trivial

theorem pop_shows (s : State) :
    Meets (fun v s' => s.stack.back? = some v ∧ s' = { s with stack := s.stack.pop })
      (fun _ _ => True) (pop s) := by
  unfold pop
  cases hv : s.stack.back? with
  | none => trivial
  | some v => exact ⟨rfl, rfl⟩

theorem ofOption_shows {α : Type} (found : Option α) (cause : Cause) (s : State) :
    Meets (fun a s' => found = some a ∧ s' = s) (fun _ _ => True)
      (Exec.ofOption found cause s) := by
  cases found with
  | some a => exact ⟨rfl, rfl⟩
  | none => trivial

theorem getLocal_shows (s : State) (n : Nat) :
    Meets (fun a _ => ∀ v, s.frame.slot n = .value v → a = v) (fun _ _ => True)
      (getLocal n s) := by
  have hread : ∀ rest : State → Exec Value, (get >>= rest) s = rest s s := fun _ => rfl
  rw [getLocal, hread]
  cases s.frame.slot n with
  | value v =>
    intro w hw
    cases hw
    rfl
  | cell c =>
    dsimp only
    cases Exec.access (Heap.readCell c) s with
    | ok a s' => exact fun v hv => Slot.noConfusion hv
    | error e s' => trivial
  | empty => trivial

theorem execute_shows (p : Program) (s : State) (i : Instruction) :
    Meets (fun _ s' => Shows s s'.stack.back? i) (fun _ _ => True) (execute p i s) := by
  obtain ⟨op, operand⟩ := i
  cases op
  case getLocal =>
    refine (getLocal_shows s _).bind fun a s' ha =>
      (push_shows p a s').mono (fun _ s'' ht v hv => ?_) fun _ _ => id
    rw [ht, ha v hv]
  case matchCase =>
    have hsymbol : Meets (fun x s' => s.frame.chunk.symbol? operand.symbol = some x ∧ s' = s)
        (fun _ _ => True) (symbolAt operand.symbol s) := ofOption_shows _ _ s
    refine hsymbol.bind fun owner s' hs => ?_
    obtain ⟨hs, rfl⟩ := hs
    refine (pop_shows s').bind fun v s₁ hv => (push_shows p _ s₁).mono (fun _ s'' ht => ?_)
      fun _ _ => id
    exact ⟨owner, v, hs, hv.1, ht⟩
  case getAssociated =>
    refine (pop_shows s).bind fun v s₁ hv => ?_
    have hpart : Meets (fun w _ => ∃ case, v = .enumCase case ∧
        case.values[UInt8.toNat operand]? = some w) (fun _ _ => True)
        (associated operand v s₁) := by
      cases v with
      | enumCase case =>
        exact (ofOption_shows _ _ s₁).mono (fun w _ hw => ⟨case, rfl, hw.1⟩) fun _ _ => id
      | _ => trivial
    refine hpart.bind fun w s₂ hw => (push_shows p w s₂).mono (fun _ s'' ht => ?_) fun _ _ => id
    obtain ⟨case, rfl, hw⟩ := hw
    exact ⟨case, w, hv.1, hw, ht⟩
  case jump | loop =>
    change Meets _ _ ((if 0 ≤ (s.frame.next : Int) + operand.toInt then _ else _ : Exec Unit) s)
    split
    · exact rfl
    · trivial
  all_goals
    generalize execute p _ s = r
    cases r <;> trivial

/-! ## Steps -/

theorem Acts.and {α : Type} {m : Exec α} {Q Q' : α → State → Prop} {F : Failure → State → Prop}
    (h : Acts K L m s Q) (h' : Meets Q' F (m s)) : Acts K L m s fun a s' => Q a s' ∧ Q' a s' := by
  refine ⟨?_, h.framed⟩
  have hr := h.result
  generalize m s = r at hr h'
  cases r with
  | ok a s' => exact ⟨hr, h'⟩
  | error e s' => exact hr

section Fetch

variable {p : Program}

def State.fetched (s : State) (i : Instruction) : State :=
  { s with current := s.frame.next, frame := { s.frame with next := s.frame.next + i.size } }

theorem fetch_of_decode? (hi : Instruction.decode? s.frame.chunk.code s.frame.next = some i) :
    fetch s = .ok i (s.fetched i) := by
  unfold fetch
  dsimp only
  rw [hi]
  rfl

theorem step_of_decode? (hi : Instruction.decode? s.frame.chunk.code s.frame.next = some i) :
    step p s = (if i.opcode = .ret then do leave p (← pop)
      else do
        execute p i
        return none : Exec (Option Value)) (s.fetched i) :=
  bind_of_ok (fetch_of_decode? hi)

theorem step_of_decode?_eq_none
    (hi : Instruction.decode? s.frame.chunk.code s.frame.next = none) :
    step p s = .error (.trap (fetchFailure s.frame.chunk s.frame.next))
      { s with current := s.frame.next } := by
  have hf : fetch s = .error (.trap (fetchFailure s.frame.chunk s.frame.next))
      { s with current := s.frame.next } := by
    unfold fetch
    dsimp only
    rw [hi]
  exact bind_of_error hf

theorem decode?_of_instruction? {c : Chunk Value} {o : Nat} (h : c.instruction? o = some i) :
    Instruction.decode? c.code o = some i ∧ c.refersInside o i = true :=
  Option.filter_eq_some_iff.mp h

def State.back (s : State) (f : Frame) : State :=
  { s with frame := f, callers := s.callers.pop, stack := s.stack.shrink s.frame.base }

theorem leave_run (v : Value) (s : State) :
    leave p v s = match s.callers.back? with
      | none => .ok (some v) s
      | some f => (do push p v; return none : Exec (Option Value)) (s.back f) := by
  have hrun : leave p v s = (match s.callers.back? with
      | none => (pure (some v) : Exec (Option Value))
      | some f => do
        set (s.back f)
        push p v
        return none) s := rfl
  rw [hrun]
  cases s.callers.back? <;> rfl

theorem target?_of_next {o t : Nat} {d : Int} (hd : i.distance? = some d)
    (ht : (t : Int) = (o + i.size : Nat) + d) : Chunk.target? o i = some t := by
  rw [Chunk.target?, hd]
  change some ((o : Int) + i.size + d).toNat = some t
  congr 1
  omega

/-- An instruction goes on where the check of depths says. -/
theorem Proceeds.mem_successors {o : Nat} (h : Proceeds (s.fetched i) o i)
    (hret : i.opcode ≠ .ret) : o ∈ Chunk.successors s.frame.next i := by
  have hplain : i.distance? = none ∨ i.opcode = .jumpIfFalse →
      s.frame.next + i.size ∈ Chunk.successors s.frame.next i := Chunk.next_mem_successors hret
  obtain ⟨op, operand⟩ := i
  cases op
  case jump | loop => exact Chunk.mem_successors_of_target? (target?_of_next rfl h)
  case jumpIfFalse =>
    obtain ⟨v, -, ho⟩ := h
    split at ho
    · have ho : o = s.frame.next + _ := Int.ofNat.inj ho
      exact ho ▸ hplain (.inr rfl)
    · exact Chunk.mem_successors_of_target? (target?_of_next rfl ho)
  all_goals exact h ▸ hplain (.inl rfl)

theorem Callee.distance? {O : Value → Prop} {f : Frame} {c : Closure Value}
    (h : Callee p O f i c) : i.distance? = none := by
  cases h <;> rfl

end Fetch

theorem fetch_acts (hi : s.frame.chunk.instruction? s.frame.next = some i) :
    Acts K L fetch s fun x s' => x = i ∧ s' = s.fetched i := by
  have hd := (decode?_of_instruction? hi).1
  constructor
  · unfold fetch
    dsimp only
    rw [hd]
    exact ⟨rfl, rfl⟩
  · intro xs _
    have hframe : (s.under xs).frame = s.frame := rfl
    unfold fetch
    dsimp only
    rw [hframe, hd]
    rfl

theorem step_acts (hi : s.frame.chunk.instruction? s.frame.next = some i) (hret : i.opcode ≠ .ret)
    (hy : Yields K.p (s.fetched i).frame i K.O)
    (hcl : K.closed → Closes K.p (s.fetched i).frame i K.O) (h : Holds K.p K.O s)
    (hsize : s.stack.size = K.n + (j + i.inputs)) :
    Acts K (Lacks K.p K.O (s.fetched i).frame i) (step K.p) s fun r s' => r = none ∧
      Outcome K j (s.fetched i) i s' ∧ Shows (s.fetched i) s'.stack.back? i := by
  refine (fetch_acts hi).bind fun x s₁ hx => ?_
  obtain ⟨rfl, rfl⟩ := hx
  rw [if_neg hret]
  have hfetched : Held K (j + x.inputs) (s.fetched x).callers (s.fetched x).frame (s.fetched x) :=
    { h with size := hsize, frame := rfl, callers := rfl }
  have hrun := execute_acts hy hcl hfetched rfl (decode?_of_instruction? hi).2 hret
  exact (hrun.and (execute_shows K.p _ x)).bind fun _ s' hs => .done ⟨rfl, hs⟩

/-- A return cuts the stack to the base of the frame. -/
theorem leave_acts {v : Value} (h : Held K j callers f s) (hn : K.n ≤ f.base)
    (hb : f.base ≤ K.n + j) (hv : K.O v) :
    Acts K L (leave K.p v) s fun r s' => Kept K.p K.O s'.heap ∧ (∀ v, r = some v → K.O v) ∧
      (r = none → ∃ g, callers.back? = some g ∧
        Held K (f.base - K.n + 1) callers.pop g s') := by
  cases hc : s.callers.back? with
  | none =>
    refine ⟨?_, fun xs _ => ?_⟩
    · rw [leave_run, hc]
      exact ⟨h.heap, fun w hw => Option.some.inj hw ▸ hv, nofun⟩
    · have hcx : (s.under xs).callers.back? = none := hc
      rw [leave_run, leave_run, hcx, hc]
      rfl
  | some g =>
    have hbase : s.frame.base = f.base := congrArg Frame.base h.frame
    have hw : Held K (f.base - K.n) callers.pop g (s.back g) := by
      have hcut : Held K (f.base - K.n + (K.n + j - f.base)) callers f s :=
        { h with size := by rw [h.size]; omega }
      have hshrink := hcut.shrink
      rw [show K.n + (f.base - K.n) = s.frame.base by omega] at hshrink
      exact { hshrink with
        frame := rfl
        callers := congrArg Array.pop h.callers }
    have hpush : Acts K L (do push K.p v; return none : Exec (Option Value)) (s.back g)
        fun r s' => Kept K.p K.O s'.heap ∧ (∀ v, r = some v → K.O v) ∧
          (r = none → ∃ g, callers.back? = some g ∧
            Held K (f.base - K.n + 1) callers.pop g s') :=
      (push_acts hw hv).bind fun _ _ hw' =>
        .done ⟨hw'.heap, nofun, fun _ => ⟨g, h.callers ▸ hc, hw'⟩⟩
    refine ⟨?_, fun xs hx => ?_⟩
    · rw [leave_run, hc]
      exact hpush.result
    · have hcx : (s.under xs).callers.back? = some g := hc
      have hback : (s.under xs).back g = (s.back g).under xs := by
        have hshrink : (s.under xs).stack.shrink s.frame.base =
            rebase xs (s.stack.shrink s.frame.base) := rebase_shrink (by omega)
        unfold State.back
        rw [show (s.under xs).frame.base = s.frame.base from rfl, hshrink]
        rfl
      rw [leave_run, leave_run, hcx, hc]
      dsimp only
      rw [hback]
      exact hpush.framed xs hx

/-- A step with a return gives the result of the program or goes on with the innermost waiting
frame. -/
theorem return_acts (hi : s.frame.chunk.instruction? s.frame.next = some i) (hret : i.opcode = .ret)
    (h : Holds K.p K.O s) (hn : K.n ≤ s.frame.base) (hb : s.frame.base < s.stack.size) :
    Acts K L (step K.p) s fun r s' => Kept K.p K.O s'.heap ∧ (∀ v, r = some v → K.O v) ∧
      (r = none → ∃ f, s.callers.back? = some f ∧
        Held K (s.frame.base - K.n + 1) s.callers.pop f s') := by
  refine (fetch_acts hi).bind fun x s₁ hx => ?_
  obtain ⟨rfl, rfl⟩ := hx
  rw [if_pos hret]
  have hw : Held K (s.stack.size - 1 - K.n + 1) s.callers (s.fetched x).frame (s.fetched x) :=
    { h with
      size := by
        change s.stack.size = _
        omega
      frame := rfl
      callers := rfl }
  have hbase : (s.fetched x).frame.base ≤ K.n + (s.stack.size - 1 - K.n) := by
    change s.frame.base ≤ _
    omega
  exact (pop_acts hw).bind fun v s₂ hv =>
    leave_acts (f := (s.fetched x).frame) hv.2 hn hbase hv.1

end Machine

end StackCode
