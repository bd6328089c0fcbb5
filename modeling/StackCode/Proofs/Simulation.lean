import StackCode.Proofs.CoreCode
import StackCode.Proofs.ModuleValues

/-! # Evaluation and the machine

A call is followed until its frame is left. While a core function runs, the machine goes through the
same values as evaluation: the variables in scope are in the slots of their names, and what a
subexpression gives is on top of the stack.
-/

namespace StackCode.Machine

open Evaluation

/-! ## Following a call -/

/-- Repeats steps, at most as many as given, until fewer frames wait than at a depth. The value that
is on top of the stack then is the result. -/
def follow (p : Program) (depth : Nat) : Nat → State → Except Halt Value
  | 0, _ => .error .unfinished
  | n + 1, s =>
    if s.callers.size < depth then
      match s.stack.back? with
      | some v => .ok v
      | none => .error .fault
    else
      match step p s with
      | .ok none t => follow p depth n t
      | .ok (some v) _ => .ok v
      | .error (.trap cause) _ => .error (.trap cause)
      | .error .fault _ => .error .fault

/-- Calls the value that stands on the stack below so many arguments, and follows the call. -/
def call (p : Program) (s : State) (count : UInt8) (fuel : Nat) : Except Halt Value :=
  match callValue p count s with
  | .ok _ t => follow p (s.callers.size + 1) fuel t
  | .error (.trap cause) _ => .error (.trap cause)
  | .error .fault _ => .error .fault

variable {p : Program} {depth : Nat} {s t : State}

theorem follow_mono {n m : Nat} (hn : n ≤ m) (h : follow p depth n s ≠ .error .unfinished) :
    follow p depth m s = follow p depth n s := by
  induction n generalizing m s with
  | zero => exact absurd rfl h
  | succ n ih =>
    obtain ⟨m, rfl⟩ : ∃ k, m = k + 1 := ⟨m - 1, by omega⟩
    rw [follow] at h ⊢
    by_cases hs : s.callers.size < depth
    · rw [if_pos hs, follow, if_pos hs]
    · rw [if_neg hs] at h ⊢
      rw [follow, if_neg hs]
      cases hstep : step p s with
      | error e t => rcases e with _ | _ <;> rfl
      | ok r t =>
        cases r with
        | some v => rfl
        | none =>
          rw [hstep] at h
          exact ih (Nat.le_of_succ_le_succ hn) h

/-- Following a call from one state is following it from another one, so many steps later. -/
def Reduces (p : Program) (depth : Nat) (s : State) (k : Nat) (t : State) : Prop :=
  ∀ n, follow p depth (n + k) s = follow p depth n t

def Ends (p : Program) (depth : Nat) (s : State) (r : Except Halt Value) : Prop :=
  ∀ n, follow p depth (n + 1) s = r

theorem Reduces.refl (s : State) : Reduces p depth s 0 s := fun _ => rfl

theorem Reduces.trans {u : State} {j k : Nat} (h : Reduces p depth s j t)
    (h' : Reduces p depth t k u) : Reduces p depth s (k + j) u := by
  intro n
  rw [← Nat.add_assoc, h, h']

theorem Reduces.step (hs : depth ≤ s.callers.size) (h : Machine.step p s = .ok none t) :
    Reduces p depth s 1 t := by
  intro n
  rw [follow, if_neg (Nat.not_lt.mpr hs), h]

theorem Ends.trap {cause : Cause} (hs : depth ≤ s.callers.size)
    (h : Machine.step p s = .error (.trap cause) t) :
    Ends p depth s (.error (.trap cause)) := by
  intro n
  rw [follow, if_neg (Nat.not_lt.mpr hs), h]

theorem Ends.left {v : Value} (hs : s.callers.size < depth) (h : s.stack.back? = some v) :
    Ends p depth s (.ok v) := by
  intro n
  rw [follow, if_pos hs, h]

/-! ## Simulation -/

section Simulates

variable {α β : Type} {fuel : Nat} {s t : State}

/-- What the machine has come to after so many steps, where evaluation gives a result. -/
def Agrees (p : Program) (depth fuel k : Nat) (t : State) (Q : α → Env → State → Prop) :
    EStateM.Result Halt Env α → Prop
  | .ok a env => Q a env t
  | .error (.trap cause) _ => Ends p depth t (.error (.trap cause))
  | .error .fault _ => False
  | .error .unfinished _ => fuel ≤ k

/-- The machine comes to what evaluation gives, unless it hits one of its limits before. -/
def Simulates (p : Program) (depth fuel : Nat) (s : State) (r : EStateM.Result Halt Env α)
    (Q : α → Env → State → Prop) : Prop :=
  ∃ k t, Reduces p depth s k t ∧
    (Ends p depth t (.error (.trap .stackOverflow)) ∨ Agrees p depth fuel k t Q r)

namespace Simulates

variable {r : EStateM.Result Halt Env α} {Q Q' : α → Env → State → Prop} {env : Env}

theorem done {a : α} (h : Q a env s) : Simulates p depth fuel s (.ok a env) Q :=
  ⟨0, s, .refl s, .inr h⟩

theorem overflow (h : Ends p depth s (.error (.trap .stackOverflow))) :
    Simulates p depth fuel s r Q :=
  ⟨0, s, .refl s, .inl h⟩

theorem trap {cause : Cause} (h : Ends p depth s (.error (.trap cause))) :
    Simulates p depth fuel s (.error (.trap cause) env) Q :=
  ⟨0, s, .refl s, .inr h⟩

theorem after {k : Nat} (hs : Reduces p depth s k t) (h : Simulates p depth fuel t r Q) :
    Simulates p depth (fuel + k) s r Q := by
  obtain ⟨j, u, hr, h⟩ := h
  refine ⟨j + k, u, hs.trans hr, h.imp id fun ha => ?_⟩
  rcases r with _ | ⟨_ | _ | _, _⟩
  · exact ha
  · exact ha
  · exact ha
  · exact Nat.add_le_add_right ha k

theorem weaken {fuel' : Nat} (h : Simulates p depth fuel s r Q) (hf : fuel' ≤ fuel) :
    Simulates p depth fuel' s r Q := by
  obtain ⟨k, t, hr, h⟩ := h
  refine ⟨k, t, hr, h.imp id fun ha => ?_⟩
  rcases r with _ | ⟨_ | _ | _, _⟩
  · exact ha
  · exact ha
  · exact ha
  · exact Nat.le_trans hf ha

theorem step (hs : depth ≤ s.callers.size) (ht : Machine.step p s = .ok none t)
    (h : Simulates p depth fuel t r Q) : Simulates p depth fuel s r Q :=
  (h.after (.step hs ht)).weaken (Nat.le_succ _)

theorem extend (h : Simulates p depth fuel s r Q)
    (hQ : ∀ a env t, Q a env t → Simulates p depth fuel t (.ok a env) Q') :
    Simulates p depth fuel s r Q' := by
  obtain ⟨k, t, hr, h | ha⟩ := h
  · exact ⟨k, t, hr, .inl h⟩
  · rcases r with ⟨a, env⟩ | ⟨_ | _ | _, _⟩
    · exact ((hQ a env t ha).after hr).weaken (Nat.le_add_right _ _)
    · exact ⟨k, t, hr, .inr ha⟩
    · exact ⟨k, t, hr, .inr ha⟩
    · exact ⟨k, t, hr, .inr ha⟩

theorem bind {m : Eval α} {f : α → Eval β} {R : β → Env → State → Prop}
    (h : Simulates p depth fuel s (m env) Q)
    (hf : ∀ a env' t, Q a env' t → Simulates p depth fuel t (f a env') R) :
    Simulates p depth fuel s ((m >>= f) env) R := by
  obtain ⟨k, t, hr, h⟩ := h
  change Simulates p depth fuel s (EStateM.bind m f env) R
  unfold EStateM.bind
  rcases h with h | h
  · exact ⟨k, t, hr, .inl h⟩
  · cases hm : m env with
    | ok a env' =>
      rw [hm] at h
      exact ((hf a env' t h).after hr).weaken (Nat.le_add_right _ _)
    | error halt env' =>
      rw [hm] at h
      rcases halt with _ | _ | _ <;> exact ⟨k, t, hr, .inr h⟩

end Simulates

end Simulates

/-! ## The running function -/

def State.moved (s : State) (next : Nat) (stack : Array Value) (locals : Array Slot)
    (current : Nat) : State :=
  { s with stack, current, frame := { s.frame with next, locals } }

def withSlot (locals : Array Slot) (i : Nat) (v : Value) : Array Slot :=
  (Frame.grow locals (i + 1)).setIfInBounds i (.value v)

theorem getElem?_withSlot_self (locals : Array Slot) (i : Nat) (v : Value) :
    (withSlot locals i v)[i]? = some (.value v) := by
  have hlt : i < (Frame.grow locals (i + 1)).size := by
    rw [Frame.grow, Array.size_append, Array.size_replicate]
    omega
  rw [withSlot, Array.getElem?_setIfInBounds_self_of_lt hlt]

theorem getElem?_withSlot_ne {locals : Array Slot} {i j : Nat} {v : Value} {x : Slot}
    (hij : i ≠ j) (h : locals[j]? = some x) : (withSlot locals i v)[j]? = some x := by
  have hlt := (Array.getElem?_eq_some_iff.mp h).1
  rw [withSlot, Array.getElem?_setIfInBounds_ne hij, Frame.grow, Array.getElem?_append_left hlt, h]

/-- The variables in scope are in the slots of their names, each in its own. -/
inductive Matches (locals : Array Slot) : List Lowering.Local → Env → Prop where
  | nil : Matches locals [] []
  | cons {l : Lowering.Local} {v : Value} {scope : List Lowering.Local} {env : Env}
      (hv : locals[l.slot.toNat]? = some (.value v)) (hs : l.slot ∉ scope.map (·.slot))
      (h : Matches locals scope env) : Matches locals (l :: scope) ((l.name, v) :: env)

namespace Matches

variable {locals : Array Slot} {scope : List Lowering.Local} {env : Env} {name : String}
  {slot : UInt8}

theorem length (h : Matches locals scope env) : env.length = scope.length := by
  induction h with
  | nil => rfl
  | cons _ _ _ ih => rw [List.length_cons, List.length_cons, ih]

theorem other (h : Matches locals scope env) (hs : slot ∉ scope.map (·.slot)) (v : Value) :
    Matches (withSlot locals slot.toNat v) scope env := by
  induction h with
  | nil => exact .nil
  | cons hv hl _ ih =>
    rw [List.map_cons, List.mem_cons, not_or] at hs
    exact .cons (getElem?_withSlot_ne (fun he => hs.1 (UInt8.toNat_inj.mp he)) hv) hl (ih hs.2)

theorem bind (h : Matches locals scope env) (hs : slot ∉ scope.map (·.slot)) (name : String)
    (v : Value) :
    Matches (withSlot locals slot.toNat v) (⟨name, slot⟩ :: scope) ((name, v) :: env) :=
  .cons (getElem?_withSlot_self _ _ _) hs (h.other hs v)

theorem lookup (h : Matches locals scope env) (hs : Lowering.slotIn scope name = some slot) :
    ∃ v, env.lookup name = some v ∧ locals[slot.toNat]? = some (.value v) := by
  induction h with
  | nil => cases hs
  | @cons l v scope env hv _ _ ih =>
    rw [Lowering.slotIn_cons] at hs
    rw [List.lookup_cons]
    by_cases hn : l.name = name
    · rw [if_pos hn] at hs
      cases hs
      exact ⟨v, by simp [hn], hv⟩
    · rw [if_neg hn] at hs
      rw [beq_eq_false_iff_ne.mpr (Ne.symm hn)]
      exact ih hs

theorem mem_of_slotIn (hs : Lowering.slotIn scope name = some slot) :
    slot ∈ scope.map (·.slot) := by
  obtain ⟨l, hl, rfl⟩ := Option.map_eq_some_iff.mp hs
  exact List.mem_map_of_mem (List.mem_of_find?_eq_some hl)

/-- The innermost variable of a name changes where its slot does. -/
theorem assign (h : Matches locals scope env) (hs : Lowering.slotIn scope name = some slot)
    (v : Value) : Matches (withSlot locals slot.toNat v) scope (Env.assign name v env) := by
  induction h with
  | nil => cases hs
  | @cons l w scope env hv hl h ih =>
    rw [Lowering.slotIn_cons] at hs
    rw [Env.assign]
    by_cases hn : l.name = name
    · rw [if_pos hn] at hs
      cases hs
      rw [if_pos (beq_iff_eq.mpr hn)]
      exact .cons (getElem?_withSlot_self _ _ _) hl (h.other hl v)
    · rw [if_neg hn] at hs
      rw [if_neg (mt beq_iff_eq.mp hn)]
      have hne : slot.toNat ≠ l.slot.toNat := fun he =>
        hl (UInt8.toNat_inj.mp he ▸ mem_of_slotIn hs)
      exact .cons (getElem?_withSlot_ne hne hv) hl (ih hs)

theorem drop {inner : List Lowering.Local} (h : Matches locals inner env)
    (hs : scope <:+ inner) : Matches locals scope (env.drop (env.length - scope.length)) := by
  obtain ⟨added, rfl⟩ := hs
  rw [h.length, List.length_append, Nat.add_sub_cancel]
  induction added generalizing env with
  | nil => exact h
  | cons l added ih =>
    cases h with
    | cons _ _ h => exact ih h

end Matches

def Arrived (s : State) (next : Nat) (stack : Array Value) (scope : List Lowering.Local)
    (env : Env) (t : State) : Prop :=
  ∃ locals current, t = s.moved next stack locals current ∧ Matches locals scope env

/-! ## Single instructions -/

section Instructions

variable {α : Type} {σ : State} {a fuel current : Nat} {i : Instruction} {stack : Array Value}
  {locals : Array Slot} {r : EStateM.Result Halt Env α} {Q : α → Env → State → Prop}

theorem step_moved (hi : Instruction.decode? σ.frame.chunk.code a = some i)
    (hret : i.opcode ≠ .ret) :
    step p (σ.moved a stack locals current) =
      (do execute p i; return none : Exec (Option Value))
        (σ.moved (a + i.size) stack locals a) := by
  rw [step_of_decode? (s := σ.moved a stack locals current) hi, if_neg hret]
  rfl

variable {b n : Nat} {v : Value}

section Step

variable (hd : depth ≤ σ.callers.size)
  (hi : Instruction.decode? σ.frame.chunk.code a = some i) (hret : i.opcode ≠ .ret)

include hd hi hret

theorem Simulates.moves {t : State}
    (h : execute p i (σ.moved (a + i.size) stack locals a) = .ok () t)
    (hr : Simulates p depth fuel t r Q) :
    Simulates p depth (fuel + 1) (σ.moved a stack locals current) r Q := by
  refine hr.after (.step hd ?_)
  rw [step_moved hi hret, bind_of_ok h]
  rfl

theorem ends_of_execute {t : State} {cause : Cause}
    (h : execute p i (σ.moved (a + i.size) stack locals a) = .error (.trap cause) t) :
    Ends p depth (σ.moved a stack locals current) (.error (.trap cause)) := by
  refine .trap (t := t) hd ?_
  rw [step_moved hi hret, bind_of_error h]

theorem Simulates.pushes {stack' : Array Value}
    (h : execute p i (σ.moved (a + i.size) stack locals a) = push p v (σ.moved b stack' locals a))
    (hr : Simulates p depth fuel (σ.moved b (stack'.push v) locals a) r Q) :
    Simulates p depth fuel (σ.moved a stack locals current) r Q := by
  by_cases hlt : stack'.size < p.limits.maxStack
  · refine (Simulates.moves hd hi hret ?_ hr).weaken (Nat.le_succ _)
    rw [h]
    exact if_pos hlt
  · refine .overflow (ends_of_execute (t := σ.moved b stack' locals a) hd hi hret ?_)
    rw [h]
    exact if_neg hlt

theorem Simulates.computes {stack' : Array Value} {e : Except Cause Value} {env : Env}
    {Q : Value → Env → State → Prop}
    (h : execute p i (σ.moved (a + i.size) stack locals a) =
      (do push p (← Exec.ofExcept e) : Exec Unit) (σ.moved b stack' locals a))
    (hQ : ∀ v, Q v env (σ.moved b (stack'.push v) locals a)) :
    Simulates p depth fuel (σ.moved a stack locals current) (ofExcept e env) Q := by
  cases e with
  | ok v => exact .pushes hd hi hret h (.done (hQ v))
  | error cause =>
    exact .trap (ends_of_execute (t := σ.moved b stack' locals a) hd hi hret h)

end Step

theorem pop_moved (v : Value) :
    pop (σ.moved a (stack.push v) locals current) = .ok v (σ.moved a stack locals current) := by
  simp [pop, State.moved]

theorem peek_moved (v : Value) :
    peek (σ.moved a (stack.push v) locals current) =
      .ok v (σ.moved a (stack.push v) locals current) := by
  simp [peek, State.moved]

theorem jump_moved {d : Int16} (h : a + d.toInt = b) :
    jump d (σ.moved a stack locals current) = .ok () (σ.moved b stack locals current) := by
  have hrun : jump d (σ.moved a stack locals current) =
      (if 0 ≤ a + d.toInt then modifyFrame ({ · with next := (a + d.toInt).toNat })
        else Exec.trap (.internal ("jump by " ++ toString d.toInt ++ " leaves the chunk")) :
        Exec Unit) (σ.moved a stack locals current) := rfl
  rw [hrun, h, if_pos (Int.natCast_nonneg b), Int.toNat_natCast]
  rfl

theorem ofOption_of_eq_some {α : Type} {found : Option α} {x : α} (h : found = some x)
    {cause : Cause} {s : State} : Exec.ofOption found cause s = .ok x s := by
  rw [h]
  rfl

theorem constantAt_moved {n : UInt16} (h : σ.frame.chunk.constant? n = some v) :
    constantAt n (σ.moved a stack locals current) = .ok v (σ.moved a stack locals current) :=
  ofOption_of_eq_some h

theorem slot_moved (h : locals[n]? = some (.value v)) :
    (σ.moved a stack locals current).frame.slot n = .value v := by
  change locals[n]?.getD .empty = .value v
  rw [h]
  rfl

theorem getLocal_moved (h : locals[n]? = some (.value v)) :
    getLocal n (σ.moved a stack locals current) = .ok v (σ.moved a stack locals current) := by
  rw [getLocal, bind_of_ok (get_eq_ok _), slot_moved h]
  rfl

theorem setLocal_moved {w : Value} (h : locals[n]? = some (.value w)) :
    setLocal n v (σ.moved a stack locals current) =
      .ok () (σ.moved a stack (withSlot locals n v) current) := by
  rw [setLocal, bind_of_ok (get_eq_ok _), slot_moved h]
  rfl

theorem arithmetic_moved (op : Arithmetic.Operation) (x y : Value) :
    arithmetic p op (σ.moved a ((stack.push x).push y) locals current) =
      (do push p (← Exec.ofExcept (Arithmetic.binary op x y)) : Exec Unit)
        (σ.moved a stack locals current) := by
  rw [arithmetic, bind_of_ok (pop_moved y), bind_of_ok (pop_moved x)]

/-- A conditional jump takes a value and leads on or over what follows. -/
theorem jumpIfFalse_moved (hn : n ≤ Chunk.maxDistance) :
    execute p ⟨.jumpIfFalse, Code.forward n⟩ (σ.moved (a + 3) (stack.push v) locals current) =
      .ok () (σ.moved (if v.isTruthy then a + 3 else a + 3 + n) stack locals current) := by
  have hrun : execute p ⟨.jumpIfFalse, Code.forward n⟩ =
    (do if !(← pop).isTruthy then jump (Code.forward n) : Exec Unit) := rfl
  rw [hrun, bind_of_ok (pop_moved v)]
  cases v.isTruthy with
  | true => rfl
  | false =>
    refine jump_moved ?_
    rw [Code.forward_toInt hn]
    rfl

theorem Simulates.branch (hd : depth ≤ σ.callers.size)
    (hi : Instruction.decode? σ.frame.chunk.code a = some ⟨.jumpIfFalse, Code.forward n⟩)
    (hn : n ≤ Chunk.maxDistance)
    (hr : Simulates p depth fuel
      (σ.moved (if v.isTruthy then a + 3 else a + 3 + n) stack locals a) r Q) :
    Simulates p depth (fuel + 1) (σ.moved a (stack.push v) locals current) r Q :=
  .moves hd hi (by simp) (jumpIfFalse_moved hn) hr

theorem Simulates.jumps (hd : depth ≤ σ.callers.size)
    (hi : Instruction.decode? σ.frame.chunk.code a = some ⟨.jump, Code.forward n⟩)
    (hn : n ≤ Chunk.maxDistance)
    (hr : Simulates p depth fuel (σ.moved (a + 3 + n) stack locals a) r Q) :
    Simulates p depth fuel (σ.moved a stack locals current) r Q := by
  refine (Simulates.moves hd hi (by simp) (jump_moved ?_) hr).weaken (Nat.le_succ _)
  rw [Code.forward_toInt hn]
  rfl

theorem Simulates.jumpsBack (hd : depth ≤ σ.callers.size)
    (hi : Instruction.decode? σ.frame.chunk.code a = some ⟨.loop, Code.backward (a + 3 - b)⟩)
    (hb : b ≤ a) (hn : a + 3 - b ≤ Chunk.maxDistance)
    (hr : Simulates p depth fuel (σ.moved b stack locals a) r Q) :
    Simulates p depth fuel (σ.moved a stack locals current) r Q := by
  refine (Simulates.moves hd hi (by simp) (jump_moved ?_) hr).weaken (Nat.le_succ _)
  have hsize : (⟨.loop, Code.backward (a + 3 - b)⟩ : Instruction).size = 3 := rfl
  rw [Code.backward_toInt hn, hsize]
  omega

end Instructions

/-! ## Expressions -/

/-- The code stands in the chunk that runs, from an offset on, and its jumps out of the innermost
loop lead over it. -/
structure Installed (σ : State) (inLoop : Bool) (t : Code.Targets) (a : Nat) (code : Code) :
    Prop where
  placed : ∀ o i, (o, i) ∈ code.placed [] t a →
    Instruction.decode? σ.frame.chunk.code o = some i
  fits : code.Fits inLoop false t a
  around : inLoop = true → t.start ≤ a ∧ a + code.width ≤ t.stop

namespace Installed

variable {σ : State} {inLoop : Bool} {t : Code.Targets} {a : Nat} {first rest : Code}
  {loc : Location}

theorem left (h : Installed σ inLoop t a (first ++ rest)) : Installed σ inLoop t a first where
  placed o i hi := h.placed o i (List.mem_append_left _ hi)
  fits := h.fits.1
  around hl := by
    obtain ⟨hstart, hstop⟩ := h.around hl
    change a + (first.width + rest.width) ≤ t.stop at hstop
    omega

theorem right (h : Installed σ inLoop t a (first ++ rest)) :
    Installed σ inLoop t (a + first.width) rest where
  placed o i hi := h.placed o i (List.mem_append_right _ hi)
  fits := h.fits.2
  around hl := by
    obtain ⟨hstart, hstop⟩ := h.around hl
    change a + (first.width + rest.width) ≤ t.stop at hstop
    omega

theorem instr {line : UInt32} {i : Instruction} (h : Installed σ inLoop t a (.instr line i)) :
    Instruction.decode? σ.frame.chunk.code a = some i :=
  h.placed a i (List.mem_singleton_self _)

theorem yes (h : Installed σ inLoop t a (.ite loc first rest)) :
    Installed σ inLoop t (a + 3) first where
  placed o i hi := h.placed o i
    (List.mem_cons_of_mem _ (List.mem_append_left _ hi))
  fits := h.fits.2.2.1
  around hl := by
    obtain ⟨hstart, hstop⟩ := h.around hl
    change a + (3 + first.width + 3 + rest.width) ≤ t.stop at hstop
    omega

theorem no (h : Installed σ inLoop t a (.ite loc first rest)) :
    Installed σ inLoop t (a + 3 + first.width + 3) rest where
  placed o i hi := h.placed o i
    (List.mem_cons_of_mem _ (List.mem_append_right _ (List.mem_cons_of_mem _ hi)))
  fits := h.fits.2.2.2
  around hl := by
    obtain ⟨hstart, hstop⟩ := h.around hl
    change a + (3 + first.width + 3 + rest.width) ≤ t.stop at hstop
    omega

theorem body (h : Installed σ inLoop t a (.when loc rest)) :
    Installed σ inLoop t (a + 3) rest where
  placed o i hi := h.placed o i (List.mem_cons_of_mem _ hi)
  fits := h.fits.2
  around hl := by
    obtain ⟨hstart, hstop⟩ := h.around hl
    change a + (3 + rest.width) ≤ t.stop at hstop
    omega

theorem cond (h : Installed σ inLoop t a (.loop loc first rest)) :
    Installed σ false t a first where
  placed o i hi := h.placed o i (List.mem_append_left _ (List.mem_append_left _ hi))
  fits := h.fits.2.2.1
  around hl := by cases hl

theorem round (h : Installed σ inLoop t a (.loop loc first rest)) :
    Installed σ true
      { t with start := a, stop := a + first.width + 3 + rest.width + 3 }
      (a + first.width + 3) rest where
  placed o i hi := h.placed o i
    (List.mem_append_left _ (List.mem_append_right _ (List.mem_cons_of_mem _ hi)))
  fits := h.fits.2.2.2
  around _ := by simp only; omega

end Installed

section Expressions

variable {σ : State} {inLoop : Bool} {t : Code.Targets} {a fuel current : Nat}
  {scope : List Lowering.Local} {code code' : Code} {loc : Location} {stack : Array Value}
  {locals : Array Slot} {env : Env} {e e' : Expr}

theorem variableOf_eq_ok {name : String} {v : Value} (h : env.lookup name = some v) :
    variableOf name env = .ok v env := by
  rw [variableOf, bind_of_ok (get_eq_ok _), h]
  rfl

/-- Wherever the code of an expression stands, the machine comes to its value. -/
structure Evaluates (p : Program) (depth : Nat) (σ : State) (scope : List Lowering.Local)
    (e : Expr) (code : Code) : Prop where
  simulates : ∀ {inLoop t a fuel stack locals current env}, Installed σ inLoop t a code →
    Matches locals scope env →
    Simulates p depth fuel (σ.moved a stack locals current) (e.eval env)
      fun v env => Arrived σ (a + code.width) (stack.push v) scope env

theorem Simulates.ite {α : Type} {r : EStateM.Result Halt Env α} {Q : α → Env → State → Prop}
    {v : Value} {yes no : Code} (hd : depth ≤ σ.callers.size)
    (hc : Installed σ inLoop t a (.ite loc yes no))
    (hy : v.isTruthy = true → Simulates p depth fuel (σ.moved (a + 3) stack locals a) r Q)
    (hn : v.isTruthy = false →
      Simulates p depth fuel (σ.moved (a + 3 + yes.width + 3) stack locals a) r Q) :
    Simulates p depth fuel (σ.moved a (stack.push v) locals current) r Q := by
  refine (Simulates.branch hd (hc.placed a _ List.mem_cons_self) hc.fits.1 ?_).weaken
    (Nat.le_succ _)
  cases hv : v.isTruthy with
  | true => exact hy hv
  | false => exact hn hv

theorem Arrived.cast {s : State} {b c : Nat} (h : Arrived σ b stack scope env s) (hbc : b = c) :
    Arrived σ c stack scope env s := hbc ▸ h

theorem offset_ite {yes no : Code} :
    a + 3 + yes.width + 3 + no.width = a + (Code.ite loc yes no).width := by
  simp only [Code.width]
  omega

/-- Behind the first of two parts, the machine jumps over the second one. -/
theorem Simulates.over {α : Type} {x : α} {s : State} {Q : α → Env → State → Prop}
    {yes no : Code} (hd : depth ≤ σ.callers.size)
    (hc : Installed σ inLoop t a (.ite loc yes no))
    (h : Arrived σ (a + 3 + yes.width) stack scope env s)
    (hQ : ∀ s, Arrived σ (a + (Code.ite loc yes no).width) stack scope env s → Q x env s) :
    Simulates p depth fuel s (.ok x env) Q := by
  obtain ⟨locals, current, rfl, hm⟩ := h
  have hi : Instruction.decode? σ.frame.chunk.code (a + 3 + yes.width) =
      some ⟨.jump, Code.forward no.width⟩ :=
    hc.placed _ _ (List.mem_cons_of_mem _ (List.mem_append_right _ List.mem_cons_self))
  exact .jumps hd hi hc.fits.2.1 (.done (hQ _ (Arrived.cast ⟨_, _, rfl, hm⟩ offset_ite)))

/-- An operation on two operands, of which the left one does not decide. -/
theorem evaluates_strict {op : BinaryOp} {i : Instruction} {ty : Ty}
    (hd : depth ≤ σ.callers.size) (h : Evaluates p depth σ scope e code)
    (h' : Evaluates p depth σ scope e' code') (hop : ∀ x, op.decided? x = none)
    (hret : i.opcode ≠ .ret)
    (hi : ∀ a stack locals current x y,
      execute p i (σ.moved a ((stack.push x).push y) locals current) =
        (do push p (← Exec.ofExcept (op.apply x y)) : Exec Unit)
          (σ.moved a stack locals current)) :
    Evaluates p depth σ scope ⟨.binary e op e', ty, loc⟩ (code ++ code' ++ .instr loc.line i) := by
  refine ⟨fun {inLoop t a fuel stack locals current env} hc hm => ?_⟩
  refine (h.simulates hc.left.left hm).bind fun x env₁ t₁ h₁ => ?_
  obtain ⟨locals₁, current₁, rfl, hm₁⟩ := h₁
  rw [hop]
  refine (h'.simulates hc.left.right hm₁).bind fun y env₂ t₂ h₂ => ?_
  obtain ⟨locals₂, current₂, rfl, hm₂⟩ := h₂
  have hplace := hc.right.instr
  have hwidth : a + (code ++ code' ++ .instr loc.line i).width =
      a + (code ++ code').width + i.size := (Nat.add_assoc _ _ _).symm
  rw [hwidth]
  rw [show a + (code ++ code').width = a + code.width + code'.width from
    (Nat.add_assoc _ _ _).symm] at hplace ⊢
  exact .computes hd hplace hret (hi _ _ _ _ x y) fun v => ⟨_, _, rfl, hm₂⟩

theorem evaluates_of_code (hd : depth ≤ σ.callers.size)
    (h : Lowering.ExprCode σ.frame.chunk scope e code) : Evaluates p depth σ scope e code := by
  induction h with
  | constant hv =>
    refine ⟨fun {inLoop t a fuel stack locals current env} hc hm => ?_⟩
    refine .pushes hd hc.instr (by simp) ?_ (.done ⟨_, _, rfl, hm⟩)
    exact bind_of_ok (constantAt_moved hv)
  | pushTrue | pushFalse | pushNone =>
    refine ⟨fun {inLoop t a fuel stack locals current env} hc hm => ?_⟩
    exact .pushes hd hc.instr (by simp) rfl (.done ⟨_, _, rfl, hm⟩)
  | @load name ty loc slot hs =>
    refine ⟨fun {inLoop t a fuel stack locals current env} hc hm => ?_⟩
    obtain ⟨v, hv, hslot⟩ := hm.lookup hs
    have heval : Expr.eval ⟨.var name, ty, loc⟩ env = .ok v env := variableOf_eq_ok hv
    rw [heval]
    exact .pushes hd hc.right.instr (by simp) (bind_of_ok (getLocal_moved hslot))
      (.done ⟨_, _, rfl, hm⟩)
  | @unary op e ty loc code h ih =>
    refine ⟨fun {inLoop t a fuel stack locals current env} hc hm => ?_⟩
    cases op with
    | neg | not =>
      refine (ih.simulates hc.left hm).bind fun v env₁ t₁ h₁ => ?_
      obtain ⟨locals₁, current₁, rfl, hm₁⟩ := h₁
      refine .computes hd hc.right.instr (by simp) (bind_of_ok (pop_moved v)) fun w => ?_
      exact ⟨_, _, rfl, hm₁⟩
  | @binary left right op ty loc code code' h h' ih ih' =>
    cases op
    case and =>
      refine ⟨fun {inLoop t a fuel stack locals current env} hc hm => ?_⟩
      refine (ih.simulates hc.left hm).bind fun x env₁ t₁ h₁ => ?_
      obtain ⟨locals₁, current₁, rfl, hm₁⟩ := h₁
      have hjump := hc.right
      refine .ite hd hjump (fun hx => ?_) fun hx => ?_
      · rw [BinaryOp.decided?, if_pos hx]
        refine (ih'.simulates hjump.yes hm₁).bind fun y env₂ t₂ h₂ => ?_
        exact .over hd hjump h₂ fun s h => h.cast (Nat.add_assoc _ _ _)
      · rw [BinaryOp.decided?, if_neg (by simp [hx])]
        have hend : a + code.width + 3 + code'.width + 3 +
            (Code.instr loc.line ⟨.pushFalse, ()⟩).width =
            a + (code ++ .ite loc code' (.instr loc.line ⟨.pushFalse, ()⟩)).width :=
          offset_ite.trans (Nat.add_assoc _ _ _)
        exact .pushes hd hjump.no.instr (by simp) rfl (.done (Arrived.cast ⟨_, _, rfl, hm₁⟩ hend))
    case or =>
      refine ⟨fun {inLoop t a fuel stack locals current env} hc hm => ?_⟩
      refine (ih.simulates hc.left hm).bind fun x env₁ t₁ h₁ => ?_
      obtain ⟨locals₁, current₁, rfl, hm₁⟩ := h₁
      have hjump := hc.right
      refine .ite hd hjump (fun hx => ?_) fun hx => ?_
      · rw [BinaryOp.decided?, if_pos hx]
        refine .pushes hd hjump.yes.instr (by simp) rfl ?_
        exact .over hd hjump ⟨_, _, rfl, hm₁⟩ fun s h => h.cast (Nat.add_assoc _ _ _)
      · rw [BinaryOp.decided?, if_neg (by simp [hx])]
        refine (ih'.simulates hjump.no hm₁).bind fun y env₂ t₂ h₂ => ?_
        exact .done (h₂.cast (offset_ite.trans (Nat.add_assoc _ _ _)))
    case eq | ne =>
      refine evaluates_strict hd ih ih' (fun _ => rfl) (by simp) fun _ _ _ _ x y => ?_
      exact (bind_of_ok (pop_moved y)).trans (bind_of_ok (pop_moved x))
    all_goals
      exact evaluates_strict hd ih ih' (fun _ => rfl) (by simp) fun _ _ _ _ => arithmetic_moved _
  | @assign name value ty ty' loc loc' slot code h hs ih =>
    refine ⟨fun {inLoop t a fuel stack locals current env} hc hm => ?_⟩
    refine (ih.simulates hc.left hm).bind fun v env₁ t₁ h₁ => ?_
    obtain ⟨locals₁, current₁, rfl, hm₁⟩ := h₁
    obtain ⟨w, -, hslot⟩ := hm₁.lookup hs
    have hset : execute p ⟨.setLocal, slot⟩
        (σ.moved (a + code.width + 2) (stack.push v) locals₁ (a + code.width)) =
        .ok () (σ.moved (a + code.width + 2) (stack.push v) (withSlot locals₁ slot.toNat v)
          (a + code.width)) :=
      (bind_of_ok (peek_moved v)).trans (setLocal_moved hslot)
    refine (Simulates.moves hd hc.right.right.instr (by simp) hset ?_).weaken (Nat.le_succ _)
    exact .done ⟨_, _, rfl, hm₁.assign hs v⟩
  | ite h hy hn ih ihy ihn =>
    refine ⟨fun {inLoop t a fuel stack locals current env} hc hm => ?_⟩
    refine (ih.simulates hc.left hm).bind fun x env₁ t₁ h₁ => ?_
    obtain ⟨locals₁, current₁, rfl, hm₁⟩ := h₁
    have hjump := hc.right
    refine .ite hd hjump (fun hx => ?_) fun hx => ?_
    · rw [if_pos hx]
      refine (ihy.simulates hjump.yes hm₁).extend fun y env₂ t₂ h₂ => ?_
      exact .over hd hjump h₂ fun s h => h.cast (Nat.add_assoc _ _ _)
    · rw [if_neg (by simp [hx])]
      refine (ihn.simulates hjump.no hm₁).extend fun y env₂ t₂ h₂ => ?_
      exact .done (h₂.cast (offset_ite.trans (Nat.add_assoc _ _ _)))

end Expressions

end StackCode.Machine
