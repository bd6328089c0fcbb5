import StackCode.Proofs.Simulation

/-! # Compiled core functions compute what evaluation gives

A statement that ends has brought the machine to the code behind it, to an end of the innermost
loop, or out of the function. A loop that evaluation does not finish keeps the machine busy for at
least as many steps as it has rounds, so a call that gives a result is one that evaluation finishes.
-/

namespace StackCode.Machine

open Evaluation

open Lowering (Local ExprCode ValueCode StmtCode StmtsCode)

variable {p : Program} {depth fuel : Nat} {σ : State}

/-! ## Statements -/

section Statements

variable {inLoop : Bool} {t : Code.Targets} {a current : Nat} {stack : Array Value}
  {locals : Array Slot} {env : Env} {scope scope' inner : List Local} {code code' : Code}
  {loc : Location}

/-- What the machine has come to when a part ends with a signal. The names in scope are the given
ones if the next statement follows, and ones of a kind if not. -/
def Stopped (p : Program) (depth : Nat) (σ : State) (inLoop : Bool) (t : Code.Targets) (b : Nat)
    (stack : Array Value) (kind : List Local → Prop) (scope : List Local) :
    Signal → Env → State → Prop
  | .next, env, s => Arrived σ b stack scope env s
  | .leave, env, s => inLoop = true ∧ ∃ inner, kind inner ∧ Arrived σ t.stop stack inner env s
  | .again, env, s => inLoop = true ∧ ∃ inner, kind inner ∧ Arrived σ t.start stack inner env s
  | .ret v, _, s => Ends p depth s (.ok v)

/-- Wherever code stands, the machine comes to where evaluation ends. -/
structure Performs (p : Program) (depth fuel : Nat) (σ : State) (inLoop : Bool)
    (scope : List Local) (part : Eval Signal) (code : Code) (kind : List Local → Prop)
    (scope' : List Local) : Prop where
  simulates : ∀ {t a stack locals current env}, Installed σ inLoop t a code →
    Matches locals scope env →
    Simulates p depth fuel (σ.moved a stack locals current) (part env)
      (Stopped p depth σ inLoop t (a + code.width) stack kind scope')

theorem Simulates.lands {s : State} {r : EStateM.Result Halt Env Signal} {b c : Nat}
    {kind : List Local → Prop}
    (h : Simulates p depth fuel s r (Stopped p depth σ inLoop t b stack kind scope))
    (hbc : b = c) :
    Simulates p depth fuel s r (Stopped p depth σ inLoop t c stack kind scope) := hbc ▸ h

theorem Arrived.drop {s : State} {b : Nat} (h : Arrived σ b stack inner env s)
    (hs : scope <:+ inner) :
    Arrived σ b stack scope (env.drop (env.length - scope.length)) s := by
  obtain ⟨locals, current, rfl, hm⟩ := h
  exact ⟨locals, current, rfl, hm.drop hs⟩

/-- The variables of a block are forgotten however it ends. -/
theorem Performs.block {part : Eval Signal}
    (h : scope <:+ inner ∧ Performs p depth fuel σ inLoop scope part code (scope <:+ ·) inner) :
    Performs p depth fuel σ inLoop scope (inBlock part) code (· = scope) scope := by
  refine ⟨fun {t a stack locals current env} hc hm => ?_⟩
  have hrun : inBlock part env = (part >>= fun signal => do
      modify fun env' => env'.drop (env'.length - env.length)
      return signal : Eval Signal) env := rfl
  rw [hrun, hm.length]
  refine (h.2.simulates hc hm).bind fun signal env' s hsignal => .done ?_
  cases signal with
  | next => exact Arrived.drop hsignal h.1
  | leave | again =>
    obtain ⟨hl, inner', hs', h⟩ := hsignal
    exact ⟨hl, scope, rfl, h.drop hs'⟩
  | ret v => exact hsignal

theorem Performs.nil :
    Performs p depth fuel σ inLoop scope (Stmt.execAll fuel []) .skip (scope <:+ ·) scope :=
  ⟨fun _ hm => .done ⟨_, _, rfl, hm⟩⟩

theorem Performs.cons {x : Stmt} {xs : List Stmt}
    (h : Performs p depth fuel σ inLoop scope (Stmt.exec fuel x) code (· = scope) scope')
    (h' : Performs p depth fuel σ inLoop scope' (Stmt.execAll fuel xs) code' (scope' <:+ ·) inner)
    (hs : scope <:+ scope') :
    Performs p depth fuel σ inLoop scope (Stmt.execAll fuel (x :: xs)) (code ++ code')
      (scope <:+ ·) inner := by
  refine ⟨fun {t a stack locals current env} hc hm => ?_⟩
  rw [Stmt.execAll]
  refine (h.simulates hc.left hm).bind fun signal env₁ s₁ h₁ => ?_
  cases signal with
  | next =>
    obtain ⟨locals₁, current₁, rfl, hm₁⟩ := h₁
    refine (h'.simulates hc.right hm₁).extend fun signal env₂ s₂ h₂ => .done ?_
    cases signal with
    | next => exact Arrived.cast h₂ (Nat.add_assoc _ _ _)
    | leave | again =>
      obtain ⟨hl, inner', hs', h₂⟩ := h₂
      exact ⟨hl, inner', hs.trans hs', h₂⟩
    | ret v => exact h₂
  | leave | again =>
    obtain ⟨hl, _, rfl, h₁⟩ := h₁
    exact .done ⟨hl, _, List.suffix_refl _, h₁⟩
  | ret v => exact .done h₁

variable {value : Option Expr} {cond : Expr} {body : List Stmt} {f : Frame}

theorem simulates_value {line : UInt32} (hd : depth ≤ σ.callers.size)
    (h : ValueCode σ.frame.chunk scope line value code) (hc : Installed σ inLoop t a code)
    (hm : Matches locals scope env) :
    Simulates p depth fuel (σ.moved a stack locals current) (Stmt.valueOf value env)
      fun v env => Arrived σ (a + code.width) (stack.push v) scope env := by
  cases h with
  | none => exact .pushes hd hc.instr (by simp) rfl (.done ⟨_, _, rfl, hm⟩)
  | some h => exact (evaluates_of_code hd h).simulates hc hm

theorem Performs.expr {e : Expr} (hd : depth ≤ σ.callers.size)
    (h : ExprCode σ.frame.chunk scope e code) :
    Performs p depth fuel σ inLoop scope (Stmt.exec fuel ⟨.expr e, loc⟩)
      (code ++ .instr loc.line ⟨.pop, ()⟩) (· = scope) scope := by
  refine ⟨fun {t a stack locals current env} hc hm => ?_⟩
  refine ((evaluates_of_code hd h).simulates hc.left hm).bind fun v env₁ s₁ h₁ => ?_
  obtain ⟨locals₁, current₁, rfl, hm₁⟩ := h₁
  refine (Simulates.moves hd hc.right.instr (by simp) (bind_of_ok (pop_moved v)) ?_).weaken
    (Nat.le_succ _)
  exact .done ⟨_, _, rfl, hm₁⟩

theorem Performs.bind {name : String} {mutable : Bool} {ty : Ty} {slot : UInt8}
    (hd : depth ≤ σ.callers.size) (h : ValueCode σ.frame.chunk scope loc.line value code)
    (hs : slot ∉ scope.map (·.slot)) :
    Performs p depth fuel σ inLoop scope (Stmt.exec fuel ⟨.bind name mutable ty value, loc⟩)
      (code ++ .bind loc.line slot) (· = scope) (⟨name, slot⟩ :: scope) := by
  refine ⟨fun {t a stack locals current env} hc hm => ?_⟩
  refine (simulates_value hd h hc.left hm).bind fun v env₁ s₁ h₁ => ?_
  obtain ⟨locals₁, current₁, rfl, hm₁⟩ := h₁
  have hi : Instruction.decode? σ.frame.chunk.code (a + code.width) = some ⟨.defineLocal, slot⟩ :=
    hc.right.placed _ _ (List.mem_singleton_self _)
  refine (Simulates.moves hd hi (by simp) (bind_of_ok (pop_moved v)) ?_).weaken (Nat.le_succ _)
  exact .done ⟨_, _, rfl, hm₁.bind hs name v⟩

theorem Performs.when (hd : depth ≤ σ.callers.size) (h : ExprCode σ.frame.chunk scope cond code)
    (hb : Performs p depth fuel σ inLoop scope (inBlock (Stmt.execAll fuel body)) code'
      (· = scope) scope) :
    Performs p depth fuel σ inLoop scope (Stmt.exec fuel ⟨.ite cond body none, loc⟩)
      (code ++ .when loc code') (· = scope) scope := by
  refine ⟨fun {t a stack locals current env} hc hm => ?_⟩
  refine ((evaluates_of_code hd h).simulates hc.left hm).bind fun v env₁ s₁ h₁ => ?_
  obtain ⟨locals₁, current₁, rfl, hm₁⟩ := h₁
  have hi : Instruction.decode? σ.frame.chunk.code (a + code.width) =
      some ⟨.jumpIfFalse, Code.forward code'.width⟩ := hc.right.placed _ _ List.mem_cons_self
  have hend : a + code.width + 3 + code'.width = a + (code ++ .when loc code').width := by
    change _ = a + (code.width + (3 + code'.width))
    omega
  refine (Simulates.branch hd hi hc.right.fits.1 ?_).weaken (Nat.le_succ _)
  cases v.isTruthy with
  | true => exact (hb.simulates hc.right.body hm₁).lands hend
  | false => exact .done (Arrived.cast ⟨_, _, rfl, hm₁⟩ hend)

theorem Performs.ite {elseBody : List Stmt} {yes no : Code} (hd : depth ≤ σ.callers.size)
    (h : ExprCode σ.frame.chunk scope cond code)
    (hy : Performs p depth fuel σ inLoop scope (inBlock (Stmt.execAll fuel body)) yes
      (· = scope) scope)
    (hn : Performs p depth fuel σ inLoop scope (inBlock (Stmt.execAll fuel elseBody)) no
      (· = scope) scope) :
    Performs p depth fuel σ inLoop scope (Stmt.exec fuel ⟨.ite cond body (some elseBody), loc⟩)
      (code ++ .ite loc yes no) (· = scope) scope := by
  refine ⟨fun {t a stack locals current env} hc hm => ?_⟩
  refine ((evaluates_of_code hd h).simulates hc.left hm).bind fun v env₁ s₁ h₁ => ?_
  obtain ⟨locals₁, current₁, rfl, hm₁⟩ := h₁
  refine .ite hd hc.right (fun hv => ?_) fun hv => ?_
  · rw [if_pos hv]
    refine (hy.simulates hc.right.yes hm₁).extend fun signal env₂ s₂ h₂ => ?_
    cases signal with
    | next => exact .over hd hc.right h₂ fun s hs => hs.cast (Nat.add_assoc _ _ _)
    | leave => exact .done h₂
    | again => exact .done h₂
    | ret v => exact .done h₂
  · rw [if_neg (by simp [hv])]
    exact (hn.simulates hc.right.no hm₁).lands (offset_ite.trans (Nat.add_assoc _ _ _))

/-- The rounds of a loop. Every round costs at least one step, so that a loop which does not finish
within so many rounds keeps the machine busy for so many steps. -/
theorem simulates_rounds {test : Expr} {body : Eval Signal} (hd : depth ≤ σ.callers.size)
    (h : ExprCode σ.frame.chunk scope test code)
    (hb : Performs p depth fuel σ true scope body code' (· = scope) scope)
    (hc : Installed σ inLoop t a (.loop loc code code')) (n : Nat) (hn : n ≤ fuel)
    (hm : Matches locals scope env) :
    Simulates p depth n (σ.moved a stack locals current) (rounds test.eval body n env)
      (Stopped p depth σ inLoop t (a + (Code.loop loc code code').width) stack (· = scope)
        scope) := by
  have hend : a + code.width + 3 + (code'.width + 3) = a + (Code.loop loc code code').width := by
    change _ = a + (code.width + 3 + code'.width + 3)
    omega
  induction n generalizing locals current env with
  | zero => exact ⟨0, _, .refl _, .inr (Nat.zero_le _)⟩
  | succ n ih =>
    have htest : Instruction.decode? σ.frame.chunk.code (a + code.width) =
        some ⟨.jumpIfFalse, Code.forward (code'.width + 3)⟩ :=
      hc.placed _ _ (List.mem_append_left _ (List.mem_append_right _ List.mem_cons_self))
    have hback : Instruction.decode? σ.frame.chunk.code (a + code.width + 3 + code'.width) =
        some ⟨.loop, Code.backward (a + code.width + 3 + code'.width + 3 - a)⟩ :=
      hc.placed _ _ (List.mem_append_right _ (List.mem_singleton_self _))
    rw [rounds]
    refine ((evaluates_of_code hd h).simulates hc.cond hm).bind fun v env₁ s₁ h₁ => ?_
    obtain ⟨locals₁, current₁, rfl, hm₁⟩ := h₁
    refine .branch hd htest hc.fits.1 ?_
    cases v.isTruthy with
    | false => exact .done (Arrived.cast ⟨_, _, rfl, hm₁⟩ hend)
    | true =>
      refine ((hb.simulates hc.round hm₁).weaken (Nat.le_of_succ_le hn)).bind
        fun signal env₂ s₂ h₂ => ?_
      cases signal with
      | next =>
        obtain ⟨locals₂, current₂, rfl, hm₂⟩ := h₂
        exact .jumpsBack hd hback (by omega) hc.fits.2.1 (ih (Nat.le_of_succ_le hn) hm₂)
      | again =>
        obtain ⟨-, _, rfl, locals₂, current₂, rfl, hm₂⟩ := h₂
        exact ih (Nat.le_of_succ_le hn) hm₂
      | leave =>
        obtain ⟨-, _, rfl, h₂⟩ := h₂
        exact .done (Arrived.cast h₂ hend)
      | ret v => exact .done h₂

theorem Performs.loop (hd : depth ≤ σ.callers.size) (h : ExprCode σ.frame.chunk scope cond code)
    (hb : Performs p depth fuel σ true scope (inBlock (Stmt.execAll fuel body)) code'
      (· = scope) scope) :
    Performs p depth fuel σ inLoop scope (Stmt.exec fuel ⟨.loop cond body, loc⟩)
      (.loop loc code code') (· = scope) scope := by
  refine ⟨fun {t a stack locals current env} hc hm => ?_⟩
  exact simulates_rounds hd h hb hc fuel (Nat.le_refl _) hm

theorem Performs.leave (hd : depth ≤ σ.callers.size) :
    Performs p depth fuel σ true scope (Stmt.exec fuel ⟨.break, loc⟩) (.leave loc.line)
      (· = scope) scope := by
  refine ⟨fun {t a stack locals current env} hc hm => ?_⟩
  have hi : Instruction.decode? σ.frame.chunk.code a =
      some ⟨.jump, Code.forward (t.stop - (a + 3))⟩ := hc.placed _ _ (List.mem_singleton_self _)
  have hstop : a + 3 + (t.stop - (a + 3)) = t.stop := Nat.add_sub_cancel' (hc.around rfl).2
  refine .jumps hd hi (hc.fits rfl) (.done ⟨rfl, _, rfl, ?_⟩)
  exact Arrived.cast ⟨_, _, rfl, hm⟩ hstop

theorem Performs.again (hd : depth ≤ σ.callers.size) :
    Performs p depth fuel σ true scope (Stmt.exec fuel ⟨.continue, loc⟩) (.again loc)
      (· = scope) scope := by
  refine ⟨fun {t a stack locals current env} hc hm => ?_⟩
  have hi : Instruction.decode? σ.frame.chunk.code a =
      some ⟨.loop, Code.backward (a + 3 - t.start)⟩ := hc.placed _ _ (List.mem_singleton_self _)
  exact .jumpsBack hd hi (hc.around rfl).1 hc.fits (.done ⟨rfl, _, rfl, _, _, rfl, hm⟩)

theorem step_return {v : Value} (hf : σ.callers.back? = some f)
    (hi : Instruction.decode? σ.frame.chunk.code a = some ⟨.ret, ()⟩) :
    step p (σ.moved a (stack.push v) locals current) =
      (do push p v; return none : Exec (Option Value))
        ((σ.moved (a + 1) stack locals a).back f) := by
  have hcallers : (σ.moved (a + 1) stack locals a).callers.back? = some f := hf
  have hleave : leave p v (σ.moved (a + 1) stack locals a) =
      (do push p v; return none : Exec (Option Value))
        ((σ.moved (a + 1) stack locals a).back f) := by
    rw [leave_run, hcallers]
  rw [step_of_decode? (s := σ.moved a (stack.push v) locals current) hi, if_pos rfl]
  exact (bind_of_ok (pop_moved v)).trans hleave

theorem simulates_return {v : Value} {signal : Signal} {Q : Signal → Env → State → Prop}
    (hd : σ.callers.size = depth) (hf : σ.callers.back? = some f)
    (hi : Instruction.decode? σ.frame.chunk.code a = some ⟨.ret, ()⟩)
    (hQ : ∀ s, Ends p depth s (.ok v) → Q signal env s) :
    Simulates p depth fuel (σ.moved a (stack.push v) locals current) (.ok signal env) Q := by
  have hstep : step p (σ.moved a (stack.push v) locals current) = _ := step_return hf hi
  generalize hu : (σ.moved (a + 1) stack locals a).back f = u at hstep
  have hcallers : u.callers.size < depth := by
    have hpop : u.callers = σ.callers.pop := by rw [← hu]; rfl
    have hmem := Array.size_pos_of_mem (Array.mem_of_back? hf)
    rw [hpop, Array.size_pop]
    omega
  by_cases hlt : u.stack.size < p.limits.maxStack
  · have hpush : push p v u = .ok () { u with stack := u.stack.push v } := if_pos hlt
    rw [bind_of_ok hpush] at hstep
    refine .step (Nat.le_of_eq hd.symm) hstep (.done (hQ _ (.left hcallers ?_)))
    exact Array.back?_push
  · have hpush : push p v u = .error (.trap .stackOverflow) u := if_neg hlt
    exact .overflow (.trap (Nat.le_of_eq hd.symm) (hstep.trans (bind_of_error hpush)))

theorem Performs.ret (hd : σ.callers.size = depth) (hf : σ.callers.back? = some f)
    (h : ValueCode σ.frame.chunk scope loc.line value code) :
    Performs p depth fuel σ inLoop scope (Stmt.exec fuel ⟨.ret value, loc⟩)
      (code ++ .instr loc.line ⟨.ret, ()⟩) (· = scope) scope := by
  refine ⟨fun {t a stack locals current env} hc hm => ?_⟩
  refine (simulates_value (Nat.le_of_eq hd.symm) h hc.left hm).bind fun v env₁ s₁ h₁ => ?_
  obtain ⟨locals₁, current₁, rfl, hm₁⟩ := h₁
  exact simulates_return hd hf hc.right.instr fun s hs => hs

theorem suffix_of_stmtCode {c : Chunk Value} {x : Stmt}
    (h : StmtCode c inLoop scope x code scope') : scope <:+ scope' := by
  cases h with
  | bind => exact List.suffix_cons _ _
  | _ => exact List.suffix_refl _

mutual

theorem performs_of_code {f : Frame} (hd : σ.callers.size = depth)
    (hf : σ.callers.back? = some f) :
    {inLoop : Bool} → {scope scope' : List Local} → {x : Stmt} → {code : Code} →
      StmtCode σ.frame.chunk inLoop scope x code scope' →
      Performs p depth fuel σ inLoop scope (Stmt.exec fuel x) code (· = scope) scope'
  | _, _, _, _, _, .expr h => .expr (Nat.le_of_eq hd.symm) h
  | _, _, _, _, _, .bind h hs => .bind (Nat.le_of_eq hd.symm) h hs
  | _, _, _, _, _, .when h hy =>
    .when (Nat.le_of_eq hd.symm) h (.block (performsAll_of_code hd hf hy))
  | _, _, _, _, _, .ite h hy hn =>
    .ite (Nat.le_of_eq hd.symm) h (.block (performsAll_of_code hd hf hy))
      (.block (performsAll_of_code hd hf hn))
  | _, _, _, _, _, .loop h hb =>
    .loop (Nat.le_of_eq hd.symm) h (.block (performsAll_of_code hd hf hb))
  | _, _, _, _, _, .ret h => .ret hd hf h
  | _, _, _, _, _, .leave => .leave (Nat.le_of_eq hd.symm)
  | _, _, _, _, _, .again => .again (Nat.le_of_eq hd.symm)
  | _, _, _, _, _, .block h => by
    rw [Stmt.exec]
    exact .block (performsAll_of_code hd hf h)

theorem performsAll_of_code {f : Frame} (hd : σ.callers.size = depth)
    (hf : σ.callers.back? = some f) :
    {inLoop : Bool} → {scope inner : List Local} → {body : List Stmt} → {code : Code} →
      StmtsCode σ.frame.chunk inLoop scope body code inner → scope <:+ inner ∧
        Performs p depth fuel σ inLoop scope (Stmt.execAll fuel body) code (scope <:+ ·) inner
  | _, _, _, _, _, .nil => ⟨List.suffix_refl _, .nil⟩
  | _, _, _, _, _, .cons h h' => by
    obtain ⟨hs, hrest⟩ := performsAll_of_code hd hf h'
    have hx := suffix_of_stmtCode h
    exact ⟨hx.trans hs, .cons (performs_of_code hd hf h) hrest hx⟩

end

end Statements

/-! ## Functions -/

variable {n : Nat} {args : List Value} {s : State}

theorem matches_setSlots {f : Frame} {scope : List Local} {env : Env} {names : List String}
    (hlen : args.length = names.length) (hn : n + names.length ≤ Lowering.maxLocals)
    (hs : ∀ l ∈ scope, l.slot.toNat < n) (hm : Matches f.locals scope env) :
    Matches (f.setSlots n args).locals (Lowering.paramScope n scope names)
      ((names.zip args).reverse ++ env) := by
  induction names generalizing f scope env n args with
  | nil =>
    cases args with
    | nil => exact hm
    | cons => cases hlen
  | cons name names ih =>
    cases args with
    | nil => cases hlen
    | cons v args =>
      have hslot : (UInt8.ofNat n).toNat = n := by
        refine Lowering.toNat_slot ?_
        rw [List.length_cons] at hn
        omega
      have hfresh : UInt8.ofNat n ∉ scope.map (·.slot) := by
        intro hmem
        obtain ⟨l, hl, he⟩ := List.mem_map.mp hmem
        have hlt := hs l hl
        rw [he, hslot] at hlt
        exact Nat.lt_irrefl _ hlt
      have hbind := hm.bind hfresh name v
      rw [hslot] at hbind
      rw [Frame.setSlots, Lowering.paramScope, List.zip_cons_cons, List.reverse_cons,
        List.append_assoc]
      refine ih (Nat.succ.inj hlen) ?_ (fun l hl => ?_) hbind
      · rw [List.length_cons] at hn
        omega
      · rcases List.mem_cons.mp hl with rfl | hl
        · change (UInt8.ofNat n).toNat < n + 1
          rw [hslot]
          exact Nat.lt_succ_self n
        · exact Nat.lt_succ_of_lt (hs l hl)

/-- The machine comes to what a function returns, from its first instruction on. -/
theorem simulates_function {decl : FuncDecl} {head body : Code} {f : Frame}
    (h : Lowering.FunctionCode decl σ.frame.chunk head body) (hd : σ.callers.size = depth)
    (hf : σ.callers.back? = some f)
    (hm : Matches σ.frame.locals (Lowering.paramScope 0 [] decl.paramNames)
      (decl.paramNames.zip args).reverse) (hnext : σ.frame.next = 0) :
    Simulates p depth fuel σ (Stmt.execAll fuel decl.body (decl.paramNames.zip args).reverse)
      fun signal _ s => Ends p depth s (.ok signal.value) := by
  obtain ⟨inner, hbody⟩ := h.stmts
  have hc : Installed σ false {} 0 (head ++ body ++ Lowering.fallOff decl.body decl.loc.line) :=
    ⟨h.placed, h.fits, by simp⟩
  have hplace := hc.left.right
  rw [h.blank.width] at hplace
  have hself : σ.moved 0 σ.stack σ.frame.locals σ.current = σ := hnext ▸ rfl
  have hrun : Simulates p depth fuel (σ.moved 0 σ.stack σ.frame.locals σ.current) _ _ :=
    (performsAll_of_code hd hf hbody).2.simulates hplace hm
  rw [hself] at hrun
  refine hrun.extend fun signal env s hs => ?_
  cases signal with
  | next =>
    obtain ⟨locals, current, rfl, -⟩ := hs
    have hend := hc.right
    have hwidth : 0 + (head ++ body).width = 0 + body.width := by
      change 0 + (head.width + body.width) = _
      rw [h.blank.width, Nat.zero_add]
    rw [hwidth] at hend
    refine .pushes (Nat.le_of_eq hd.symm) hend.left.instr (by simp) rfl ?_
    exact simulates_return hd hf hend.right.instr fun s hs => hs
  | leave => cases hs.1
  | again => cases hs.1
  | ret v => exact .done hs

def State.entered (s : State) (c : Closure Value) (below : Array Value) (args : List Value) :
    State :=
  { s with
    stack := below.push (.closure c)
    frame := (Frame.enter c below.size).setSlots 0 args
    callers := s.callers.push s.frame }

def Frame.starting (c : Closure Value) (base : Nat) (args : List Value) : Option Handle → Frame
  | none => (Frame.enter c base).setSlots 0 args
  | some ref => ((Frame.enter c base).setSlot 0 (.value (.object ref))).setSlots 1 args

theorem enter_run {c : Closure Value} {base : Nat} {receiver : Option Handle}
    (hargs : args.length = c.chunk.arity.toNat) (hr : c.chunk.hasReceiver = receiver.isSome) :
    enter p c base args receiver s =
      if p.limits.maxFrames ≤ s.callers.size + 1 then .error (.trap .stackOverflow) s
      else .ok () { s with
        frame := .starting c base args receiver, callers := s.callers.push s.frame } := by
  rw [enter, if_neg (by simp [hargs]), bind_of_ok (get_eq_ok s)]
  by_cases hf : p.limits.maxFrames ≤ s.callers.size + 1
  · rw [if_pos hf, if_pos hf]
    rfl
  · rw [if_neg hf, if_neg hf]
    cases receiver <;> simp only [hr] <;> rfl

section Callee

variable {callee : Value} {below : Array Value}

theorem calleeHeight_run (hs : s.stack = below.push callee ++ args.toArray)
    (hargs : args.length < 256) :
    calleeHeight (UInt8.ofNat args.length).toNat s = .ok below.size s := by
  have hsize : s.stack.size = below.size + 1 + args.length := by
    simp only [hs, Array.size_append, Array.size_push, List.size_toArray]
  rw [UInt8.toNat_ofNat_of_lt' hargs, calleeHeight, bind_of_ok (get_eq_ok s), hsize,
    if_pos (by omega)]
  change EStateM.Result.ok _ s = _
  congr 1
  omega

theorem valueAt_run (hs : s.stack = below.push callee ++ args.toArray) :
    valueAt below.size s = .ok callee s := by
  have hget : s.stack[below.size]? = some callee := by simp [hs]
  rw [valueAt, bind_of_ok (get_eq_ok s), hget]
  rfl

theorem cutAbove_run (hs : s.stack = below.push callee ++ args.toArray) :
    cutAbove (below.size + 1) s = .ok args { s with stack := below.push callee } := by
  have htop : (s.stack.extract (below.size + 1) s.stack.size).toList = args := by
    simp [hs]
  have hrest : s.stack.shrink (below.size + 1) = below.push callee := by
    simp [hs]
  rw [cutAbove, htop, hrest]

theorem callValue_closure {c : Closure Value}
    (hs : s.stack = below.push (.closure c) ++ args.toArray) (hargs : args.length < 256) :
    callValue p (UInt8.ofNat args.length) s =
      enter p c below.size args none { s with stack := below.push (.closure c) } := by
  rw [callValue, bind_of_ok (calleeHeight_run hs hargs), bind_of_ok (valueAt_run hs)]
  exact bind_of_ok (cutAbove_run hs)

end Callee

theorem follow_unique {m : Nat} (hn : follow p depth n s ≠ .error .unfinished)
    (hm : follow p depth m s ≠ .error .unfinished) :
    follow p depth n s = follow p depth m s :=
  (follow_mono (Nat.le_max_left n m) hn).symm.trans (follow_mono (Nat.le_max_right n m) hm)

theorem call_unique {m : Nat} {count : UInt8} (hn : call p s count n ≠ .error .unfinished)
    (hm : call p s count m ≠ .error .unfinished) :
    call p s count n = call p s count m := by
  rw [call] at hn hm ⊢
  rw [call]
  cases h : callValue p count s with
  | ok _ t =>
    rw [h] at hn hm
    exact follow_unique hn hm
  | error e t => rcases e with _ | _ <;> rfl

/-- Where the machine comes to what evaluation gives, however many rounds it permits, following the
call and evaluating the body finish with the same results. -/
theorem follow_iff {eval : Nat → EStateM.Result Halt Env Signal}
    (h : ∀ fuel, Simulates p depth fuel σ (eval fuel)
      fun signal _ s => Ends p depth s (.ok signal.value))
    (hlimits : ∀ n, follow p depth n σ ≠ .error (.trap .stackOverflow))
    {r : Except Halt Value} (hr : r ≠ .error .unfinished) :
    (∃ n, follow p depth n σ = r) ↔ ∃ n, resultOf (eval n) = r := by
  have hsame : ∀ n, resultOf (eval n) ≠ .error .unfinished →
      ∃ k, follow p depth k σ = resultOf (eval n) := by
    intro n hfinished
    obtain ⟨k, t, hk, hover | hagrees⟩ := h n
    · exact absurd ((hk 1).trans (hover 0)) (hlimits _)
    · refine ⟨1 + k, (hk 1).trans ?_⟩
      cases he : eval n with
      | ok signal env =>
        rw [he] at hagrees
        exact hagrees 0
      | error halt env =>
        rw [he] at hagrees hfinished
        cases halt with
        | trap cause => exact hagrees 0
        | fault => exact hagrees.elim
        | unfinished => exact absurd rfl hfinished
  constructor
  · rintro ⟨n, rfl⟩
    refine ⟨n, ?_⟩
    by_cases hfinished : resultOf (eval n) = .error .unfinished
    -- The machine is still busy after as many steps as it took to finish.
    · obtain ⟨k, t, hk, hover | hagrees⟩ := h n
      · exact absurd ((hk 1).trans (hover 0)) (hlimits _)
      · have hn : n ≤ k := by
          cases he : eval n with
          | ok signal env =>
            rw [he] at hfinished
            cases hfinished
          | error halt env =>
            rw [he] at hagrees hfinished
            cases hfinished
            exact hagrees
        have hbusy := hk 0
        rw [Nat.zero_add] at hbusy
        exact absurd ((follow_mono hn hr).symm.trans hbusy) hr
    · obtain ⟨k, hk⟩ := hsame n hfinished
      rw [← hk] at hfinished ⊢
      exact follow_unique hfinished hr
  · rintro ⟨n, rfl⟩
    exact hsame n hr

/-- A call that hits no limit gives what evaluation gives for the arguments: it returns a value if
and only if evaluation does, and it stops with a cause if and only if evaluation does. -/
theorem call_core_iff {space : Space} {path : String} {symbol : Symbol} {decl : FuncDecl}
    {compiled : Lowering.Compiled}
    (h : Lowering.Compiled.ofFunction space path symbol decl = .ok compiled)
    (hcore : decl.isCore = true) {s : State} {c : Closure Value} {below : Array Value}
    {args : List Value} (hc : c.chunk = compiled.chunk)
    (hargs : args.length = decl.params.length)
    (hs : s.stack = below.push (.closure c) ++ args.toArray)
    (hlimits : ∀ n, call p s (UInt8.ofNat args.length) n ≠ .error (.trap .stackOverflow)) :
    (∀ v, (∃ n, call p s (UInt8.ofNat args.length) n = .ok v) ↔
      ∃ n, decl.eval n args = .ok v) ∧
    (∀ cause, (∃ n, call p s (UInt8.ofNat args.length) n = .error (.trap cause)) ↔
      ∃ n, decl.eval n args = .error (.trap cause)) ∧
    (∀ left right ty loc, Expr.eval ⟨.binary left .and right, ty, loc⟩ =
      (do if (← left.eval).isTruthy then right.eval else return .bool false)) ∧
    (∀ left right ty loc, Expr.eval ⟨.binary left .or right, ty, loc⟩ =
      (do if (← left.eval).isTruthy then return .bool true else right.eval)) ∧
    (∀ n env, Stmt.execAll n decl.body (decl.paramNames.zip args).reverse = .ok .next env →
      decl.eval n args = .ok .none) := by
  obtain ⟨head, body, hcode⟩ := Lowering.ofFunction_code h hcore
  rw [← hc] at hcode
  have harity : args.length = c.chunk.arity.toNat := hargs.trans hcode.arity.symm
  have hcall : callValue p (UInt8.ofNat args.length) s = _ :=
    (callValue_closure hs (harity ▸ c.chunk.arity.toNat_lt)).trans (enter_run harity hcode.receiver)
  by_cases hframes : p.limits.maxFrames ≤ s.callers.size + 1
  · rw [if_pos hframes] at hcall
    exact absurd (by rw [call, hcall]) (hlimits 0)
  · rw [if_neg hframes] at hcall
    have hrun : ∀ n, call p s (UInt8.ofNat args.length) n =
        follow p (s.callers.size + 1) n (s.entered c below args) := fun n => by
      rw [call, hcall]
      rfl
    simp only [hrun] at hlimits ⊢
    obtain ⟨hclosure, -, hnext⟩ := setSlots_frame (Frame.enter c below.size) 0 args
    have hchunk : (s.entered c below args).frame.chunk = c.chunk :=
      congrArg Closure.chunk hclosure
    have hmatches : Matches (s.entered c below args).frame.locals
        (Lowering.paramScope 0 [] decl.paramNames) (decl.paramNames.zip args).reverse := by
      have hlen : decl.paramNames.length = decl.params.length := List.length_map _
      have hslots := hcode.slots
      have hm := matches_setSlots (f := Frame.enter c below.size) (n := 0)
        (hargs.trans hlen.symm) (by omega) (by simp) .nil
      rwa [List.append_nil] at hm
    have hsim : ∀ fuel, Simulates p (s.callers.size + 1) fuel (s.entered c below args)
        (Stmt.execAll fuel decl.body (decl.paramNames.zip args).reverse)
        fun signal _ t => Ends p (s.callers.size + 1) t (.ok signal.value) := fun fuel =>
      simulates_function (hchunk ▸ hcode) (Array.size_push _) Array.back?_push hmatches hnext
    exact ⟨fun v => follow_iff hsim hlimits (by simp),
      fun cause => follow_iff hsim hlimits (by simp), Expr.eval_and, Expr.eval_or,
      fun n env => FuncDecl.eval_of_next⟩

/-! ## A function with a loop -/

/-- Adds up the squares of the odd numbers up to a limit. -/
def oddSquares : FuncDecl :=
  let loc := Location.synthesized
  let int (n : Int64) : Expr := ⟨.literal (.int n), .int, loc⟩
  let var (x : String) : Expr := ⟨.var x, .int, loc⟩
  let op (a : Expr) (o : BinaryOp) (b : Expr) : Expr := ⟨.binary a o b, .int, loc⟩
  let set (x : String) (e : Expr) : Stmt := ⟨.expr ⟨.assign (var x) e, .int, loc⟩, loc⟩
  let done := op (op (var "limit") .lt (var "i")) .or (op (int 1000) .lt (var "sum"))
  let even := op (op (var "i") .mod (int 2)) .eq (int 0)
  { name := some "oddSquares", params := [⟨"limit", .int⟩], returns := .int, loc
    body := [⟨.bind "sum" true .int (some (int 0)), loc⟩, ⟨.bind "i" true .int (some (int 0)), loc⟩,
      ⟨.loop (int 1) [set "i" (op (var "i") .add (int 1)), ⟨.ite done [⟨.break, loc⟩] none, loc⟩,
        ⟨.ite even [⟨.continue, loc⟩] none, loc⟩,
        ⟨.bind "square" false .int (some (op (var "i") .mul (var "i"))), loc⟩,
        set "sum" (op (var "sum") .add (var "square"))], loc⟩,
      ⟨.ret (some (var "sum")), loc⟩] }

example : oddSquares.eval 10 [.int 5] = .ok (.int 35) := rfl

def oddSquaresSymbol : Symbol := .function "Main" "oddSquares" ["int"]

def oddSquaresChunk : Chunk Value :=
  match Lowering.Compiled.ofFunction { module := "Main" } "a.pl" oddSquaresSymbol oddSquares with
  | .ok r => r.chunk
  | .error _ => { name := "oddSquares", symbol := oddSquaresSymbol }

def oddSquaresProgram : Program :=
  { name := "Main", main := oddSquaresChunk, modules := []
    types := ⟨Standard.arrayType, Standard.dictionaryType⟩, limits := {} }

def beforeOddSquares : State :=
  { stack := #[.closure (plainClosure oddSquaresChunk oddSquaresSymbol), .int 5]
    frame := .enter (plainClosure oddSquaresChunk oddSquaresSymbol) 0
    heap := oddSquaresProgram.heap }

theorem call_core_iff_oddSquares :
    ((Lowering.Compiled.ofFunction { module := "Main" } "a.pl" oddSquaresSymbol
        oddSquares).toBool = true ∧ oddSquares.isCore = true ∧
      ∀ n, call oddSquaresProgram beforeOddSquares 1 n ≠ .error (.trap .stackOverflow)) ∧
    ∃ n, call oddSquaresProgram beforeOddSquares 1 n = .ok (.int 35) := by
  have hok : (Lowering.Compiled.ofFunction { module := "Main" } "a.pl" oddSquaresSymbol
      oddSquares).toBool = true := by decide +kernel
  have hcore : oddSquares.isCore = true := by decide
  have hreturns : (call oddSquaresProgram beforeOddSquares 1 200).toBool = true := by
    decide +kernel
  have hlimits : ∀ n, call oddSquaresProgram beforeOddSquares 1 n ≠
      .error (.trap .stackOverflow) := by
    intro n hn
    have hfinished : call oddSquaresProgram beforeOddSquares 1 200 ≠ .error .unfinished := by
      intro h
      rw [h] at hreturns
      cases hreturns
    rw [call_unique hfinished (by rw [hn]; simp), hn] at hreturns
    cases hreturns
  refine ⟨⟨hok, hcore, hlimits⟩, ?_⟩
  cases h : Lowering.Compiled.ofFunction { module := "Main" } "a.pl" oddSquaresSymbol
      oddSquares with
  | error e =>
    rw [h] at hok
    cases hok
  | ok r =>
    have hchunk : (plainClosure oddSquaresChunk oddSquaresSymbol).chunk = r.chunk := by
      rw [plainClosure, oddSquaresChunk, h]
    have hargs : [Value.int 5].length = oddSquares.params.length := rfl
    have hs : beforeOddSquares.stack =
        (#[] : Array Value).push (.closure (plainClosure oddSquaresChunk oddSquaresSymbol)) ++
          [Value.int 5].toArray := by
      simp [beforeOddSquares]
    have hiff := call_core_iff (p := oddSquaresProgram) h hcore hchunk hargs hs hlimits
    exact (hiff.1 (.int 35)).mpr ⟨10, rfl⟩

end StackCode.Machine
