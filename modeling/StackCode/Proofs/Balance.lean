import StackCode.Proofs.Flow

/-! # Balanced code

Code that moves the stack from one depth to another on every path through it. Laid out within the
limit on distances, such code gives every instruction one depth, with which all its successors
agree.
-/

namespace StackCode

namespace Code

/-- The code takes the stack from one depth to another on every path, with instructions of the
given kind only. Loops and arms start on an empty stack, and so does whatever jumps out of them. -/
inductive Moves (V : Instruction → Prop) : Bool → Bool → Code → Int → Int → Prop where
  | skip {inLoop inArm : Bool} {d : Int} : Moves V inLoop inArm .skip d d
  | seq {inLoop inArm : Bool} {first rest : Code} {d e f : Int}
      (h : Moves V inLoop inArm first d e) (h' : Moves V inLoop inArm rest e f) :
      Moves V inLoop inArm (.seq first rest) d f
  | instr {inLoop inArm : Bool} {line : UInt32} {i : Instruction} {d : Int} (hv : V i)
      (hj : i.distance? = none) (hd : i.inputs ≤ d) (hr : i.opcode = .ret → d = 1) :
      Moves V inLoop inArm (.instr line i) d (d + i.effect)
  | bind {inLoop inArm : Bool} {line : UInt32} {slot : UInt8} {d : Int} (hd : 1 ≤ d) :
      Moves V inLoop inArm (.bind line slot) d (d - 1)
  | ite {inLoop inArm : Bool} {loc : Location} {yes no : Code} {d e : Int} (hd : 1 ≤ d)
      (h : Moves V inLoop inArm yes (d - 1) e) (h' : Moves V inLoop inArm no (d - 1) e) :
      Moves V inLoop inArm (.ite loc yes no) d e
  | when {inLoop inArm : Bool} {loc : Location} {body : Code} {d : Int} (hd : 1 ≤ d)
      (h : Moves V inLoop inArm body (d - 1) (d - 1)) :
      Moves V inLoop inArm (.when loc body) d (d - 1)
  | loop {inLoop inArm : Bool} {loc : Location} {cond body : Code}
      (h : Moves V false inArm cond 0 1) (h' : Moves V true inArm body 0 0) :
      Moves V inLoop inArm (.loop loc cond body) 0 0
  | leave {inArm : Bool} {line : UInt32} : Moves V true inArm (.leave line) 0 0
  | again {inArm : Bool} {loc : Location} : Moves V true inArm (.again loc) 0 0
  | arm {inLoop inArm : Bool} {loc armLoc : Location} {attempt rest : Code}
      (h : Moves V inLoop true attempt 0 0) (h' : Moves V inLoop inArm rest 0 0) :
      Moves V inLoop inArm (.arm loc armLoc attempt rest) 0 0
  | require {inLoop : Bool} {line : UInt32} : Moves V inLoop true (.require line) 1 0

theorem Moves.mono {V V' : Instruction → Prop} {inLoop inArm : Bool} {code : Code} {d e : Int}
    (h : Moves V inLoop inArm code d e) (hV : ∀ i, i.distance? = none → V i → V' i) :
    Moves V' inLoop inArm code d e := by
  induction h with
  | skip => exact .skip
  | seq _ _ ih ih' => exact .seq ih ih'
  | instr hv hj hd hr => exact .instr (hV _ hj hv) hj hd hr
  | bind hd => exact .bind hd
  | ite hd _ _ ih ih' => exact .ite hd ih ih'
  | when hd _ ih => exact .when hd ih
  | loop _ _ ih ih' => exact .loop ih ih'
  | leave => exact .leave
  | again => exact .again
  | arm _ _ ih ih' => exact .arm ih ih'
  | require => exact .require

theorem Moves.nonneg {V : Instruction → Prop} {inLoop inArm : Bool} {code : Code} {d e : Int}
    (h : Moves V inLoop inArm code d e) (hd : 0 ≤ d) : 0 ≤ e := by
  induction h with
  | skip => exact hd
  | seq _ _ ih ih' => exact ih' (ih hd)
  | @instr _ _ _ i _ _ _ hi _ =>
    have := i.inputs_add_effect_nonneg
    omega
  | bind h => omega
  | ite h _ _ ih _ => exact ih (by omega)
  | when h _ _ => omega
  | loop | leave | again | arm | require => exact Int.le_refl 0

def depths (V : Instruction → Prop) : Analysis Int where
  covers d e := d = e
  runs i d e := V i ∧ i.inputs ≤ d ∧ (i.opcode = .ret → d = 1) ∧ e = d + i.effect
  binds _ d e := 1 ≤ d ∧ e = d - 1
  tests d e e' := 1 ≤ d ∧ e = d - 1 ∧ e' = d - 1
  jumps d := 0 ≤ d
  refl _ := rfl
  trans _ _ _ := Eq.trans

def emptyExits (inLoop inArm : Bool) : Exits Int where
  loop := if inLoop then some (0, 0) else none
  fail := if inArm then some 0 else none

variable {V : Instruction → Prop} {cells : List UInt8} {X : Nat → Int → Prop}
  {inLoop inArm : Bool} {t : Targets} {a : Nat} {code : Code} {d e : Int}

theorem Moves.flows (h : Moves V inLoop inArm code d e) :
    Flows (depths V) (emptyExits inLoop inArm) code d e := by
  induction h with
  | skip => exact .skip
  | seq _ _ ih ih' => exact .seq ih ih'
  | instr hv hj hd hr => exact .instr ⟨hv, hd, hr, rfl⟩ hj
  | bind hd => exact .bind ⟨hd, rfl⟩
  | ite hd hyes _ ih ih' => exact .ite ⟨hd, rfl, rfl⟩ ih ih' (hyes.nonneg (by omega))
  | when hd _ ih => exact .when ⟨hd, rfl, rfl⟩ ih
  | loop _ _ ih ih' => exact .loop ih ⟨Int.le_refl 1, rfl, rfl⟩ ih' (Int.le_refl 0)
  | leave => exact .leave rfl (Int.le_refl 0)
  | again => exact .again rfl (Int.le_refl 0)
  | arm _ _ ih ih' => exact .arm ih ih' (Int.le_refl 0)
  | require => exact .require ⟨Int.le_refl 1, rfl, rfl⟩ rfl

theorem upward_depths (V : Instruction → Prop) (X : Nat → Int → Prop) : Upward (depths V) X :=
  fun _ _ _ hk hx => hk ▸ hx

theorem joins_depths {l : List (Visit Int)} {o : Nat} :
    Joins (depths V) l X o d ↔ (∃ i, ((o, i), d) ∈ l) ∨ X o d := by
  refine or_congr_left ⟨?_, fun ⟨i, hi⟩ => ⟨i, d, hi, rfl⟩⟩
  rintro ⟨i, _, hi, rfl⟩
  exact ⟨i, hi⟩

/-- The instruction is of the given kind or a jump that does not lead before the code. It finds its
inputs, and whatever follows it agrees with the depth behind it. -/
structure Visit.Balanced (V : Instruction → Prop) (J : Nat → Int → Prop) (v : Visit Int) :
    Prop where
  kind : v.1.2.distance? = none → V v.1.2
  inside : ∀ x, v.1.2.distance? = some x → 0 ≤ v.1.1 + v.1.2.size + x
  inputs : v.1.2.inputs ≤ v.2
  ret : v.1.2.opcode = .ret → v.2 = 1
  next : ∀ t ∈ Chunk.successors v.1.1 v.1.2, J t (v.2 + v.1.2.effect)

theorem Visit.Agrees.balanced {J : Nat → Int → Prop} {v : Visit Int} (h : v.Agrees (depths V) J) :
    v.Balanced V J := by
  obtain ⟨⟨o, i⟩, d⟩ := v
  cases hj : i.distance? with
  | none =>
    obtain ⟨_, ⟨hv, hi, hr, rfl⟩, hnext⟩ := h.plain hj
    refine ⟨fun _ => hv, h.inside, hi, hr, fun t ht => ?_⟩
    obtain ⟨rfl, hret⟩ := Chunk.mem_successors_of_distance?_eq_none hj ht
    exact hnext hret
  | some x =>
    have hkind : i.distance? = none → V i := fun h => absurd (hj.symm.trans h) (by simp)
    have htarget : ∀ t ∈ (Chunk.target? o i).toList, Chunk.target? o i = some t :=
      fun _ => Option.mem_toList.mp
    obtain ⟨op, n⟩ := i
    cases op
    case jumpIfFalse =>
      obtain ⟨_, _, ⟨hd, rfl, rfl⟩, hnext, hjump⟩ := h.test rfl
      refine ⟨hkind, h.inside, hd, by simp, fun t ht => ?_⟩
      rcases List.mem_cons.mp ht with rfl | ht
      · exact hnext
      · exact hjump t (htarget t ht)
    case jump | loop =>
      obtain ⟨hd, hjump⟩ := h.jump (by simp)
      exact ⟨hkind, h.inside, hd, by simp,
        fun t ht => (Int.add_zero d).symm ▸ hjump t (htarget t ht)⟩
    all_goals cases hj

theorem runs_binder (hc : ∀ slot, V (binder cells slot)) (slot : UInt8) (d e : Int)
    (h : (depths V).binds slot d e) : (depths V).runs (binder cells slot) d e := by
  obtain ⟨hd, rfl⟩ := h
  refine ⟨hc slot, ?_⟩
  unfold binder
  split <;> exact ⟨hd, by simp, rfl⟩

theorem isSome_emptyExits (inLoop inArm : Bool) : (emptyExits inLoop inArm).loop.isSome = inLoop ∧
    (emptyExits inLoop inArm).fail.isSome = inArm := by
  cases inLoop <;> cases inArm <;> exact ⟨rfl, rfl⟩

theorem Moves.exists_visits (hc : ∀ slot, V (binder cells slot))
    (h : Moves V inLoop inArm code d e) (hf : code.Fits inLoop inArm t a)
    (hl : Leads X (emptyExits inLoop inArm) t a (a + code.width))
    (he : X (a + code.width) e ∨ code.Ends) : ∃ l, Visits (depths V) cells X t a code d l := by
  obtain ⟨hloop, hfail⟩ := isSome_emptyExits inLoop inArm
  exact h.flows.exists_visits (runs_binder hc) (upward_depths V X)
    (hloop.symm ▸ hfail.symm ▸ hf) hl he

end Code

end StackCode
