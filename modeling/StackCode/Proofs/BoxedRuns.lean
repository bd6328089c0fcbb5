import Mathlib.Logic.Equiv.Fintype
import StackCode.Proofs.Initializers
import StackCode.Proofs.Promotion

/-! # Runs of the machine that boxes

The machine that boxes all locals takes the same steps as the other one. Its runs print the same
lines and end in the same way, with values, instances and blocks in which nothing differs but the
cells of functions.
-/

namespace StackCode

namespace Machine

variable {p : Program} {w : Places} {s s' : State}

/-! ## Steps -/

theorem Boxed.execute_eq (i : Instruction) (h : i.opcode ≠ .defineLocal) :
    Boxed.execute p i = (do
      let depth := (← get).callers.size
      Machine.execute p i
      let s ← get
      if depth < s.callers.size then boxAll s.frame.locals.size) := by
  obtain ⟨op, operand⟩ := i
  cases op
  case defineLocal => exact absurd rfl h
  all_goals rfl

/-- Beyond what the other machine does, the machine that boxes moves locals into cells. -/
theorem execute_boxed (hp : p.Unclosed) (i : Instruction) :
    Evolves w (fun _ _ _ => True) (execute p i) (Boxed.execute p i) := by
  by_cases hlocal : i.opcode = .defineLocal
  · obtain ⟨op, operand⟩ := i
    cases hlocal
    exact defineLocal_evolves operand
  intro s s' h
  have hboxes : ∀ w₁, Evolves w₁ (fun _ _ _ => True) (pure () : Exec Unit) (do
      let t ← get
      if s'.callers.size < t.callers.size then Boxed.boxAll t.frame.locals.size) := by
    intro w₁ t t' ht hfits hfits'
    rw [get_bind] at hfits' ⊢
    by_cases hdeeper : s'.callers.size < t'.callers.size
    · rw [if_pos hdeeper] at hfits' ⊢
      exact boxAll_evolves _ t t' ht hfits hfits'
    · rw [if_neg hdeeper]
      exact .ok ⟨w₁, .refl w₁, trivial, ht⟩
  have hretains : Retains (do
      let t ← get
      if s'.callers.size < t.callers.size then Boxed.boxAll t.frame.locals.size) := by
    refine retains_read fun t => ?_
    split
    · exact boxAll_retains _
    · exact retains_pure ()
  rw [← bind_pure_unit (x := execute p i), Boxed.execute_eq i hlocal, get_bind]
  exact (execute_evolves hp i hlocal).bind (fun _ => retains_pure ()) (fun _ => hretains)
    (fun w₁ _ _ _ _ => hboxes w₁) s s' h

theorem step_boxed (hp : p.Unclosed) :
    Evolves w (fun w₁ => Option.Rel (Value.Alike w₁.Shares)) (step p) (Boxed.step p) := by
  refine .after fetch_alike fun i i' hi => ?_
  subst hi
  split
  · exact .after pop_alike fun _ _ hv => .of (leave_alike p hv) fun _ _ => id
  · exact (execute_boxed hp i).bind (fun _ => retains_pure _) (fun _ => retains_pure _)
      fun _ _ _ _ _ => .of (.done .none) fun _ _ => id

/-! ## Runs -/

inductive Ending.Alike (R : Handle → Handle → Prop) : Ending → Ending → Prop where
  | value {v v' : Value} (h : v.Alike R v') : Alike R (.value v) (.value v')
  | trap (t : Trap) : Alike R (.trap t) (.trap t)
  | fault : Alike R .fault .fault
  | unfinished : Alike R .unfinished .unfinished

structure Remains.Alike (w : Places) (r r' : Remains) : Prop where
  heap : r.heap.Alike (.renaming w.Shares r.heap r'.heap) r'.heap
  memory : Memory w r.heap.cells r'.heap.cells
  closures : r'.closures = r.closures
  output : r'.output = r.output

theorem State.Alike.remains (h : s.Alike w s') : s.remains.Alike w s'.remains :=
  ⟨h.heap, h.memory, h.closures, h.output⟩

/-- A trap in one state is reported with the same frames as in the other one. -/
theorem State.Alike.trace_eq (h : s.Alike w s') : s'.trace = s.trace := by
  have hcallers : Pointwise (fun f f' : Frame => f'.chunk = f.chunk ∧ f'.next = f.next) s.callers
      s'.callers :=
    fun d => rel_mono (h.callers d) fun _ _ hf => ⟨hf.closure.chunk, hf.next⟩
  unfold State.trace
  dsimp only
  rw [h.chunk, h.current, List.map_reverse, List.map_reverse, ← Array.toList_map,
    ← Array.toList_map, map_eq_of_pointwise hcallers]
  intro f f' hf
  rw [hf.1, hf.2]

theorem cellsFit_step (h : (runFrom p s 1).2.heap.cells.Fits) : CellsFit (step p s) := by
  unfold runFrom at h
  generalize step p s = x at h
  obtain ⟨_ | v, t⟩ | ⟨_ | _, t⟩ := x <;> exact h

theorem Boxed.cellsFit_step (h : (Boxed.runFrom p s 1).2.heap.cells.Fits) :
    CellsFit (Boxed.step p s) := by
  unfold Boxed.runFrom at h
  generalize Boxed.step p s = x at h
  obtain ⟨_ | v, t⟩ | ⟨_ | _, t⟩ := x <;> exact h

theorem runFrom_boxed (hp : p.Unclosed) (fuel : Nat) :
    ∀ {w : Places} {s s' : State}, s.Alike w s' →
      (∀ n ≤ fuel, (runFrom p s n).2.heap.cells.Fits ∧
        (Boxed.runFrom p s' n).2.heap.cells.Fits) →
      ∃ w₁, (runFrom p s fuel).1.Alike w₁.Shares (Boxed.runFrom p s' fuel).1 ∧
        (runFrom p s fuel).2.Alike w₁ (Boxed.runFrom p s' fuel).2 := by
  induction fuel with
  | zero => exact fun {w _ _} h _ => ⟨w, .unfinished, h.remains⟩
  | succ fuel ih =>
    intro w s s' h hfits
    obtain ⟨hone, hone'⟩ := hfits 1 (Nat.le_add_left 1 fuel)
    have hstep := step_boxed hp s s' h (cellsFit_step hone) (Boxed.cellsFit_step hone')
    have hrest := fun n (hn : n ≤ fuel) => hfits (n + 1) (Nat.succ_le_succ hn)
    unfold runFrom Boxed.runFrom at hrest ⊢
    generalize step p s = x at hstep hrest ⊢
    generalize Boxed.step p s' = x' at hstep hrest ⊢
    cases hstep with
    | ok hstep =>
      obtain ⟨w₁, -, hr, h₁⟩ := hstep
      cases hr with
      | none => exact ih h₁ hrest
      | some hv => exact ⟨w₁, .value hv, h₁.remains⟩
    | error e hstep =>
      obtain ⟨w₁, h₁⟩ := hstep
      cases e with
      | trap cause =>
        refine ⟨w₁, ?_, h₁.remains⟩
        dsimp only
        rw [h₁.trace_eq]
        exact .trap _
      | fault => exact ⟨w₁, .fault, h₁.remains⟩

theorem start_alike_start (hp : p.Unclosed) :
    (start p p.heap 0).Alike (fun _ => none) (start p p.heap 0) where
  stack := .nil
  frame := enter_frame_alike (plainClosure_alike hp.main _) 0 _ _
  callers _ := .none
  heap := ⟨⟨rfl, rfl⟩, ⟨.nil, rfl, rfl⟩, ⟨.nil, rfl, rfl⟩, rfl, rfl⟩
  memory := {
    sound := Arena.sound_empty
    sound' := Arena.sound_empty
    unique := fun h => by cases h
    content := fun h => by cases h
    shared := fun {c v} h => by simp [start, Program.heap, Arena.get?] at h }
  values _ := .none
  closures := rfl
  output := rfl
  current := rfl

end Machine

/-! ## Renaming -/

namespace Arena

variable {α : Type} {a : Arena α}

def map (f : α → α) (a : Arena α) : Arena α :=
  { a with slots := a.slots.map fun slot => { slot with content := slot.content.map f } }

theorem Alike.eq_map {r : α → α → Prop} {a a' : Arena α} {f : α → α} (h : a.Alike r a')
    (hf : ∀ x y, r x y → y = f x) : a' = a.map f := by
  have hslots : a'.slots = a.slots.map fun slot => { slot with content := slot.content.map f } :=
    eq_map_of_pointwise h.slots fun slot slot' hs => by
      obtain ⟨generation, content⟩ := slot'
      rw [← eq_map_of_rel hs.2 hf, ← hs.1]
  obtain ⟨slots', free', live'⟩ := a'
  rw [map, ← hslots, ← h.free, ← h.live]

theorem index_lt {h : Handle} {v : α} (hv : a.get? h = some v) : h.index.toNat < a.slots.size := by
  obtain ⟨slot, hslot, -⟩ := Option.bind_eq_some_iff.mp hv
  exact (Array.getElem?_eq_some_iff.mp hslot).1

theorem eq_of_index_eq {h h' : Handle} {v v' : α} (hv : a.get? h = some v)
    (hv' : a.get? h' = some v') (hi : h.index = h'.index) : h = h' := by
  obtain ⟨index, generation⟩ := h
  obtain ⟨index', generation'⟩ := h'
  obtain rfl : index = index' := hi
  obtain ⟨slot, hslot, hv⟩ := Option.bind_eq_some_iff.mp hv
  obtain ⟨slot', hslot', hv'⟩ := Option.bind_eq_some_iff.mp hv'
  obtain rfl : slot = slot' := Option.some.inj (hslot.symm.trans hslot')
  simp only [Option.ite_none_right_eq_some, beq_iff_eq] at hv hv'
  rw [← hv.1, ← hv'.1]

end Arena

def Object.rename (ρ : Handle → Handle) (o : Object) : Object :=
  { o with fields := o.fields.map (·.map (·.rename ρ)) }

def Block.rename (ρ : Handle → Handle) (b : Block) : Block := b.map (·.map (·.rename ρ))

theorem SlotsAlike.eq_map {R : Handle → Handle → Prop} {ρ : Handle → Handle}
    (hρ : ∀ c c', R c c' → c' = ρ c) {xs ys : Array (Option Value)}
    (h : SlotsAlike (Value.Alike R) xs ys) :
    ys = xs.map (·.map (·.rename ρ)) :=
  eq_map_of_pointwise h fun _ _ hx => eq_map_of_rel hx fun _ _ hv => hv.eq_rename hρ

theorem Object.Alike.eq_rename {R : Handle → Handle → Prop} {ρ : Handle → Handle}
    (hρ : ∀ c c', R c c' → c' = ρ c) {o o' : Object} (h : o.Alike (Value.Alike R) o') :
    o' = o.rename ρ := by
  obtain ⟨type', fields'⟩ := o'
  rw [Object.rename, ← SlotsAlike.eq_map hρ h.fields, ← h.type]

namespace Machine

open Linking

variable {p : Program} {w : Places}

def Ending.rename (ρ : Handle → Handle) : Ending → Ending
  | .value v => .value (v.rename ρ)
  | e => e

theorem Ending.Alike.eq_rename {R : Handle → Handle → Prop} {ρ : Handle → Handle}
    (hρ : ∀ c c', R c c' → c' = ρ c) {e e' : Ending} (h : e.Alike R e') : e' = e.rename ρ := by
  cases h with
  | value hv => rw [rename, hv.eq_rename hρ]
  | trap _ | fault | unfinished => rfl

/-- What remains of a run is what remains of another one, with other cells. -/
structure Remains.Renamed (ρ : Equiv.Perm Handle) (r r' : Remains) : Prop where
  output : r'.output = r.output
  closures : r'.closures = r.closures
  objects : r'.heap.objects = r.heap.objects.map (·.rename ρ)
  blocks : r'.heap.blocks = r.heap.blocks.map (Block.rename ρ)
  limit : r'.heap.maxBlockSlots = r.heap.maxBlockSlots
  cells : ∀ c v, r.heap.cells.get? c = some v → r'.heap.cells.get? (ρ c) = some (v.rename ρ)

/-- There are finitely many cells, so how they are shared extends to a renaming of all handles. -/
theorem Memory.exists_perm {m m' : Arena Value} (h : Memory w m m') :
    ∃ ρ : Equiv.Perm Handle, ∀ c c', w.Shares c c' → c' = ρ c := by
  have hlive : ∀ q : { q : Handle × Handle // w.Shares q.1 q.2 }, ∃ v, m.get? q.1.1 = some v := by
    intro q
    obtain ⟨v, -, hv, -⟩ := h.content q.2
    exact ⟨v, hv⟩
  have hleft : Function.Injective
      fun q : { q : Handle × Handle // w.Shares q.1 q.2 } => q.1.1 := by
    rintro ⟨⟨c, a⟩, ha⟩ ⟨⟨d, b⟩, hb⟩ rfl
    obtain rfl : a = b := h.unique ha hb
    rfl
  have hright : Function.Injective
      fun q : { q : Handle × Handle // w.Shares q.1 q.2 } => q.1.2 := by
    rintro ⟨⟨c, a⟩, ha⟩ ⟨⟨d, b⟩, hb⟩ rfl
    have hcd : some (Place.cell c) = some (Place.cell d) := Eq.trans ha.symm hb
    cases hcd
    rfl
  have hfinite : Finite { q : Handle × Handle // w.Shares q.1 q.2 } := by
    refine Finite.of_injective
      (fun q => (⟨q.1.1.index.toNat, Arena.index_lt (hlive q).choose_spec⟩ : Fin m.slots.size))
      fun q q' hq => hleft ?_
    exact Arena.eq_of_index_eq (hlive q).choose_spec (hlive q').choose_spec
      (UInt32.toNat_inj.mp (Fin.mk.inj hq))
  obtain ⟨ρ, hρ⟩ := Equiv.Perm.exists_extending_pair _ _ hleft hright
  exact ⟨ρ, fun c c' hc => (hρ ⟨(c, c'), hc⟩).symm⟩

theorem Remains.Alike.renamed {r r' : Remains} (h : r.Alike w r') {ρ : Equiv.Perm Handle}
    (hρ : ∀ c c', w.Shares c c' → c' = ρ c) : r.Renamed ρ r' where
  output := h.output
  closures := h.closures
  objects := h.heap.objects.eq_map fun _ _ ho => ho.eq_rename hρ
  blocks := h.heap.blocks.eq_map fun _ _ hb => SlotsAlike.eq_map hρ hb
  limit := h.heap.limit'
  cells c v hv := by
    obtain ⟨c', hc⟩ := h.memory.shared hv
    obtain ⟨u, u', hu, hu', huu⟩ := h.memory.content hc
    obtain rfl : v = u := Option.some.inj (hv.symm.trans hu)
    rw [← hρ c c' hc, hu', huu.eq_rename hρ]

theorem unclosed_of_keeps {l : Linked} {limits : Limits}
    (hp : Program.ofLinked? l limits = some p) (h : ∀ c, l.Keeps c → c.Unclosed) : p.Unclosed := by
  obtain ⟨hmain, hchunk, hinitializer⟩ := keeps_of_ofLinked? hp
  exact ⟨h _ hmain, fun s c hc => h c (hchunk s c hc), fun s c hc => h c (hinitializer s c hc)⟩

/-- As long as both runs have a handle for every cell, nobody can tell whether locals move into
cells when they are captured or are in cells from the start. The runs print the same lines, stop at
the same traps or with the same value, and leave the same instances and blocks, up to a renaming of
the cells of functions. -/
theorem boxed_runOnce_renamed {l : Linked} {limits : Limits}
    (hp : Program.ofLinked? l limits = some p) (hl : ∀ c, l.Keeps c → c.Unclosed) {fuel : Nat}
    (hcells : ∀ n ≤ fuel, (runOnce p n).2.heap.cells.slots.size ≤ 2 ^ 32 ∧
      (Boxed.runOnce p n).2.heap.cells.slots.size ≤ 2 ^ 32) :
    ∃ ρ : Equiv.Perm Handle, (Boxed.runOnce p fuel).1 = (runOnce p fuel).1.rename ρ ∧
      (runOnce p fuel).2.Renamed ρ (Boxed.runOnce p fuel).2 := by
  have hunclosed := unclosed_of_keeps hp hl
  obtain ⟨w, hending, hremains⟩ := runFrom_boxed hunclosed fuel (start_alike_start hunclosed)
    hcells
  obtain ⟨ρ, hρ⟩ := hremains.memory.exists_perm
  exact ⟨ρ, hending.eq_rename hρ, hremains.renamed hρ⟩

/-- A file with a function that returns a function which changes a local of the first one. -/
def counterFile : SourceFile :=
  let loc := Location.synthesized
  let var (name : String) (ty : Ty) : Expr := ⟨.var name, ty, loc⟩
  let int (n : Int64) : Expr := ⟨.literal (.int n), .int, loc⟩
  let call (name : String) (args : List Expr) (ty : Ty) : Expr :=
    ⟨.call (var name .none) (args.map (⟨none, ·⟩)), ty, loc⟩
  let sum : Expr := ⟨.binary (var "count" .int) .add (var "step" .int), .int, loc⟩
  let advance := [⟨.ret (some ⟨.assign (var "count" .int) sum, .int, loc⟩), loc⟩]
  let body := [⟨.bind "count" true .int (some (var "start" .int)), loc⟩,
    ⟨.ret (some ⟨.func ⟨none, [], .int, advance, loc⟩, .none, loc⟩), loc⟩]
  { path := "a.pl"
    stmts := [
      ⟨.func ⟨some "counter", [⟨"start", .int⟩, ⟨"step", .int⟩], .none, body, loc⟩, loc⟩,
      ⟨.bind "next" false .none (some (call "counter" [int 5, int 2] .none)), loc⟩,
      ⟨.expr (call "print" [call "next" [] .int] .none), loc⟩,
      ⟨.ret (some (var "next" .none)), loc⟩] }

theorem boxed_runOnce_renamed_counterFile :
    (∀ c, (link "main" [counterFile] []).Keeps c → c.Unclosed) ∧
      ∃ p, Program.ofLinked? (link "main" [counterFile] []) {} = some p ∧
        (∀ n ≤ 60, (runOnce p n).2.heap.cells.slots.size ≤ 2 ^ 32 ∧
          (Boxed.runOnce p n).2.heap.cells.slots.size ≤ 2 ^ 32) ∧
        (runOnce p 60).2.heap.cells.size = 2 ∧ (Boxed.runOnce p 60).2.heap.cells.size = 5 ∧
        (Boxed.runOnce p 60).2.output = #["7"] ∧
        ∃ ρ : Equiv.Perm Handle, (Boxed.runOnce p 60).1 = (runOnce p 60).1.rename ρ := by
  have hfiles : FromFiles (link "main" [counterFile] []) :=
    .link fun i hi => absurd hi List.not_mem_nil
  have hl : ∀ c, (link "main" [counterFile] []).Keeps c → c.Unclosed :=
    fun c hc => (hfiles.accepted hc).2
  have hrun : ((Program.ofLinked? (link "main" [counterFile] []) {}).map fun p =>
      ((runOnce p 60).2.heap.cells.size, (Boxed.runOnce p 60).2.heap.cells.size,
        (runOnce p 60).2.output, decide (∀ n ≤ 60,
          (runOnce p n).2.heap.cells.slots.size ≤ 2 ^ 32 ∧
            (Boxed.runOnce p n).2.heap.cells.slots.size ≤ 2 ^ 32))) =
      some (2, 5, #["7"], true) := by
    decide +kernel
  obtain ⟨p, hp, hrun⟩ := Option.map_eq_some_iff.mp hrun
  have hcells := of_decide_eq_true (congrArg (·.2.2.2) hrun)
  obtain ⟨ρ, hending, hremains⟩ := boxed_runOnce_renamed hp hl hcells
  have houtput : (runOnce p 60).2.output = #["7"] := congrArg (·.2.2.1) hrun
  exact ⟨hl, p, hp, hcells, congrArg (·.1) hrun, congrArg (·.2.1) hrun,
    hremains.output.trans houtput, ρ, hending⟩

/-! ## When the handles run out -/

/-- Binds a local to `true`, and then to `false` until it reads `true`. -/
def rebindingCode : Chunk Value where
  name := "main"
  symbol := .value "main" "main"
  code := #[2, 7, 0, 3, 7, 0, 5, 0, 43, 248, 255, 1, 22]

def rebinding : Program where
  name := "main"
  main := rebindingCode
  modules := (Linked.mk { name := "main", main := some rebindingCode } []).modules
  types := ⟨Standard.arrayType, Standard.dictionaryType⟩
  limits := {}

def rebindingAt (next current : Nat) (stack : Array Value) (cells : Arena Value)
    (locals : Array Slot) : State where
  stack := stack
  frame := ⟨plainClosure rebindingCode rebindingCode.symbol, next, 0, locals⟩
  heap := { rebinding.heap with cells }
  current := current

section Rounds

variable {t : State} {i : Instruction} {current next : Nat} {stack : Array Value} {a : Arena Value}
  {locals : Array Slot} {x : Slot}

theorem runFrom_step (hi : Instruction.decode? rebindingCode.code next = some i)
    (hret : i.opcode ≠ .ret)
    (hx : execute rebinding i (rebindingAt (next + i.size) next stack a locals) = .ok () t)
    (n : Nat) : runFrom rebinding (rebindingAt next current stack a locals) (n + 1) =
      runFrom rebinding t n := by
  have hstep : step rebinding (rebindingAt next current stack a locals) = .ok none t := by
    rw [step_of_decode? (s := rebindingAt next current stack a locals) hi, if_neg hret]
    exact bind_of_ok hx
  rw [runFrom, hstep]

theorem Boxed.runFrom_step (hi : Instruction.decode? rebindingCode.code next = some i)
    (hret : i.opcode ≠ .ret)
    (hx : Boxed.execute rebinding i (rebindingAt (next + i.size) next stack a locals) = .ok () t)
    (n : Nat) : Boxed.runFrom rebinding (rebindingAt next current stack a locals) (n + 1) =
      Boxed.runFrom rebinding t n := by
  have hfetch := fetch_of_decode? (s := rebindingAt next current stack a locals) hi
  have hstep : Boxed.step rebinding (rebindingAt next current stack a locals) = .ok none t := by
    rw [Boxed.step, bind_of_ok hfetch, if_neg hret]
    exact bind_of_ok hx
  rw [Boxed.runFrom, hstep]

theorem runFrom_rebind (v : Value) (n : Nat) :
    runFrom rebinding (rebindingAt 3 current #[] a #[.value v]) (n + 2) =
      runFrom rebinding (rebindingAt 6 4 #[] a #[.value (.bool false)]) n :=
  (runFrom_step (t := rebindingAt 4 3 #[.bool false] a #[.value v]) (i := ⟨.pushFalse, ()⟩) rfl
    nofun rfl _).trans (runFrom_step (i := ⟨.defineLocal, (0 : UInt8)⟩) rfl nofun rfl _)

theorem runFrom_rounds (k : Nat) : ∀ {current : Nat} (v : Value),
    (runFrom rebinding (rebindingAt 3 current #[] a #[.value v]) (4 * k + 2)).1 = .unfinished := by
  induction k with
  | zero =>
    intro current v
    exact congrArg Prod.fst (runFrom_rebind v 0)
  | succ k ih =>
    intro current v
    have hround : runFrom rebinding (rebindingAt 3 current #[] a #[.value v]) (4 * k + 2 + 4) =
        runFrom rebinding (rebindingAt 3 8 #[] a #[.value (.bool false)]) (4 * k + 2) :=
      (runFrom_rebind v _).trans ((runFrom_step (t := rebindingAt 8 6 #[.bool false] a
        #[.value (.bool false)]) (i := ⟨.getLocal, (0 : UInt8)⟩) rfl nofun rfl _).trans
        (runFrom_step (i := ⟨.jumpIfFalse, (-8 : Int16)⟩) rfl nofun rfl _))
    rw [Nat.mul_succ, Nat.add_right_comm, hround]
    exact ih _

theorem Boxed.runFrom_round {b : Bool} (n : Nat)
    (hb : (a.insert (.bool false)).2.get? (a.insert (.bool false)).1 = some (.bool b)) :
    Boxed.runFrom rebinding (rebindingAt 3 current #[] a #[x]) (n + 4) =
      Boxed.runFrom rebinding (rebindingAt (if b then 11 else 3) 8 #[] (a.insert (.bool false)).2
        #[.cell (a.insert (.bool false)).1]) n := by
  refine (runFrom_step (t := rebindingAt 4 3 #[.bool false] a #[x]) (i := ⟨.pushFalse, ()⟩) rfl
    nofun rfl _).trans ((runFrom_step (t := rebindingAt 6 4 #[] (a.insert (.bool false)).2
      #[.cell (a.insert (.bool false)).1]) (i := ⟨.defineLocal, (0 : UInt8)⟩) rfl nofun rfl _).trans
        ?_)
  generalize (a.insert (.bool false)).2 = a' at hb ⊢
  generalize (a.insert (.bool false)).1 = c at hb ⊢
  have hlocal : getLocal 0 (rebindingAt 8 6 #[] a' #[.cell c]) = .ok (.bool b) _ := readCell_run hb
  have hexecute : Machine.execute rebinding ⟨.getLocal, (0 : UInt8)⟩
      (rebindingAt 8 6 #[] a' #[.cell c]) = push rebinding (.bool b) _ := bind_of_ok hlocal
  have hread : Boxed.execute rebinding ⟨.getLocal, (0 : UInt8)⟩
      (rebindingAt 8 6 #[] a' #[.cell c]) = .ok () (rebindingAt 8 6 #[.bool b] a' #[.cell c]) := by
    rw [Boxed.execute_eq _ (by simp), get_bind]
    exact bind_of_ok (hexecute.trans rfl)
  refine (runFrom_step (i := ⟨.getLocal, (0 : UInt8)⟩) rfl nofun hread _).trans ?_
  cases b <;> exact runFrom_step (i := ⟨.jumpIfFalse, (-8 : Int16)⟩) rfl nofun rfl _

/-- The cells of the machine that boxes after so many rounds. -/
def rebindingCells (k : Nat) : Arena Value :=
  ⟨#[⟨0, some (.bool true)⟩] ++ Array.replicate k ⟨0, some (.bool false)⟩, [], k + 1⟩

theorem insert_rebindingCells (k : Nat) : (rebindingCells k).insert (.bool false) =
    (⟨UInt32.ofNat (k + 1), 0⟩, rebindingCells (k + 1)) := by
  simp [Arena.insert, rebindingCells, Array.replicate_succ, Nat.add_comm 1 k, ← Array.push_append]

/-- The last handle is that of the first cell again. -/
theorem get?_rebindingCells {k : Nat} (hpos : 0 < k) (hk : k ≤ 2 ^ 32) :
    (rebindingCells k).get? ⟨UInt32.ofNat k, 0⟩ = some (.bool (decide (k = 2 ^ 32))) := by
  rw [Arena.get?_eq_some_iff, UInt32.toNat_ofNat']
  by_cases hlast : k = 2 ^ 32
  · have hi : k % 2 ^ 32 = 0 := by omega
    rw [decide_eq_true hlast, hi]
    exact Array.getElem?_append_left Nat.one_pos
  · rw [decide_eq_false hlast, Nat.mod_eq_of_lt (by omega)]
    refine (Array.getElem?_append_right hpos).trans ?_
    rw [Array.getElem?_replicate, if_pos]
    exact Nat.sub_lt hpos Nat.one_pos

theorem Boxed.runFrom_rounds {k : Nat} (hk : k ≤ 2 ^ 32) : ∀ n, ∃ current x',
    Boxed.runFrom rebinding (rebindingAt 3 1 #[] (rebindingCells 0) #[x]) (4 * k + n) =
      Boxed.runFrom rebinding
        (rebindingAt (if k = 2 ^ 32 then 11 else 3) current #[] (rebindingCells k) #[x']) n := by
  induction k with
  | zero => exact fun n => ⟨1, x, by rw [Nat.mul_zero, Nat.zero_add]; rfl⟩
  | succ k ih =>
    intro n
    obtain ⟨current, x', hrun⟩ := ih (by omega) (n + 4)
    have hround := @runFrom_round current (rebindingCells k) x' _ n
      (by rw [insert_rebindingCells]; exact get?_rebindingCells (Nat.succ_pos k) hk)
    rw [if_neg (by omega)] at hrun
    rw [insert_rebindingCells] at hround
    refine ⟨8, .cell ⟨UInt32.ofNat (k + 1), 0⟩, ?_⟩
    rw [Nat.mul_succ, Nat.add_assoc, Nat.add_comm 4 n, hrun, hround]
    simp only [decide_eq_true_eq]

end Rounds

/-- With more cells than handles, a local of the machine that boxes is read from the cell of an
earlier one. -/
theorem boxed_runOnce_differs : ∃ (l : Linked) (p : Program) (fuel : Nat),
    Program.ofLinked? l {} = some p ∧ (∀ c, l.Keeps c → c.Unclosed) ∧
    ∀ ρ : Equiv.Perm Handle, (Boxed.runOnce p fuel).1 ≠ (runOnce p fuel).1.rename ρ := by
  obtain ⟨k, hk⟩ : ∃ k, k = 2 ^ 32 := ⟨_, rfl⟩
  refine ⟨.mk { name := "main", main := some rebindingCode } [], rebinding, 4 * k + 2 + 2, rfl,
    ?_, fun ρ => ?_⟩
  · have hcode : rebindingCode.Unclosed := fun v hv => absurd hv (Array.not_mem_empty v)
    rintro c (hc | ⟨m, hm, s, hc⟩)
    · cases hc
      exact hcode
    · rw [Linked.modules, Linked.modulesOf, List.mem_singleton] at hm
      subst hm
      rcases hc with hc | hc <;> cases hc
  · have hlazy : (runOnce rebinding (4 * k + 2 + 2)).1 = .unfinished := by
      have hstart : runOnce rebinding (4 * k + 2 + 2) =
          runFrom rebinding (rebindingAt 3 1 #[] {} #[.value (.bool true)]) (4 * k + 2) :=
        (@runFrom_step (rebindingAt 1 0 #[.bool true] {} #[]) ⟨.pushTrue, ()⟩ 0 0 #[] {} #[] rfl
          (by decide) rfl _).trans
        (runFrom_step (i := ⟨.defineLocal, (0 : UInt8)⟩) rfl (by decide) rfl _)
      rw [hstart, runFrom_rounds]
    have hboxed : (Boxed.runOnce rebinding (4 * k + 2 + 2)).1 = .value .none := by
      have hstart : Boxed.runOnce rebinding (4 * k + 2 + 2) = Boxed.runFrom rebinding
          (rebindingAt 3 1 #[] (rebindingCells 0) #[.cell ⟨0, 0⟩]) (4 * k + 2) :=
        (@Boxed.runFrom_step (rebindingAt 1 0 #[.bool true] {} #[]) ⟨.pushTrue, ()⟩ 0 0 #[] {} #[]
          rfl (by decide) rfl _).trans
        (Boxed.runFrom_step (i := ⟨.defineLocal, (0 : UInt8)⟩) rfl (by decide) rfl _)
      obtain ⟨current, x, hrounds⟩ := Boxed.runFrom_rounds (x := .cell ⟨0, 0⟩) hk.le 2
      rw [hstart, hrounds, if_pos hk, Boxed.runFrom_step (t := rebindingAt 12 11 #[.none] _ _)
        (i := ⟨.pushNone, ()⟩) rfl (by decide) rfl 1]
      generalize rebindingCells k = a
      have hstep : Boxed.step rebinding (rebindingAt 12 11 #[.none] a #[x]) =
          .ok (some .none) (rebindingAt 13 12 #[] a #[x]) :=
        bind_of_ok (fetch_of_decode? (i := ⟨.ret, ()⟩) rfl)
      rw [Boxed.runFrom, hstep]
    rw [hlazy, hboxed]
    intro h
    cases h

end Machine

end StackCode
