import StackCode.Proofs.Activations

/-! # Runs find all bindings

A module that is compiled without problems, like all that it imports, never runs into a slot, a
capture or a receiver that is missing, as long as no two bodies have the same symbol.
-/

namespace StackCode

def Instruction.reads? : Instruction → Option Nat
  | ⟨.getLocal, (n : UInt8)⟩ => some n.toNat
  | ⟨.getSelf, _⟩ => some 0
  | _ => none

namespace Machine

open Linking

section Graph

variable {strict : Prop} {p : Program} {l : Linked} {limits : Limits}

theorem steady_of_separate (hp : Program.ofLinked? l limits = some p) (hagree : Agree l.modules)
    (hl : Separate (FilesApart strict) l) {s : State} {heights : List Nat}
    (h : Reaches p s heights) :
    Invariant False p s heights ∧ Steady strict l.enumType? p s :=
  h.steady (good_of_fromFiles hp hl.fromFiles) (grounded_of_separate hp hagree hl)

end Graph

section States

variable {strict : Prop} {enum? : Symbol → Option EnumType} {p : Program} {s s' : State}
  {i : Instruction} {heights : List Nat}

theorem Steady.slot_of_reads (h : Steady strict enum? p s)
    (hi : Instruction.decode? s.frame.chunk.code s.frame.next = some i) {n : Nat}
    (hn : i.reads? = some n) : s.frame.slot n ≠ .empty := by
  obtain ⟨space, literals, K, k, -, hneeds, -, hfacts⟩ := h.running.instruction hi
  have hfacts := hfacts _ rfl
  obtain ⟨op, operand⟩ := i
  cases op
  case getLocal =>
    cases hn
    exact hfacts _ hneeds
  case getSelf =>
    cases hn
    exact hfacts _ hneeds.2
  all_goals cases hn

theorem Steady.cells (h : Steady strict enum? p s) {f : Frame} (hf : f = s.frame ∨ f ∈ s.callers) :
    f.closure.cells.size = f.chunk.captures.size := by
  rcases hf with rfl | hf
  · exact h.running.cells
  · exact (h.waiting f hf).cells

theorem Steady.receiver (hp : p.Grounded strict enum?) (h : Steady strict enum? p s)
    (hinv : Invariant False p s heights) (hs : Machine.step p s = .ok none s')
    (hcallers : s.callers.size < s'.callers.size) (hr : s'.frame.chunk.hasReceiver = true) :
    ∃ ref, s'.frame.slot 0 = .value (.object ref) := by
  obtain ⟨i, hi, hadmits⟩ := h.instruction hinv
  by_cases hret : i.opcode = .ret
  · have hm := (hinv.returns (L := False) hi h.holds hret).result
    rw [hs] at hm
    obtain ⟨f, hf, hw⟩ := hm.2.2 rfl
    rw [hw.callers, Array.size_pop] at hcallers
    omega
  · obtain ⟨j, hacts⟩ := h.step_acts hp hinv hi hadmits hret
    have hm := hacts.result
    rw [hs] at hm
    cases hm.2.1 with
    | moves _ _ hw =>
      rw [hw.callers] at hcallers
      exact absurd hcallers (Nat.lt_irrefl _)
    | enters _ _ _ he =>
      obtain ⟨g, hg, -, hw⟩ := he
      rw [hw.frame] at hr ⊢
      exact hg.receiver (congrArg Closure.chunk hg.closure ▸ hr)

theorem Steady.misses (hp : p.Grounded strict enum?) (h : Steady strict enum? p s)
    (hinv : Invariant False p s heights) {cause : Cause}
    (hs : Machine.step p s = .error (.trap cause) s') (hc : cause.Unbound) :
    ∃ type offset, cause = .ofHeapError (.noSuchProperty type offset) := by
  have hm := (h.step hp hinv).result
  rw [hs] at hm
  exact (hm.1.2 hc).resolve_left id

end States

/-- A module that is compiled without problems gives a program that finds all bindings, provided
that this is so for its imports, that modules of the same name are the same, and that no two bodies
of one of them have the same symbol. In every state that a run reaches, a slot is bound when it is
read, every closure has as many cells as its body captures, and a body with a receiver is entered
with one. No run fails for want of a binding: only the failure to find a property of a struct can
have such words, if the name of the struct ends with them. -/
theorem runs_find_bindings {module : String} {files : List SourceFile} {imports : List Linked}
    {limits : Limits} (hd : (link module files imports).module.diagnostics = [])
    (hdistinct : Distinct module files imports)
    (himports : ∀ i ∈ imports, Separate (fun _ => True) i)
    (hagree : Agree (link module files imports).modules) :
    ∃ p, Program.ofLinked? (link module files imports) limits = some p ∧
      (∀ s heights, Reaches p s heights →
        (∀ i n, Instruction.decode? s.frame.chunk.code s.frame.next = some i →
          i.reads? = some n → s.frame.slot n ≠ .empty) ∧
        (∀ f, f = s.frame ∨ f ∈ s.callers →
          f.closure.cells.size = f.chunk.captures.size) ∧
        (∀ s', step p s = .ok none s' → s.callers.size < s'.callers.size →
          s'.frame.chunk.hasReceiver = true → ∃ ref, s'.frame.slot 0 = .value (.object ref)) ∧
        ∀ cause s', step p s = .error (.trap cause) s' → cause.Unbound →
          ∃ type offset, cause = .ofHeapError (.noSuchProperty type offset)) ∧
      ∀ heap closures, Left p heap closures → ∀ fuel t,
        (run p heap closures fuel).1 = .trap t → t.cause.Unbound →
          ∃ type offset, t.cause = .ofHeapError (.noSuchProperty type offset) := by
  have hl : Separate (FilesApart False) (link module files imports) :=
    .link hd hdistinct (fun _ _ => False.elim) fun i hi =>
      (himports i hi).mono fun _ _ _ _ => False.elim
  obtain ⟨-, main, hmain⟩ := compiles_of_diagnostics hd
  obtain ⟨p, hp, -⟩ := Program.exists_ofLinked? (link_main.trans hmain) hd limits
  have hgrounded := grounded_of_separate hp hagree hl
  refine ⟨p, hp, fun s heights h => ?_, fun heap closures hleft fuel t ht hc => ?_⟩
  · obtain ⟨hinv, hsteady⟩ := steady_of_separate hp hagree hl h
    exact ⟨fun i n hi hn => hsteady.slot_of_reads hi hn, fun f hf => hsteady.cells hf,
      fun s' hs hcallers hr => hsteady.receiver hgrounded hinv hs hcallers hr,
      fun cause s' hs hc => hsteady.misses hgrounded hinv hs hc⟩
  · obtain ⟨s, heights, h, hend⟩ := (Reaches.start hleft).ends fuel
    obtain ⟨hinv, hsteady⟩ := steady_of_separate hp hagree hl h
    have hend : (run p heap closures fuel).1.Of p s := hend
    rw [ht] at hend
    obtain ⟨s', hs⟩ := hend
    exact hsteady.misses hgrounded hinv hs hc

/-! ## A closure in a module that uses another one -/

def addingFile : SourceFile :=
  let loc := Location.synthesized
  let var (name : String) (ty : Ty) : Expr := ⟨.var name, ty, loc⟩
  let call (callee : Expr) (args : List Expr) (ty : Ty) : Expr :=
    ⟨.call callee (args.map (⟨none, ·⟩)), ty, loc⟩
  let add (a b : Expr) : Expr := ⟨.binary a .add b, .int, loc⟩
  let sum := add (var "n" .int) (add (var "m" .int)
    (call (var "current" (.function [] .int)) [] .int))
  let inner : Expr := ⟨.func ⟨none, [⟨"m", .int⟩], .int, [⟨.ret (some sum), loc⟩], loc⟩, .none, loc⟩
  let result := call (call (var "adder" .none) [⟨.literal (.int 2), .int, loc⟩] .none)
    [⟨.literal (.int 3), .int, loc⟩] .int
  { path := "main.pl"
    stmts := [⟨.func ⟨some "adder", [⟨"n", .int⟩], .none, [⟨.ret (some inner), loc⟩], loc⟩, loc⟩,
      ⟨.func ⟨some "main", [], .int, [⟨.ret (some result), loc⟩], loc⟩, loc⟩] }

def adding : Linked := link "Main" [addingFile] [sizes]

theorem separate_sizes {Q : List SourceFile → Prop} (hQ : Q [sizesFile]) : Separate Q sizes := by
  have hdistinct : Distinct "Sizes" [sizesFile] [] := by
    unfold Distinct
    decide +kernel
  exact .link (List.isEmpty_iff.mp (by decide +kernel)) hdistinct hQ
    fun i hi => absurd hi List.not_mem_nil

theorem runs_find_bindings_adding :
    adding.module.diagnostics = [] ∧ Distinct "Main" [addingFile] [sizes] ∧
      Separate (fun _ => True) sizes ∧ Agree adding.modules ∧
      ∃ p, Program.ofLinked? adding {} = some p ∧ ∀ fuel t,
        (run p p.heap 0 fuel).1 = .trap t → t.cause.Unbound →
          ∃ type offset, t.cause = .ofHeapError (.noSuchProperty type offset) := by
  have hadding : adding.module.diagnostics = [] := List.isEmpty_iff.mp (by decide +kernel)
  have hdistinct : Distinct "Main" [addingFile] [sizes] := by
    unfold Distinct
    decide +kernel
  have hsizes : Separate (fun _ => True) sizes := separate_sizes trivial
  have himports : ∀ i ∈ [sizes], Separate (fun _ => True) i := by
    intro i hi
    rw [List.mem_singleton.mp hi]
    exact hsizes
  obtain ⟨p, hp, -, hrun⟩ := @runs_find_bindings "Main" [addingFile] [sizes] {} hadding hdistinct
    himports (agree_sizes _)
  exact ⟨hadding, hdistinct, hsizes, agree_sizes _, p, hp, hrun p.heap 0 .first⟩

end Machine

end StackCode
