import StackCode.Proofs.Bindings

/-! # Cases of enums with all their values

In every state of a run, a case of an enum has either none of its values or as many as the enum
declares for it. So a value that a pattern takes out of a case is always there.
-/

namespace StackCode

/-- The cases in a value are declared, and have all the values that they take or none of them. -/
def Value.Whole (enum? : Symbol → Option EnumType) (v : Value) : Prop :=
  ∀ c : EnumCase Value, Value.Inside (.enumCase c) v → c.Whole enum?

namespace Machine

open Linking

inductive State.Stores (s : State) : Value → Prop where
  | stack {v : Value} (h : v ∈ s.stack) : Stores s v
  | slot {f : Frame} {n : Nat} {v : Value} (hf : f = s.frame ∨ f ∈ s.callers)
      (h : f.slot n = .value v) : Stores s v
  | cell {c : Handle} {v : Value} (h : s.heap.cells.get? c = some v) : Stores s v
  | field {ref : Handle} {object : Object} {v : Value} (ho : s.heap.objects.get? ref = some object)
      (h : some v ∈ object.fields) : Stores s v
  | element {b : Handle} {block : Block} {v : Value} (hb : s.heap.blocks.get? b = some block)
      (h : some v ∈ block) : Stores s v
  | moduleValue {k : Symbol} {v : Value} (h : s.values.get? k = some v) : Stores s v

variable {strict : Prop} {enum? : Symbol → Option EnumType} {p : Program} {s : State} {v : Value}

theorem Sane.whole (h : Sane True enum? p v) : v.Whole enum? :=
  fun _ hc => h _ hc trivial

theorem Steady.sane (h : Steady strict enum? p s) (hv : s.Stores v) :
    Sane strict enum? p v := by
  cases hv with
  | stack hv => exact h.holds.stack v hv
  | slot hf hv =>
    rcases hf with rfl | hf
    · exact h.running.slots _ v hv
    · exact (h.waiting _ hf).slots _ v hv
  | cell hc => exact h.holds.heap.cells.get? hc
  | field ho hv => exact (h.holds.heap.objects.get? ho).1 v hv
  | element hb hv => exact h.holds.heap.blocks.get? hb v hv
  | moduleValue hv => exact h.holds.values _ v hv

theorem Grounded.whole {c : Chunk Value} (h : Grounded True enum? p c) (hv : v ∈ c.constants) :
    v.Whole enum? := by
  obtain ⟨space, literals, K, hK⟩ := h.explained
  have hsane : Sane True enum? p v := by
    refine sane_of_plain (h.constants v hv) fun _ case hcase => ?_
    obtain ⟨t, decl, ht, hdecl⟩ := hK.follows.declares trivial case (hcase ▸ hv)
    exact ⟨t, decl, hK.enums trivial _ _ ht, hdecl⟩
  exact hsane.whole

theorem length_of_isCase {owner : Symbol} {number : UInt8} {w : Value}
    (hw : isCase owner number w = true) (hwhole : w.Whole enum?) :
    ∃ c, w = .enumCase c ∧ ∃ t case, enum? owner = some t ∧ t.cases[number.toNat]? = some case ∧
      c.values.length = case.values.length := by
  cases w with
  | enumCase c =>
    simp only [isCase, Bool.and_eq_true, beq_iff_eq, Bool.not_eq_true'] at hw
    obtain ⟨⟨rfl, hindex⟩, hcomplete⟩ := hw
    obtain ⟨⟨t, case, ht, hcase, harity⟩, hvalues⟩ := hwhole c .self
    rw [hindex, UInt8.toNat_toUInt32] at hcase
    refine ⟨c, rfl, t, case, ht, hcase, harity ▸ ?_⟩
    rcases hvalues with hnil | hlen
    -- Without values it would be a constructor, unless it takes none.
    · simp only [EnumCase.isConstructor, hnil, List.isEmpty_nil, Bool.and_true,
        decide_eq_false_iff_not] at hcomplete
      rw [hnil, List.length_nil]
      rw [gt_iff_lt, UInt8.lt_iff_toNat_lt] at hcomplete
      exact (Nat.eq_zero_of_not_pos hcomplete).symm
    · exact hlen
  | _ => cases hw

/-- The value that an instruction takes out of a case is there. -/
theorem Steady.associated (h : Steady True enum? p s) {n : UInt8}
    (hi : Instruction.decode? s.frame.chunk.code s.frame.next = some ⟨.getAssociated, n⟩) :
    ∃ c w, s.stack.back? = some (.enumCase c) ∧ c.values[n.toNat]? = some w := by
  obtain ⟨space, literals, K, k, hK, hneeds, -, hfacts⟩ := h.running.instruction hi
  have hfacts := hfacts _ rfl
  obtain ⟨slot, path, owner, number, t, case, hlocal, hload, hpass, ht, hcase, hn⟩ := hneeds trivial
  have hfixed : Fixed True s.frame.chunk slot := ⟨trivial, hlocal⟩
  obtain ⟨w, hw, htop⟩ := hfacts _ hload hfixed
  obtain ⟨w', hw', hpassed⟩ := hfacts _ hpass hfixed
  cases hw.unique hw'
  have hwhole : w.Whole enum? := (h.holds.stack w (Array.mem_of_back? htop)).whole
  obtain ⟨c, rfl, t', case', ht', hcase', hlen⟩ := length_of_isCase hpassed hwhole
  cases (hK.enums trivial _ _ ht).symm.trans ht'
  cases hcase.symm.trans hcase'
  exact ⟨c, _, htop, List.getElem?_eq_getElem (by omega)⟩

theorem step_getAssociated {n : UInt8} {c : EnumCase Value} {w : Value}
    (hi : Instruction.decode? s.frame.chunk.code s.frame.next = some ⟨.getAssociated, n⟩)
    (hc : s.stack.back? = some (.enumCase c)) (hw : c.values[n.toNat]? = some w)
    (hsize : s.stack.size ≤ p.limits.maxStack) : ∃ s', step p s = .ok none s' := by
  have hpop : pop (s.fetched ⟨.getAssociated, n⟩) = .ok (.enumCase c)
      { s.fetched ⟨.getAssociated, n⟩ with stack := s.stack.pop } := by
    have hback : (s.fetched ⟨.getAssociated, n⟩).stack.back? = some (.enumCase c) := hc
    unfold pop
    rw [hback]
    rfl
  have hpart : ∀ t : State, associated n (.enumCase c) t = .ok w t := by
    intro t
    have hrun : associated n (.enumCase c) t = Exec.ofOption c.values[n.toNat]? _ t := rfl
    rw [hrun, hw]
    rfl
  have hroom : s.stack.pop.size < p.limits.maxStack := by
    have hpos : 0 < s.stack.size := by
      rcases Nat.eq_zero_or_pos s.stack.size with hz | hz
      · rw [Array.size_eq_zero_iff.mp hz] at hc
        cases hc
      · exact hz
    rw [Array.size_pop]
    omega
  have hrun : execute p ⟨.getAssociated, n⟩ (s.fetched ⟨.getAssociated, n⟩) =
      push p w { s.fetched ⟨.getAssociated, n⟩ with stack := s.stack.pop } :=
    (bind_of_ok hpop).trans (bind_of_ok (hpart _))
  rw [push, if_pos hroom] at hrun
  have hstep : step p s = (do execute p ⟨.getAssociated, n⟩; return none : Exec (Option Value))
      (s.fetched ⟨.getAssociated, n⟩) := step_of_decode? hi
  exact ⟨_, hstep.trans (bind_of_ok hrun)⟩

/-- A module that is compiled without problems gives a program that keeps the cases of enums whole,
provided that this is so for its imports, that modules of the same name are the same, that no two
bodies of one of them have the same symbol, and that no file uses the name that stands for the
subject of a choice. Every case in a constant, in a value that a state of a run holds or in the
result has none of its values or as many as are declared for its enum and index. Whatever value an
instruction takes out of a case is there. -/
theorem runs_keep_cases_whole {module : String} {files : List SourceFile} {imports : List Linked}
    {limits : Limits} (hd : (link module files imports).module.diagnostics = [])
    (hdistinct : Distinct module files imports) (hfiles : FilesApart True files)
    (himports : ∀ i ∈ imports, Separate (FilesApart True) i)
    (hagree : Agree (link module files imports).modules) :
    ∃ p, Program.ofLinked? (link module files imports) limits = some p ∧
      (∀ c, (link module files imports).Keeps c → ∀ v ∈ c.constants,
        v.Whole (link module files imports).enumType?) ∧
      ∀ s heights, Reaches p s heights →
        (∀ v, s.Stores v → v.Whole (link module files imports).enumType?) ∧
        (∀ v s', step p s = .ok (some v) s' → v.Whole (link module files imports).enumType?) ∧
        ∀ n : UInt8, Instruction.decode? s.frame.chunk.code s.frame.next =
          some ⟨.getAssociated, n⟩ → ∃ s', step p s = .ok none s' := by
  have hl : Separate (FilesApart True) (link module files imports) :=
    .link hd hdistinct hfiles himports
  obtain ⟨-, main, hmain⟩ := compiles_of_diagnostics hd
  obtain ⟨p, hp, -⟩ := Program.exists_ofLinked? (link_main.trans hmain) hd limits
  have hmodules := (Program.ofLinked?_eq_some hp).2.2
  refine ⟨p, hp, fun c hc v hv => ?_, fun s heights h => ?_⟩
  · exact (grounded_of_keeps hmodules hagree hl hc).whole hv
  · obtain ⟨hinv, hsteady⟩ := steady_of_separate hp hagree hl h
    refine ⟨fun v hv => (hsteady.sane hv).whole, fun v s' hs => ?_, fun n hi => ?_⟩
    · have hm := (hsteady.step (grounded_of_separate hp hagree hl) hinv).result
      rw [hs] at hm
      exact (hm.2.1 v rfl).whole
    · obtain ⟨c, w, hc, hw⟩ := hsteady.associated hi
      exact step_getAssociated hi hc hw hsteady.holds.room

/-! ## A choice by nested patterns -/

/-- A function that takes values out of a case in a case. -/
def areasFile : SourceFile :=
  let loc := Location.synthesized
  let shape : Ty := .enum "Shape"
  let var (name : String) (ty : Ty) : Expr := ⟨.var name, ty, loc⟩
  let call (callee : Expr) (args : List Expr) (ty : Ty) : Expr :=
    ⟨.call callee (args.map (⟨none, ·⟩)), ty, loc⟩
  let make (name : String) (args : List Expr) : Expr :=
    call ⟨.member (var "Shape" .none) name, .none, loc⟩ args shape
  let give (e : Expr) : List Stmt := [⟨.ret (some e), loc⟩]
  let product : Expr := ⟨.binary (var "r" .int) .mul (var "n" .int), .int, loc⟩
  let disc : Pattern := .case "disc" [.binding "r"]
  let arms : List Arm := [⟨disc, give (var "r" .int), loc⟩,
    ⟨.case "row" [disc, .binding "n"], give product, loc⟩]
  let choice : Stmt := ⟨.cases (var "s" shape) arms none, loc⟩
  let result := call (var "area" .none)
    [make "row" [make "disc" [⟨.literal (.int 4), .int, loc⟩],
      call (var "current" (.function [] .int)) [] .int]] .int
  { path := "main.pl"
    stmts := [⟨.enum ⟨"Shape", [⟨"disc", [.int]⟩, ⟨"row", [shape, .int]⟩], loc⟩, loc⟩,
      ⟨.func ⟨some "area", [⟨"s", shape⟩], .int, [choice], loc⟩, loc⟩,
      ⟨.func ⟨some "main", [], .int, give result, loc⟩, loc⟩] }

def areas : Linked := link "Main" [areasFile] [sizes]

theorem runs_keep_cases_whole_areas :
    areas.module.diagnostics = [] ∧ Distinct "Main" [areasFile] [sizes] ∧
      FilesApart True [areasFile] ∧ Separate (FilesApart True) sizes ∧ Agree areas.modules ∧
      ∃ p, Program.ofLinked? areas {} = some p ∧ ∀ s heights, Reaches p s heights →
        ∀ v, s.Stores v → v.Whole areas.enumType? := by
  have hareas : areas.module.diagnostics = [] := List.isEmpty_iff.mp (by decide +kernel)
  have hdistinct : Distinct "Main" [areasFile] [sizes] := by
    unfold Distinct
    decide +kernel
  have hfiles : FilesApart True [areasFile] := by
    intro file hfile _
    rw [List.mem_singleton.mp hfile]
    decide +kernel
  have hsizes : Separate (FilesApart True) sizes := by
    refine separate_sizes fun file hfile _ => ?_
    rw [List.mem_singleton.mp hfile]
    decide +kernel
  have himports : ∀ i ∈ [sizes], Separate (FilesApart True) i := by
    intro i hi
    rw [List.mem_singleton.mp hi]
    exact hsizes
  obtain ⟨p, hp, -, hstates⟩ := @runs_keep_cases_whole "Main" [areasFile] [sizes] {}
    hareas hdistinct
    hfiles himports (agree_sizes _)
  exact ⟨hareas, hdistinct, hfiles, hsizes, agree_sizes _, p, hp,
    fun s heights h => (hstates s heights h).1⟩

end Machine

end StackCode
