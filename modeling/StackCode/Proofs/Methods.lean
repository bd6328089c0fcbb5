import StackCode.Proofs.Activations
import StackCode.Proofs.Origins

/-! # Methods and functions that a run can call

A run refers to a method only if a struct of its modules declares it: code names no other methods,
and values are bound to no other ones. This holds of every program, also if several of its modules
have one name. Symbols can be set apart to which no code refers but the main chunk, which calls
their bodies.
-/

namespace StackCode

def Module.Declares (k : Module) (method : Symbol) : Prop :=
  ∃ s t name, k.structs.get? s = some t ∧ t.method? name = some method

namespace Machine

open Linking Lowering

section Programs

variable (p : Program) (R : Symbol → Prop)

def Declared (method : Symbol) : Prop := ∃ k ∈ p.modules, k.Declares method

def Refers (c : Chunk Value) : Instruction → Prop
  | ⟨.getMethod, (n : UInt16)⟩ => ∀ s, c.symbol? n = some s → Declared p s
  | ⟨.invokeMethod, (n : Selector)⟩ => ∀ s, c.symbol? n.symbol = some s → Declared p s
  | ⟨.getModuleFunction, (n : UInt16)⟩ | ⟨.getModuleValue, (n : UInt16)⟩
  | ⟨.makeClosure, (n : UInt16)⟩ => ∀ s, c.symbol? n = some s → ¬ R s
  | ⟨.callChunk, (n : UInt16)⟩ => ∀ s, c.symbol? n = some s → R s →
    c = p.main ∧ s ≠ p.main.symbol
  | _ => True

structure Backed (c : Chunk Value) : Prop where
  refers : ∀ o i, c.Reaches o → c.instruction? o = some i → Refers p R c i
  constants : ∀ v ∈ c.constants, v.Plain

/-- The value leads to declared methods only, and to nothing that is set apart. -/
def Cites (v : Value) : Prop :=
  v.Throughout fun
    | .closure c => Backed p R c.chunk ∧ ¬ R c.chunk.symbol
    | .boundMethod _ method => Declared p method
    | .struct type => type.Regular
    | _ => True

structure Frame.Backed (f : Frame) : Prop where
  chunk : Machine.Backed p R f.chunk
  slots : ∀ n v, f.slot n = .value v → Cites p R v

def State.bodies (s : State) : Array (Chunk Value) := (s.callers.push s.frame).map (·.chunk)

/-- The main chunk runs in the outermost frame only, and what is set apart in the one that it
calls. -/
structure InFront (cs : Array (Chunk Value)) : Prop where
  main : ∀ k c, cs[k + 1]? = some c → c ≠ p.main
  called : ∀ k c, cs[k + 2]? = some c → ¬ R c.symbol

/-- All that the state holds leads to declared methods only, and to nothing that is set apart. -/
structure State.Backed (s : State) : Prop where
  holds : Holds p (Cites p R) s
  running : s.frame.Backed p R
  waiting : ∀ f ∈ s.callers, f.Backed p R
  inFront : R p.main.symbol → InFront p R s.bodies

structure Program.Backed : Prop where
  main : Machine.Backed p R p.main
  chunk : ∀ s c, p.chunk? s = some c → c.symbol = s ∧ Machine.Backed p R c
  initializer : ∀ s c, p.initializer? s = some c → c.symbol = s ∧ Machine.Backed p R c
  struct : ∀ s t, p.structType? s = some t → t.Regular
  declared : ∀ s, Declared p s → s.IsMethod
  method : ∀ s, s.IsMethod → ¬ R s

end Programs

variable {p : Program} {R : Symbol → Prop} {s : State} {i : Instruction}

/-! ## One step -/

theorem cites_of_data (v : Value) (h : v.Data) : Cites p R v := by
  cases v with
  | closure _ | struct _ | boundMethod _ _ | enumCase _ => cases h
  | _ => trivial

theorem cites_of_plain {v : Value} (h : v.Plain) : Cites p R v := by
  refine throughout_of_plain (fun w hw => ?_) h
  cases w with
  | closure _ | boundMethod _ _ | struct _ => exact hw.elim
  | _ => trivial

variable {f : Frame}

theorem yields_of_backed (hp : p.Backed R) (h : f.Backed p R) (hi : Refers p R f.chunk i) :
    Yields p f i (Cites p R) := by
  have hfunction : ∀ (c : Closure Value) symbol, p.chunk? symbol = some c.chunk → ¬ R symbol →
      Cites p R (.closure c) := by
    intro c symbol hc hs
    obtain ⟨rfl, hbacked⟩ := hp.chunk _ _ hc
    exact ⟨hbacked, hs⟩
  exact {
    data := cites_of_data
    slot := h.slots
    constant := fun _ _ _ hv => cites_of_plain (h.chunk.constants _ (Array.mem_of_getElem? hv))
    part := fun _ v hc hv => Value.throughout_enumCase.mp hc v hv
    complete := fun _ _ _ _ hv => Value.throughout_enumCase.mpr hv
    function := fun _ symbol c he hs hc => hfunction (plainClosure c symbol) symbol hc (by
      subst he
      exact hi symbol hs)
    struct := fun _ _ _ _ _ ht => hp.struct _ _ ht
    method := fun _ symbol _ he hs => by
      subst he
      exact hi symbol hs
    closure := fun _ symbol _ _ _ he hs hc _ => hfunction _ symbol hc (by
      subst he
      exact hi symbol hs) }

/-- What is entered, and that only the main chunk enters what is set apart. -/
theorem backed_of_callee (hp : p.Backed R) (hi : Refers p R f.chunk i) {c : Closure Value}
    (h : Callee p (Cites p R) f i c) : Backed p R c.chunk ∧
      (R c.chunk.symbol → f.chunk = p.main ∧ c.chunk.symbol ≠ p.main.symbol) := by
  cases h with
  | closure h => exact ⟨h.1, fun hr => absurd hr h.2⟩
  | method h hc =>
    obtain ⟨rfl, hbacked⟩ := hp.chunk _ _ hc
    exact ⟨hbacked, fun hr => absurd hr (hp.method _ (hp.declared _ h))⟩
  | initializer h _ hs hc =>
    obtain ⟨rfl, hbacked⟩ := hp.chunk _ _ hc
    exact ⟨hbacked, fun hr => absurd hr (hp.method _ (h.initializer _ hs))⟩
  | invoked hs hc =>
    obtain ⟨rfl, hbacked⟩ := hp.chunk _ _ hc
    exact ⟨hbacked, fun hr => absurd hr (hp.method _ (hp.declared _ (hi _ hs)))⟩
  | chunk hs hc =>
    obtain ⟨rfl, hbacked⟩ := hp.chunk _ _ hc
    exact ⟨hbacked, hi _ hs⟩
  | value hs hc =>
    obtain ⟨rfl, hbacked⟩ := hp.initializer _ _ hc
    exact ⟨hbacked, fun hr => absurd hr (hi _ hs)⟩

theorem Started.backed {c : Closure Value} {g : Frame} (h : Started (Cites p R) c g)
    (hc : Backed p R c.chunk) : g.Backed p R := by
  refine ⟨?_, h.values⟩
  rw [Frame.chunk, h.closure]
  exact hc

theorem Moves.backed {g : Frame} (h : s.frame.Backed p R) (hm : Moves p (Cites p R) s i g) :
    g.Backed p R := by
  exact ⟨hm.chunk ▸ h.chunk, hm.values h.slots⟩

theorem State.bodies_top (s : State) : s.bodies[s.callers.size]? = some s.frame.chunk := by
  rw [bodies, Array.getElem?_map, Array.getElem?_push_size]
  rfl

theorem InFront.enters {c : Chunk Value} (h : InFront p R s.bodies) (hmain : R p.main.symbol)
    (hc : R c.symbol → s.frame.chunk = p.main ∧ c.symbol ≠ p.main.symbol) :
    InFront p R (s.bodies.push c) := by
  have hsize : s.bodies.size = s.callers.size + 1 := by simp [State.bodies]
  have htop := s.bodies_top
  refine ⟨fun k d hd => ?_, fun k d hd hr => ?_⟩
  · rw [Array.getElem?_push] at hd
    split at hd
    · cases hd
      rintro rfl
      exact (hc hmain).2 rfl
    · exact h.main k d hd
  · rw [Array.getElem?_push] at hd
    split at hd
    · cases hd
      refine h.main k _ ?_ (hc hr).1
      rwa [show s.callers.size = k + 1 by omega] at htop
    · exact h.called k d hd hr

namespace State.Backed

theorem refers (h : s.Backed p R) {heights : List Nat} (hinv : Invariant False p s heights)
    (hi : Instruction.decode? s.frame.chunk.code s.frame.next = some i) :
    Refers p R s.frame.chunk i := by
  obtain ⟨j, hdecode, hreach, hj, -⟩ := hinv.fetches
  cases hi.symm.trans hdecode
  exact h.running.chunk.refers _ i hreach hj

theorem outcome (hp : p.Backed R) (h : s.Backed p R) (hi : Refers p R s.frame.chunk i) {s' : State}
    {j : Nat} (ho : Outcome ⟨p, Cites p R, False, 0⟩ j (s.fetched i) i s') : s'.Backed p R := by
  have hrunning : (s.fetched i).frame.Backed p R := ⟨h.running.chunk, h.running.slots⟩
  cases ho with
  | moves hm _ hw =>
    refine ⟨hw.toHolds, hw.frame ▸ hm.backed hrunning, fun f hf => ?_, fun hr => ?_⟩
    · rw [hw.callers] at hf
      exact h.waiting f hf
    · have hbodies : s'.bodies = s.bodies := by
        simp only [State.bodies, hw.callers, hw.frame, Array.map_push, hm.chunk]
        rfl
      exact hbodies ▸ h.inFront hr
  | enters hc _ _ he =>
    obtain ⟨g, hg, -, hw⟩ := he
    obtain ⟨hbacked, hfront⟩ := backed_of_callee (f := (s.fetched i).frame) hp hi hc
    refine ⟨hw.toHolds, hw.frame ▸ hg.backed hbacked, fun f hf => ?_, fun hr => ?_⟩
    · rw [hw.callers] at hf
      rcases Array.mem_push.mp hf with hf | rfl
      · exact h.waiting f hf
      · exact hrunning
    · have hbodies : s'.bodies = s.bodies.push g.chunk := by
        simp only [State.bodies, hw.callers, hw.frame, Array.map_push]
        rfl
      rw [hbodies, Frame.chunk, hg.closure]
      exact (h.inFront hr).enters hr hfront

theorem returned (h : s.Backed p R) {s' : State} {f : Frame} {j : Nat}
    (hf : s.callers.back? = some f) (hw : Held ⟨p, Cites p R, False, 0⟩ j s.callers.pop f s') :
    s'.Backed p R := by
  refine ⟨hw.toHolds, hw.frame ▸ h.waiting f (Array.mem_of_back? hf), fun g hg => ?_, fun hr => ?_⟩
  · rw [hw.callers] at hg
    exact h.waiting g (mem_of_mem_pop hg)
  · have hbodies : s.bodies = s'.bodies.push s.frame.chunk := by
      have hpush : s.callers.pop.push f = s.callers := by grind
      rw [State.bodies, State.bodies, hw.callers, hw.frame, hpush, Array.map_push]
    have hfront := h.inFront hr
    rw [hbodies] at hfront
    refine ⟨fun k c hc => hfront.main k c ?_, fun k c hc => hfront.called k c ?_⟩
    all_goals
      obtain ⟨hlt, -⟩ := Array.getElem?_eq_some_iff.mp hc
      rw [Array.getElem?_push_lt hlt, ← Array.getElem?_eq_getElem hlt, hc]

end State.Backed

theorem backed_kept (hp : p.Backed R) : Keeps p (Cites p R) (State.Backed p R) := by
  intro s heights hinv h
  refine ⟨h.holds.heap, ?_⟩
  obtain ⟨i, hi, -⟩ := hinv.fetches
  by_cases hret : i.opcode = .ret
  · have hacts := hinv.returns (L := True) hi h.holds hret
    refine hacts.result.mono (fun r s' hr => ⟨hr.1, fun hn => ?_⟩) fun _ _ => And.right
    obtain ⟨f, hf, hw⟩ := hr.2.2 hn
    exact h.returned hf hw
  · have hrefers := h.refers hinv hi
    have hyields : Yields p (s.fetched i).frame i (Cites p R) :=
      yields_of_backed hp ⟨h.running.chunk, h.running.slots⟩ hrefers
    obtain ⟨j, hacts⟩ := hinv.outcome hi h.holds hret hyields
    refine hacts.result.mono (fun r s' hr => ?_) fun _ _ => And.right
    have hs := h.outcome hp hrefers hr.2.1
    exact ⟨hs.holds.heap, fun _ => hs⟩

/-! ## Runs -/

theorem backed_start (hp : p.Backed R) {heap : Heap} (hheap : Kept p (Cites p R) heap)
    (closures : Nat) : (start p heap closures).Backed p R := by
  have hslots : ∀ n v, (start p heap closures).frame.slot n = .value v → Cites p R v := by
    intro n v hv
    cases (slot_enter _ 0 n).symm.trans hv
  exact {
    holds := {
      stack := fun v hv => absurd hv (Array.not_mem_empty v)
      heap := hheap
      values := nofun
      room := Nat.zero_le _ }
    running := ⟨hp.main, hslots⟩
    waiting := fun f hf => absurd hf (Array.not_mem_empty f)
    inFront := fun _ => by constructor <;> simp [State.bodies, start] }

/-- In every state that a run reaches, only declared methods are referred to, and nothing that is
set apart. -/
theorem Reaches.backed (hgood : p.Good False) (hp : p.Backed R) {heights : List Nat}
    (h : Reaches p s heights) : Invariant False p s heights ∧ s.Backed p R :=
  (backed_kept hp).reaches hgood (fun _ closures hh => backed_start hp hh closures) h

/-! ## Programs -/

/-- Symbols can be set apart if they have the names of files or the like and no function is exported
under them. No start but that of the whole graph calls them. -/
structure SetApart (l : Linked) (R : Symbol → Prop) : Prop where
  bracketed : ∀ s, R s → ∃ module text, s = .function module (text ++ ">") []
  exported : ∀ m ∈ l.modules, ∀ name s, m.exports.get? name = some (.function s) → ¬ R s
  called : ∀ m ∈ l.modules, ∀ path, R (fileSymbol m.name path) → m.main = l.module.main

theorem setApart_none (l : Linked) : SetApart l fun _ => False :=
  ⟨fun _ => False.elim, fun _ _ _ _ _ => id, fun _ _ _ => False.elim⟩

section Graph

variable {l : Linked} (hp : p.modules = l.modules) (hl : FromFiles l) (hR : SetApart l R)
  {module : String} {files : List SourceFile} {imports : List Linked}
  (hsub : (link module files imports).modules ⊆ l.modules) {c : Chunk Value}

include hl in
theorem value_of_export {m : Module} (hm : m ∈ l.modules) {name : String} {s : Symbol}
    (h : m.exports.get? name = some (.value s)) : ∃ module, s = .value module name := by
  rcases hl.of_mem_modules hm with rfl | ⟨module, files, imports, rfl, -⟩
  · cases (Standard.complete_module.value name s h).2
  · obtain ⟨t, -, hdecl, -⟩ := exists_last_of_export h
    rcases TopLevel.declared?_cases hdecl with
      ⟨_, -, -, he⟩ | ⟨_, _, _, -, he⟩ | ⟨_, -, -, he⟩ | ⟨_, he⟩ <;> cases he
    exact ⟨module, rfl⟩

include hp hl hR hsub

theorem refers_of_means {body : Nest} (h : body.Sound (declarations module files imports).space)
    (hm : Means (declarations module files imports).space body.chunk body.literals i) :
    Refers p R body.chunk i := by
  obtain ⟨op, operand⟩ := i
  cases op
  case getMethod | invokeMethod =>
    obtain ⟨symbol, hs, ty, t, name, ht, hfound⟩ := hm
    intro method hmethod
    cases hs.symm.trans hmethod
    obtain ⟨k, hk, owner, hget⟩ := exists_struct_of_structOf? ht
    exact ⟨k, hp ▸ hsub hk, owner, t, name, hget, hfound⟩
  case getModuleFunction =>
    obtain ⟨symbol, hs, name, hr⟩ := hm
    intro s hs'
    cases hs.symm.trans hs'
    obtain ⟨m, hm, he⟩ := exists_export hsub hr
    exact hR.exported m hm name _ he
  case getModuleValue =>
    obtain ⟨symbol, hs, name, hr⟩ := hm
    intro s hs' hreserved
    cases hs.symm.trans hs'
    obtain ⟨m, hm, he⟩ := exists_export hsub hr
    obtain ⟨_, rfl⟩ := value_of_export hl hm he
    obtain ⟨_, _, he⟩ := hR.bracketed _ hreserved
    cases he
  case makeClosure =>
    obtain ⟨symbol, hs, t, ht, rfl⟩ := hm
    intro s hs' hr
    cases hs.symm.trans hs'
    obtain ⟨k, hk⟩ := List.mem_iff_getElem?.mp ht
    obtain ⟨other, text, he⟩ := hR.bracketed _ hr
    have hbuilt := h.built k t hk
    cases hbuilt with
    | node _ hsymbol _ _ =>
      exact Origin.numbered_ne_bracketed _ _ _ (congrArg Symbol.name (hsymbol.symm.trans he))
  case callChunk => exact hm.elim
  all_goals trivial

theorem backed_of_piece {b : Piece} {r : Compiled}
    (hr : b.compile (declarations module files imports).space = .ok r)
    (hc : c ∈ r.chunk :: r.nested) : Backed p R c := by
  obtain ⟨symbol, literals, -, hof⟩ := Source.compile_eq_ok hr
  obtain ⟨body, hbody, rfl⟩ := hof.exists_holds hc
  have hsound := hof.sound.of_holds hbody
  refine ⟨fun o i ho hi => ?_, hsound.assembled.constants⟩
  by_cases hd : i.distance? = none
  · exact refers_of_means hp hl hR hsub hsound (hsound.assembled.holds.of_reaches ho hi hd)
  · obtain ⟨op, operand⟩ := i
    cases op
    case jump | jumpIfFalse | loop => trivial
    all_goals exact absurd rfl hd

omit hp hl in
theorem backed_of_start (hmain : l.module.main = some p.main)
    (hc : startChunk? module files imports = some c) : Backed p R c := by
  have hstart := mainChunk?_eq_some hc
  refine ⟨fun o i ho hi => ?_, fun v hv => ?_⟩
  · obtain ⟨op, operand⟩ := i
    cases op
    case getMethod | invokeMethod | getModuleValue | makeClosure =>
      exact (hstart.holds.of_reaches ho hi rfl).elim
    case getModuleFunction =>
      obtain ⟨symbol, hs, hat⟩ := hstart.holds.of_reaches ho hi rfl
      intro s hs'
      cases hat.symm.trans hs'
      exact hR.exported _ (hsub (Linked.module_mem_modules _)) "main" _ (exports_main hs)
    case callChunk =>
      obtain ⟨file, -, hs⟩ := hstart.holds.of_reaches ho hi rfl
      intro s hs' hr
      cases hs.symm.trans hs'
      have hown : p.main = c := by
        have hcalled := hR.called _ (hsub (Linked.module_mem_modules _)) file.path
          (link_name.symm ▸ hr)
        rw [link_main, hc, hmain] at hcalled
        exact (Option.some.inj hcalled).symm
      refine ⟨hown.symm, fun he => ?_⟩
      rw [hown, hstart.symbol] at he
      exact (Origin.symbol_eq_main_iff (o := .file file.path) nofun).mp he
    all_goals trivial
  · rw [hstart.constants] at hv
    exact absurd hv (Array.not_mem_empty v)

end Graph

/-- The code of a program refers to declared methods only, and to nothing that is set apart. -/
theorem backed_of_fromFiles {l : Linked} {limits : Limits}
    (hp : Program.ofLinked? l limits = some p) (hl : FromFiles l) (hR : SetApart l R) :
    p.Backed R := by
  obtain ⟨hstart, -, hmodules⟩ := Program.ofLinked?_eq_some hp
  obtain ⟨hmain, hchunk, hinitializer⟩ := keeps_of_ofLinked? hp
  have hbacked : ∀ c, l.Keeps c → Backed p R c := by
    intro c hc
    obtain ⟨m, hm, s, hc⟩ := hc.exists_module
    rcases hl.of_mem_modules hm with rfl | ⟨module, files, imports, rfl, hsub⟩
    · rcases hc with hc | hc | hc <;> cases hc
    · rcases isBody_of_module hc with hc | ⟨b, -, r, hr, hc⟩
      · exact backed_of_start hR hsub hstart hc
      · exact backed_of_piece hmodules hl hR hsub hr hc
  have hregular : ∀ m ∈ p.modules, m.Regular := fun m hm => hl.regular (hmodules ▸ hm)
  refine ⟨hbacked _ hmain, fun s c hc => ⟨?_, hbacked c (hchunk s c hc)⟩,
    fun s c hc => ⟨?_, hbacked c (hinitializer s c hc)⟩, fun s t ht => ?_, ?_, ?_⟩
  · obtain ⟨m, hm, hc⟩ := exists_module_of_chunk? hmodules hc
    rcases hl.of_mem_modules hm with rfl | ⟨module, files, imports, rfl, -⟩
    · cases hc
    · exact (mem_of_get? hc).1
  · obtain ⟨m, hm, hc⟩ := exists_module_of_initializer? hmodules hc
    rcases hl.of_mem_modules hm with rfl | ⟨module, files, imports, rfl, -⟩
    · cases hc
    · rw [link_initializers_get?] at hc
      have hs := List.find?_some hc
      exact eq_of_beq hs
  · obtain ⟨m, hm, ht⟩ := Option.bind_eq_some_iff.mp ht
    exact (hregular m (Program.mem_of_find? hm)).structs s t ht
  · rintro s ⟨m, hm, owner, t, name, ht, hs⟩
    exact ((hregular m hm).structs owner t ht).method name s hs
  · rintro s ⟨owner, name, params, hk⟩ hr
    obtain ⟨module, text, rfl⟩ := hR.bracketed s hr
    cases hk

end Machine

end StackCode
