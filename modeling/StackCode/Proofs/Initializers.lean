import StackCode.Proofs.ModuleValues
import StackCode.Proofs.Resolution

/-! # Initializers of module values

The value of a module is computed when it is first read. Its initializer stores the value before it
returns, so it is entered again only as long as no earlier computation of the value has finished:
by code that reads the value while it is being computed.
-/

namespace StackCode

namespace Code

variable {V V' : Instruction → Prop} {inLoop inArm inLoop' inArm' : Bool} {code : Code}
  {d e d' e' : Int}

/-- Code that can start at two depths does not return: a return is made at one depth only. -/
theorem Moves.no_return (h : Moves V inLoop inArm code d e)
    (h' : Moves V' inLoop' inArm' code d' e') (hd : d < d') :
    e < e' ∧ ∀ cells t a, ∀ x ∈ code.placed cells t a, x.2.opcode ≠ .ret := by
  induction h generalizing inLoop' inArm' d' e' with
  | skip =>
    cases h'
    exact ⟨hd, fun _ _ _ x hx => absurd hx List.not_mem_nil⟩
  | seq _ _ ih ih' =>
    cases h' with
    | seq h₁ h₂ =>
      obtain ⟨he, hfirst⟩ := ih h₁ hd
      obtain ⟨hf, hrest⟩ := ih' h₂ he
      refine ⟨hf, fun cells t a x hx => ?_⟩
      rcases List.mem_append.mp hx with hx | hx
      · exact hfirst cells t a x hx
      · exact hrest cells t _ x hx
  | instr _ _ _ hr =>
    cases h' with
    | instr _ _ _ hr' =>
      refine ⟨by omega, fun cells t a x hx ho => ?_⟩
      rw [List.mem_singleton.mp hx] at ho
      have := hr ho
      have := hr' ho
      omega
  | bind =>
    cases h'
    refine ⟨by omega, fun cells t a x hx => ?_⟩
    rw [List.mem_singleton.mp hx, binder]
    split <;> simp
  | ite _ _ _ ih ih' =>
    cases h' with
    | ite _ h₁ h₂ =>
      obtain ⟨he, hyes⟩ := ih h₁ (by omega)
      refine ⟨he, fun cells t a x hx => ?_⟩
      simp only [placed, List.mem_append, List.mem_cons] at hx
      rcases hx with (rfl | hx) | rfl | hx
      · simp
      · exact hyes cells t _ x hx
      · simp
      · exact (ih' h₂ (by omega)).2 cells t _ x hx
  | when _ _ ih =>
    cases h' with
    | when _ h₁ =>
      obtain ⟨he, hbody⟩ := ih h₁ (by omega)
      refine ⟨he, fun cells t a x hx => ?_⟩
      rcases List.mem_cons.mp hx with rfl | hx
      · simp
      · exact hbody cells t _ x hx
  | loop | leave | again | arm | require =>
    cases h'
    exact absurd hd (Int.lt_irrefl _)

end Code

/-- Every path to a return of the chunk leads over the instruction that stores the value of the
symbol. -/
structure Chunk.Stores (c : Chunk Value) (symbol : Symbol) : Prop where
  entry : ∀ i, c.instruction? 0 = some i → i.opcode ≠ .ret
  before : ∀ o i t j, c.Reaches o → c.instruction? o = some i → t ∈ successors o i →
    c.instruction? t = some j → j.opcode = .ret →
      ∃ n, i = ⟨.setModuleValue, n⟩ ∧ c.symbol? n = some symbol

namespace Code

theorem stores_layout {V V' : Instruction → Prop} {cells : List UInt8} {head : Chunk Value}
    {value : Code} {line : UInt32} {n : UInt16} {symbol : Symbol} {e e' : Int}
    (hh : head.code = #[]) (hs : head.symbol? n = some symbol)
    (hf : (value ++ .instr line ⟨.setModuleValue, n⟩ ++ .instr line ⟨.ret, ()⟩).Fits false false
      {} 0)
    (hV : ∀ i, i.distance? = none → V i → head.Refers i) (hc : ∀ slot, V (binder cells slot))
    (hm : Moves V false false
      (value ++ .instr line ⟨.setModuleValue, n⟩ ++ .instr line ⟨.ret, ()⟩) 0 e)
    (hv' : Moves V' false false value 1 e') :
    ((value ++ .instr line ⟨.setModuleValue, n⟩ ++ .instr line ⟨.ret, ()⟩).layout cells
      head).Stores symbol := by
  let store : Instruction := ⟨.setModuleValue, n⟩
  let code := value ++ .instr line store ++ .instr line ⟨.ret, ()⟩
  let c := code.layout cells head
  obtain ⟨l, hplaced, htraces⟩ := traces_layout hh hf hV hc hm rfl
  have hat : ∀ x ∈ code.placed cells {} 0, c.instruction? x.1 = some x.2 := by
    intro x hx
    rw [← hplaced] at hx
    obtain ⟨v, hv, rfl⟩ := List.mem_map.mp hx
    exact htraces.instruction _ _ _ hv
  have hstore : c.instruction? value.width = some store := by
    refine hat (value.width, store) (List.mem_append_left _ (List.mem_append_right _ ?_))
    exact List.mem_singleton.mpr (by rw [Nat.zero_add])
  obtain ⟨e₁, hfirst, -⟩ := sequential_moves.append.mp hm
  obtain ⟨e₀, hvalue, -⟩ := sequential_moves.append.mp hfirst
  have hnone := (hvalue.no_return hv' (by decide)).2 cells {} 0
  obtain ⟨lv, hlv⟩ := hvalue.exists_visits (X := fun o _ => o = value.width) hc hf.1.1
    (Leads.mk nofun nofun) (.inl (Nat.zero_add _))
  have hinside : ∀ t d j, Joins (depths V) lv (fun o _ => o = value.width) t d →
      c.instruction? t = some j → j.opcode ≠ .ret := by
    intro t d j ht hj
    rcases joins_depths.mp ht with ⟨i, hi⟩ | rfl
    · have hi : (t, i) ∈ value.placed cells {} 0 := hlv.placed ▸ List.mem_map_of_mem hi
      cases (hat (t, i) (List.mem_append_left _ (List.mem_append_left _ hi))).symm.trans hj
      exact hnone _ hi
    · cases hstore.symm.trans hj
      simp [store]
  refine ⟨fun i hi => hinside 0 0 i hlv.entry hi, fun o i t j hreach hi ht hj hret => ?_⟩
  obtain ⟨i', hi'⟩ := htraces.holds.reached o hreach
  rw [htraces.instructions, hplaced] at hi'
  cases (hat (o, i') hi').symm.trans hi
  rcases List.mem_append.mp hi' with hi' | hi'
  · rcases List.mem_append.mp hi' with hi' | hi'
    · rw [← hlv.placed] at hi'
      obtain ⟨v, hv, hvi⟩ := List.mem_map.mp hi'
      have ht : t ∈ Chunk.successors v.1.1 v.1.2 := by rw [hvi]; exact ht
      exact absurd hret (hinside t _ j ((hlv.closed v hv).balanced.next t ht) hj)
    · cases List.mem_singleton.mp hi'
      refine ⟨n, rfl, ?_⟩
      obtain ⟨lines, hlayout⟩ := adds_layout cells code head
      change c.symbol? n = some symbol
      rw [show c = _ from hlayout]
      exact hs
  · cases List.mem_singleton.mp hi'
    cases ht

end Code

namespace Lowering

theorem Compiled.ofValue_stores {space : Space} {path : String} {symbol : Symbol}
    {value : Option Expr} {loc : Location} {r : Compiled}
    (h : ofValue space path symbol value loc = .ok r) : r.chunk.Stores symbol := by
  obtain ⟨hp, rfl⟩ := Body.compile_layout h
  have hfits := Code.fits_of_problems_eq_nil hp
  let s : State := { body := Body.empty .value (symbol.name ++ " initializer") symbol path }
  let view : View := ⟨False, ⟨space, path⟩⟩
  have hs : Opened view s s _ [] := opened_empty rfl rfl trivial
  let v := valueOrNone loc value view.ctx s
  let store := refer symbol loc (⟨.setModuleValue, ·⟩) view.ctx v.2
  have hvalue := valueOrNone_pushes (v := view) False.elim loc value False.elim
  change (v.1 ++ store.1 ++ .instr loc.line ⟨.ret, ()⟩).Fits false false {} 0 at hfits
  change ((v.1 ++ store.1 ++ .instr loc.line ⟨.ret, ()⟩).layout store.2.body.cells
    store.2.body.chunk).Stores symbol
  rcases hvalue ⟨False, false, false⟩ s _ 0 (Int.le_refl 0)
    hs.toStands with href | ⟨ts, he, -, hm, -⟩
  · exact absurd href hfits.1.1.not_refused
  rcases hvalue ⟨False, false, false⟩ s _ 1 (by decide) hs.toStands with href | ⟨ts', -, -, hm', -⟩
  · exact absurd href hfits.1.1.not_refused
  rcases refer_cases symbol loc (⟨.setModuleValue, ·⟩) he.stands with href | ⟨n, hcode, he', -, hn⟩
  · exact absurd href hfits.1.2.not_refused
  have hcode : store.1 = .instr loc.line ⟨.setModuleValue, n⟩ := hcode
  have hstores : Code.Moves (Means space store.2.body.chunk ts) false false
      (.instr loc.line ⟨.setModuleValue, n⟩) 1 1 :=
    .instr ⟨symbol, hn⟩ rfl (Int.le_refl 1) (by simp)
  have hreturns : Code.Moves (Means space store.2.body.chunk ts) false false
      (.instr loc.line ⟨.ret, ()⟩) 1 0 := .instr trivial rfl (Int.le_refl 1) fun _ => rfl
  rw [hcode] at hfits ⊢
  refine Code.stores_layout he'.stands.placed.1.code hn hfits (fun i hj hi => hi.refers hj)
    (means_binder space _ ts _) ((Code.Moves.seq ?_ hstores).seq hreturns) hm'
  exact hm.mono fun i _ hi => hi.mono he'.tables fun _ => id

end Lowering

namespace Linking

open Lowering

/-- Modules that are linked from files, all the way down to the standard module. -/
inductive FromFiles : Linked → Prop where
  | standard : FromFiles Standard.linked
  | link {module : String} {files : List SourceFile} {imports : List Linked}
      (h : ∀ i ∈ imports, FromFiles i) : FromFiles (link module files imports)

variable {module : String} {files : List SourceFile} {imports : List Linked}

variable {l : Linked} {c : Chunk Value} {s : Symbol}

theorem FromFiles.of_imports (h : FromFiles l) : ∀ i ∈ l.imports, FromFiles i := by
  cases h with
  | standard => exact fun i hi => absurd hi List.not_mem_nil
  | link himports =>
    rw [link_imports]
    exact forall_mem_withStandard .standard himports

theorem FromFiles.of_mem_modules (h : FromFiles l) {m : Module} (hm : m ∈ l.modules) :
    m = Standard.module ∨ ∃ module files imports, m = (Linking.link module files imports).module ∧
      (Linking.link module files imports).modules ⊆ l.modules := by
  obtain ⟨k, hk, rfl, hsub⟩ := exists_of_mem_modules (fun _ => of_imports) h hm
  cases hk with
  | standard => exact .inl rfl
  | link _ => exact .inr ⟨_, _, _, rfl, hsub⟩

theorem accepted_of_plain (hd : ∃ r, c.depths = .ok r) (hc : ∀ v ∈ c.constants, v.Plain) :
    c.Accepted := by
  refine ⟨hd, fun v hv => Machine.throughout_of_plain (fun w hw f hf => ?_) (hc v hv)⟩
  rw [hf] at hw
  exact hw

theorem accepted_of_piece {b : Piece} {space : Space} {r : Compiled} (hr : b.compile space = .ok r)
    (hc : c ∈ r.chunk :: r.nested) : c.Accepted := by
  obtain ⟨symbol, literals, -, hof⟩ := Source.compile_eq_ok hr
  obtain ⟨body, hbody, rfl⟩ := hof.exists_holds hc
  have ha := (hof.sound.of_holds hbody).assembled
  exact accepted_of_plain ha.wellFormed.depths ha.constants

theorem accepted_of_start (hc : startChunk? module files imports = some c) :
    c.Accepted := by
  have hstart := mainChunk?_eq_some hc
  refine accepted_of_plain hstart.wellFormed.depths fun v hv => ?_
  rw [hstart.constants] at hv
  exact absurd hv (Array.not_mem_empty v)

theorem link_initializers_stores
    (hc : (link module files imports).module.initializers.get? s = some c) :
    c.Stores s := by
  rw [link_initializers_get?] at hc
  obtain ⟨b, hb, hmem⟩ := List.mem_flatMap.mp (List.mem_reverse.mp (List.mem_of_find?_eq_some hc))
  obtain ⟨symbol, x, loc, r, -, -, hr, rfl⟩ := Piece.exists_of_mem_initializers hmem
  have hs := List.find?_some hc
  obtain ⟨literals, hof⟩ := Compiled.ofValue_eq_ok hr
  have hsymbol : symbol = s := hof.symbol.symm.trans (eq_of_beq hs)
  exact hsymbol ▸ Compiled.ofValue_stores hr

theorem FromFiles.accepted (h : FromFiles l) (hc : l.Keeps c) :
    c.Accepted := by
  obtain ⟨m, hm, s, hc⟩ := hc.exists_module
  rcases h.of_mem_modules hm with rfl | ⟨module, files, imports, rfl, -⟩
  · rcases hc with hc | hc | hc <;> cases hc
  · rcases isBody_of_module hc with hc | ⟨b, -, r, hr, hc⟩
    · exact accepted_of_start hc
    · exact accepted_of_piece hr hc

theorem FromFiles.initializers (h : FromFiles l) {m : Module} (hm : m ∈ l.modules)
    (hc : m.initializers.get? s = some c) : c.Stores s := by
  rcases h.of_mem_modules hm with rfl | ⟨module, files, imports, rfl, -⟩
  · cases hc
  · exact link_initializers_stores hc

end Linking

namespace Machine

open Linking

theorem good_of_fromFiles {p : Program} {l : Linked} {limits : Limits}
    (hp : Program.ofLinked? l limits = some p) (hl : FromFiles l) : p.Good False :=
  good_of_keeps hp fun _ hc => runnable_of_accepted (hl.accepted hc) id

def reads? (c : Chunk Value) : Instruction → Option Symbol
  | ⟨.getModuleValue, n⟩ => c.symbol? n
  | _ => none

/-- A state of a run with a record of its initializers. -/
structure Progress where
  state : State
  /-- The value that each active frame was entered to compute, if any, the innermost first. -/
  active : List (Option Symbol) := [none]
  /-- The values whose initializers were entered, the latest first. -/
  entered : List Symbol := []

namespace Progress

/-- The record after a step with an instruction: a new frame is added, a return drops one. -/
def after (g : Progress) (i : Instruction) (s : State) : Progress :=
  let read := reads? g.state.frame.chunk i
  if g.state.callers.size < s.callers.size then
    { state := s, active := read :: g.active, entered := read.toList ++ g.entered }
  else if s.callers.size < g.state.callers.size then
    { g with state := s, active := g.active.tail }
  else { g with state := s }

def next? (p : Program) (g : Progress) : Option Progress :=
  match Instruction.decode? g.state.frame.chunk.code g.state.frame.next, step p g.state with
  | some i, .ok none s => some (g.after i s)
  | _, _ => none

end Progress

def progress? (p : Program) (heap : Heap) (closures : Nat) : Nat → Option Progress
  | 0 => some { state := start p heap closures }
  | n + 1 => (progress? p heap closures n).bind (·.next? p)

variable {p : Program} {values values' : Table Symbol Value}

/-- A frame that computes a value runs an initializer, which is about to return only if the value is
there. -/
def Serves (values : Table Symbol Value) (f : Frame) (purpose : Option Symbol) : Prop :=
  ∀ symbol, purpose = some symbol → f.chunk.Stores symbol ∧
    ∀ i, f.chunk.instruction? f.next = some i → i.opcode = .ret → values.get? symbol ≠ none

def AllServe (values : Table Symbol Value) : List Frame → List (Option Symbol) → Prop
  | [], [] => True
  | f :: fs, purpose :: purposes => Serves values f purpose ∧ AllServe values fs purposes
  | _, _ => False

theorem AllServe.mono (hv : ∀ symbol, values'.get? symbol = none → values.get? symbol = none)
    {fs : List Frame} {purposes : List (Option Symbol)} (h : AllServe values fs purposes) :
    AllServe values' fs purposes := by
  induction fs generalizing purposes with
  | nil =>
    cases purposes with
    | nil => trivial
    | cons _ _ => exact h.elim
  | cons f fs ih =>
    cases purposes with
    | nil => exact h.elim
    | cons purpose _ =>
      refine ⟨fun symbol he => ?_, ih h.2⟩
      obtain ⟨hstores, hreturns⟩ := h.1 symbol he
      exact ⟨hstores, fun i hi hr hn => hreturns i hi hr (hv symbol hn)⟩

theorem AllServe.length_eq {fs : List Frame} {purposes : List (Option Symbol)}
    (h : AllServe values fs purposes) : purposes.length = fs.length := by
  induction fs generalizing purposes with
  | nil =>
    cases purposes with
    | nil => rfl
    | cons _ _ => exact h.elim
  | cons f fs ih =>
    cases purposes with
    | nil => exact h.elim
    | cons _ _ => rw [List.length_cons, List.length_cons, ih h.2]

/-- All frames serve their purposes. As long as a value is missing, every frame that was entered to
compute it is still active. -/
structure Progress.Sound (g : Progress) : Prop where
  serve : AllServe g.state.values (g.state.frame :: g.state.callers.toList.reverse) g.active
  counts : ∀ symbol, g.state.values.get? symbol = none →
    g.entered.count symbol = g.active.count (some symbol)

variable {s s' : State}

theorem getModuleValue_enters {n : UInt16} {a : Unit} {symbol : Symbol}
    (hs : s.frame.chunk.symbol? n = some symbol) (h : execute p ⟨.getModuleValue, n⟩ s = .ok a s')
    (hc : s.callers.size < s'.callers.size) :
    s.values.get? symbol = none ∧ p.initializer? symbol = some s'.frame.chunk := by
  obtain ⟨x, s₁, hx, h₁⟩ := bind_eq_ok h
  obtain ⟨hn, rfl⟩ := symbolAt_eq_ok hx
  cases hs.symm.trans hn
  obtain ⟨s₂, s₃, hget, h₂⟩ := bind_eq_ok h₁
  cases hget
  cases hv : s₁.values.get? symbol with
  | some v =>
    rw [hv] at h₂
    dsimp only at h₂
    unfold push at h₂
    split at h₂
    · cases h₂
      exact absurd hc (Nat.lt_irrefl _)
    · cases h₂
  | none =>
    rw [hv] at h₂
    obtain ⟨chunk, s₄, hchunk, h₃⟩ := bind_eq_ok h₂
    obtain ⟨hi, rfl⟩ := ofOption_eq_ok hchunk
    obtain ⟨s₅, s₆, hget, h₄⟩ := bind_eq_ok h₃
    cases hget
    refine ⟨rfl, hi.trans (congrArg some ?_)⟩
    unfold enter at h₄
    dsimp only at h₄
    split at h₄
    · cases h₄
    obtain ⟨s₇, s₈, hget, h₅⟩ := bind_eq_ok h₄
    cases hget
    split at h₅
    · cases h₅
    split at h₅ <;> cases h₅
    rfl

/-- Reading a value enters a frame only if the value is missing, and then it enters the initializer
of the value. -/
theorem step_enters {i : Instruction} {r : Option Value} {symbol : Symbol}
    (hi : Instruction.decode? s.frame.chunk.code s.frame.next = some i)
    (hread : reads? s.frame.chunk i = some symbol) (h : step p s = .ok r s')
    (hc : s.callers.size < s'.callers.size) :
    s.values.get? symbol = none ∧ p.initializer? symbol = some s'.frame.chunk := by
  obtain ⟨op, operand⟩ := i
  cases op
  case getModuleValue =>
    rw [step_of_decode? hi, if_neg (by simp)] at h
    obtain ⟨a, s₁, hs, h₁⟩ := bind_eq_ok h
    cases h₁
    exact getModuleValue_enters (s := s.fetched ⟨.getModuleValue, operand⟩) hread hs hc
  all_goals cases hread

/-- The running frame goes on at a successor of its instruction. -/
theorem Serves.goes {i : Instruction} {f : Frame} {purpose : Option Symbol}
    (h : Serves s.values s.frame purpose) (hreach : s.frame.chunk.Reaches s.frame.next)
    (hi : s.frame.chunk.instruction? s.frame.next = some i) (hs : step p s = .ok none s')
    (hc : f.closure = s.frame.closure) (ht : f.next ∈ Chunk.successors s.frame.next i) :
    Serves s'.values f purpose := by
  intro symbol he
  have hchunk : f.chunk = s.frame.chunk := congrArg Closure.chunk hc
  obtain ⟨hstores, -⟩ := h symbol he
  rw [hchunk]
  refine ⟨hstores, fun j hj hret => ?_⟩
  obtain ⟨n, rfl, hn⟩ := hstores.before _ i _ j hreach hi ht hj hret
  obtain ⟨x, v, hx, hv⟩ := step_stores (decode?_of_instruction? hi).1 hs
  cases hn.symm.trans hx
  rw [hv, Table.get?_insert, beq_self_eq_true]
  exact Option.some_ne_none v

namespace Progress.Sound

variable {g : Progress} {i : Instruction} {s' : State} {rest : List (Option Symbol)}
  {purpose : Option Symbol}

theorem stays (hg : g.Sound) (hactive : g.active = purpose :: rest)
    (hkeep : ∀ symbol, s'.values.get? symbol = none → g.state.values.get? symbol = none)
    (hcallers : s'.callers = g.state.callers) (hframe : Serves s'.values s'.frame purpose) :
    (g.after i s').Sound := by
  have hafter : g.after i s' = { g with state := s' } := by simp [after, hcallers]
  have hserve := hg.serve
  rw [hactive] at hserve
  rw [hafter]
  refine ⟨?_, fun symbol hv => hg.counts symbol (hkeep symbol hv)⟩
  rw [hactive, hcallers]
  exact ⟨hframe, hserve.2.mono hkeep⟩

theorem enters (hg : g.Sound) {f : Frame} (hactive : g.active = purpose :: rest)
    (hkeep : ∀ symbol, s'.values.get? symbol = none → g.state.values.get? symbol = none)
    (hcallers : s'.callers = g.state.callers.push f) (hwaits : Serves s'.values f purpose)
    (hframe : Serves s'.values s'.frame (reads? g.state.frame.chunk i)) :
    (g.after i s').Sound := by
  have hafter : g.after i s' = ⟨s', reads? g.state.frame.chunk i :: g.active,
      (reads? g.state.frame.chunk i).toList ++ g.entered⟩ := by simp [after, hcallers]
  generalize reads? g.state.frame.chunk i = read at hafter hframe
  have hserve := hg.serve
  rw [hactive] at hserve
  rw [hafter]
  refine ⟨?_, fun symbol hv => ?_⟩
  · rw [hactive, hcallers, Array.toList_push, List.reverse_append]
    exact ⟨hframe, hwaits, hserve.2.mono hkeep⟩
  · have hcount := hg.counts symbol (hkeep symbol hv)
    cases read with
    | none => simpa using hcount
    | some x => simp [List.count_cons, hcount]

theorem returns (hg : g.Sound) {f : Frame} (hactive : g.active = purpose :: rest)
    (hvalues : s'.values = g.state.values)
    (hi : g.state.frame.chunk.instruction? g.state.frame.next = some i) (hret : i.opcode = .ret)
    (hback : g.state.callers.back? = some f) (hcallers : s'.callers = g.state.callers.pop)
    (hc : s'.frame.closure = f.closure) (hn : s'.frame.next = f.next) :
    (g.after i s').Sound := by
  have hpos : 0 < g.state.callers.size := by
    rcases Nat.eq_zero_or_pos g.state.callers.size with hz | hz
    · rw [Array.size_eq_zero_iff.mp hz] at hback
      cases hback
    · exact hz
  have hsize : s'.callers.size = g.state.callers.size - 1 := by simp [hcallers]
  have hafter : g.after i s' = { g with state := s', active := rest } := by
    unfold after
    dsimp only
    rw [if_neg (by omega), if_pos (by omega), hactive]
    rfl
  have hserve := hg.serve
  rw [hactive, reverse_of_back? hback] at hserve
  obtain ⟨hleft, hserve⟩ := hserve
  have hchunk : s'.frame.chunk = f.chunk := congrArg Closure.chunk hc
  rw [hafter]
  refine ⟨?_, fun symbol hv => ?_⟩
  · rw [hvalues, hcallers]
    cases rest with
    | nil => exact hserve.elim
    | cons purpose' rest =>
      refine ⟨?_, hserve.2⟩
      have hf := hserve.1
      unfold Serves at hf ⊢
      rwa [hchunk, hn]
  · rw [hvalues] at hv
    have hcount := hg.counts symbol hv
    have hne : purpose ≠ some symbol := fun he => (hleft symbol he).2 i hi hret hv
    rw [hactive, List.count_cons_of_ne hne] at hcount
    exact hcount

theorem next (hp : p.Good False)
    (hinit : ∀ symbol c, p.initializer? symbol = some c → c.Stores symbol) {heights : List Nat}
    (hinv : Invariant False p g.state heights) (hg : g.Sound)
    (hi : Instruction.decode? g.state.frame.chunk.code g.state.frame.next = some i)
    (hs : step p g.state = .ok none s') : (g.after i s').Sound := by
  obtain ⟨purpose, rest, hactive⟩ : ∃ purpose rest, g.active = purpose :: rest := by
    cases ha : g.active with
    | nil =>
      have := hg.serve
      rw [ha] at this
      exact this.elim
    | cons purpose rest => exact ⟨purpose, rest, rfl⟩
  have hserve := hg.serve
  rw [hactive] at hserve
  have hkeep : ∀ symbol, s'.values.get? symbol = none → g.state.values.get? symbol = none :=
    fun symbol => step_keeps_value hi hs
  cases heights with
  | nil => exact hinv.stacked.elim
  | cons height heights =>
    obtain ⟨hrest, -⟩ := hinv.stacked
    obtain ⟨r, i', j, -, hreach, hi', hsize, hone, -⟩ := hrest.instruction
    cases hi.symm.trans (decode?_of_instruction? hi').1
    by_cases hret : i.opcode = .ret
    · have hruns := (hinv.returns (L := True) hi hinv.good.toHolds hret).result
      rw [hs] at hruns
      obtain ⟨f, hf, hw⟩ := hruns.2.2 rfl
      exact hg.returns hactive (step_spares hi hs (by simp [hret])) hi' hret hf hw.callers
        (congrArg Frame.closure hw.frame) (congrArg Frame.next hw.frame)
    · obtain ⟨_, hacts⟩ := hinv.outcome hi hinv.good.toHolds hret
        ((hinv.good.frame.fetched i).yields False.elim hp)
      have hruns := hacts.result
      rw [hs] at hruns
      cases hruns.2.1 with
      | moves hm _ hw =>
        have hc : s'.frame.closure = g.state.frame.closure := hw.frame ▸ hm.closure
        have ht : s'.frame.next ∈ Chunk.successors g.state.frame.next i := by
          rw [hw.frame]
          exact hm.next.mem_successors hret
        exact hg.stays hactive hkeep hw.callers (hserve.1.goes hreach hi' hs hc ht)
      | enters hcallee _ _ he =>
        obtain ⟨f, hf, -, hw⟩ := he
        have hcallers := hw.callers
        have ht : (g.state.fetched i).frame.next ∈ Chunk.successors g.state.frame.next i :=
          Chunk.next_mem_successors hret (.inl hcallee.distance?)
        refine hg.enters hactive hkeep hcallers (hserve.1.goes hreach hi' hs rfl ht) ?_
        intro symbol hread
        have hgrows : g.state.callers.size < s'.callers.size := by simp [hcallers, State.fetched]
        have hchunk := (step_enters hi hread hs hgrows).2
        refine ⟨hinit symbol _ hchunk, fun k hk hr => ?_⟩
        have hn : s'.frame.next = 0 := hw.frame ▸ hf.next
        rw [hn] at hk
        exact absurd hr ((hinit symbol _ hchunk).entry k hk)

end Progress.Sound

theorem progress?_sound (hp : p.Good False)
    (hinit : ∀ symbol c, p.initializer? symbol = some c → c.Stores symbol) {heap : Heap}
    {closures : Nat} (hleft : Left p heap closures) {n : Nat} {g : Progress}
    (h : progress? p heap closures n = some g) :
    g.Sound ∧ ∃ heights, Invariant False p g.state heights := by
  induction n generalizing g with
  | zero =>
    cases h
    refine ⟨⟨⟨fun symbol he => ?_, trivial⟩, fun symbol _ => rfl⟩, [0],
      invariant_start hp (hleft.good hp) closures⟩
    cases he
  | succ n ih =>
    obtain ⟨g', hg', hnext⟩ := Option.bind_eq_some_iff.mp h
    obtain ⟨hsound, heights, hinv⟩ := ih hg'
    unfold Progress.next? at hnext
    split at hnext
    · rename_i i s' hi hs
      cases hnext
      have hstate : (g'.after i s').state = s' := by
        unfold Progress.after
        dsimp only
        split
        · rfl
        split <;> rfl
      refine ⟨hsound.next hp hinit hinv hi hs, heightsAfter i.opcode g'.state s' heights, ?_⟩
      rw [hstate]
      exact hinv.of_step hp hi hs
    · cases hnext

/-- As long as a value is missing, every frame that was entered to compute it is still active. So
the initializer of a value that was entered before is entered again only by code that one of its own
activations runs, and never once the value is there. -/
theorem initializers_reentered_within {l : Linked} {limits : Limits}
    (hp : Program.ofLinked? l limits = some p) (hl : FromFiles l) {heap : Heap} {closures : Nat}
    (hleft : Left p heap closures) {n : Nat} {g : Progress}
    (hg : progress? p heap closures n = some g) :
    g.active.length = g.state.callers.size + 1 ∧
    (∀ symbol, g.state.values.get? symbol = none →
      g.entered.count symbol = g.active.count (some symbol)) ∧
    ∀ i symbol s', Instruction.decode? g.state.frame.chunk.code g.state.frame.next = some i →
      reads? g.state.frame.chunk i = some symbol → step p g.state = .ok none s' →
      g.state.callers.size < s'.callers.size →
        g.state.values.get? symbol = none ∧ p.initializer? symbol = some s'.frame.chunk ∧
          (symbol ∈ g.entered → some symbol ∈ g.active) := by
  have hmodules := (Program.ofLinked?_eq_some hp).2.2
  have hgood : p.Good False :=
    good_of_keeps hp fun c hc => runnable_of_accepted (hl.accepted hc) id
  have hinit : ∀ symbol c, p.initializer? symbol = some c → c.Stores symbol := by
    intro symbol c hc
    obtain ⟨m, hm, hc⟩ := Option.bind_eq_some_iff.mp hc
    exact hl.initializers (hmodules ▸ Program.mem_of_find? hm) hc
  have hsound := (progress?_sound hgood hinit hleft hg).1
  refine ⟨?_, hsound.counts, fun i symbol s' hi hread hs hc => ?_⟩
  · rw [hsound.serve.length_eq]
    simp
  · obtain ⟨hv, hchunk⟩ := step_enters hi hread hs hc
    refine ⟨hv, hchunk, fun he => ?_⟩
    have hcount := hsound.counts symbol hv
    exact List.count_pos_iff.mp (hcount ▸ List.count_pos_iff.mpr he)

/-- A file whose value is computed by a function that reads the value when it is first called. -/
def restartingFile : SourceFile :=
  let loc := Location.synthesized
  let var (name : String) (ty : Ty) : Expr := ⟨.var name, ty, loc⟩
  let int (n : Int64) : Expr := ⟨.literal (.int n), .int, loc⟩
  let run (e : Expr) : Stmt := ⟨.expr e, loc⟩
  let line : Expr := ⟨.literal (.string "computing"), .string, loc⟩
  let print : Stmt := run ⟨.call (var "print" .none) [⟨none, line⟩], .none, loc⟩
  let first : Expr := ⟨.binary (var "started" .int) .eq (int 0), .bool, loc⟩
  let again := [run ⟨.assign (var "started" .int) (int 1), .int, loc⟩, run (var "total" .int)]
  let body := [print, ⟨.ite first again none, loc⟩, ⟨.ret (some (int 5)), loc⟩]
  { path := "a.pl"
    stmts := [⟨.bind "started" true .int (some (int 0)), loc⟩,
      ⟨.bind "total" false .int (some ⟨.call (var "compute" .none) [], .int, loc⟩), loc⟩,
      ⟨.func ⟨some "compute", [], .int, body, loc⟩, loc⟩,
      ⟨.ret (some (var "total" .int)), loc⟩] }

/-- The initializer of the value is entered twice, so its line is printed twice. -/
theorem restartingFile_computes_twice :
    ((Program.ofLinked? (link "main" [restartingFile] []) {}).map
      fun p => (runOnce p 60).2.output) = some #["computing", "computing"] := by
  decide +kernel

theorem initializers_reentered_within_restartingFile :
    FromFiles (link "main" [restartingFile] []) ∧
      ∃ p g, Program.ofLinked? (link "main" [restartingFile] []) {} = some p ∧
        progress? p p.heap 0 23 = some g ∧
        g.state.values.get? (.value "main" "total") = none ∧
        g.entered.count (.value "main" "total") = 2 ∧
        g.active.count (some (.value "main" "total")) = 2 := by
  have hl : FromFiles (link "main" [restartingFile] []) :=
    .link fun i hi => absurd hi List.not_mem_nil
  have hrun : ((Program.ofLinked? (link "main" [restartingFile] []) {}).bind fun p =>
      (progress? p p.heap 0 23).map fun g => ((g.state.values.get? (.value "main" "total")).isNone,
        g.entered.count (.value "main" "total"))) = some (true, 2) := by
    decide +kernel
  obtain ⟨p, hp, hrun⟩ := Option.bind_eq_some_iff.mp hrun
  obtain ⟨g, hg, hrun⟩ := Option.map_eq_some_iff.mp hrun
  have hv := Option.isNone_iff_eq_none.mp (congrArg Prod.fst hrun)
  have hcount : g.entered.count (.value "main" "total") = 2 := congrArg Prod.snd hrun
  refine ⟨hl, p, g, hp, hg, hv, hcount, ?_⟩
  rw [← (initializers_reentered_within hp hl .first hg).2.1 _ hv, hcount]

end Machine

end StackCode
