import StackCode.Proofs.Grounding
import StackCode.Proofs.Frames

/-! # Activations

What the analysis of a body says at a point holds of every activation of the body that gets there:
slots are bound before they are read, and values are taken only out of cases that have them. All
values that a run makes are sane: a closure has the cells that its body captures, and a case has
all its values or none.
-/

namespace StackCode

inductive Value.Inside : Value → Value → Prop where
  | self {v : Value} : Inside v v
  | part {v w : Value} {c : EnumCase Value} (mem : w ∈ c.values) (inside : Inside v w) :
    Inside v (.enumCase c)

def Value.at? : Value → List UInt8 → Option Value
  | v, [] => some v
  | .enumCase c, n :: path => c.values[n.toNat]?.bind (·.at? path)
  | _, _ :: _ => Option.none

theorem Value.at?_append {n : UInt8} (path : List UInt8) :
    ∀ {v : Value} {c : EnumCase Value}, v.at? path = some (.enumCase c) →
      v.at? (path ++ [n]) = c.values[n.toNat]? := by
  induction path with
  | nil =>
    intro v c h
    cases h
    change c.values[n.toNat]?.bind _ = _
    cases c.values[n.toNat]? <;> rfl
  | cons m path ih =>
    intro v c h
    cases v with
    | enumCase d =>
      obtain ⟨w, hw, hc⟩ := Option.bind_eq_some_iff.mp h
      change d.values[m.toNat]?.bind _ = _
      rw [hw]
      exact ih hc
    | _ => cases h

/-- The case is declared, and has all the values that it takes or none of them. -/
def EnumCase.Whole (enum? : Symbol → Option EnumType) (c : EnumCase Value) : Prop :=
  c.Of enum? ∧ (c.values = [] ∨ c.values.length = c.arity.toNat)

namespace Machine

open Code (Knowledge Fact bindings Needs entry)
open Lowering (Nest Follows)

section Values

variable (strict : Prop) (enum? : Symbol → Option EnumType) (p : Program)

/-- What a value must satisfy, whatever is in it. -/
def Sound : Value → Prop
  | .closure c => Grounded strict enum? p c.chunk ∧ c.cells.size = c.chunk.captures.size ∧
    c.chunk.hasReceiver = false
  | .boundMethod _ method => method.IsMethod
  | .struct type => type.Regular
  | .enumCase c => strict → c.Whole enum?
  | _ => True

def Sane (v : Value) : Prop := ∀ w : Value, w.Inside v → Sound strict enum? p w

variable {strict enum? p} {v : Value}

theorem Sane.sound (h : Sane strict enum? p v) : Sound strict enum? p v := h v .self

theorem sane_of_sound (hv : ∀ c, v ≠ .enumCase c) (h : Sound strict enum? p v) :
    Sane strict enum? p v := by
  intro w hw
  cases hw with
  | self => exact h
  | part => exact absurd rfl (hv _)

theorem sane_of_data (v : Value) (h : v.Data) : Sane strict enum? p v := by
  cases v with
  | closure _ | struct _ | boundMethod _ _ | enumCase _ => cases h
  | _ => exact sane_of_sound nofun trivial

theorem sane_of_plain (h : v.Plain) (hc : strict → ∀ c, v = .enumCase c → c.Of enum?) :
    Sane strict enum? p v := by
  cases v with
  | enumCase c =>
    have hvalues : c.values = [] := h
    intro w hw
    cases hw with
    | self => exact fun hs => ⟨hc hs c rfl, .inl hvalues⟩
    | part hmem =>
      rw [hvalues] at hmem
      exact absurd hmem List.not_mem_nil
  | none | int _ | bool _ | string _ => exact sane_of_data _ trivial
  | _ => cases h

theorem Sane.part {c : EnumCase Value} (h : Sane strict enum? p (.enumCase c)) (hv : v ∈ c.values) :
    Sane strict enum? p v := fun w hw => h w (.part hv hw)

theorem Sane.complete {c : EnumCase Value} {values : List Value}
    (h : Sane strict enum? p (.enumCase c)) (hlen : values.length = c.arity.toNat)
    (hv : ∀ v ∈ values, Sane strict enum? p v) :
    Sane strict enum? p (.enumCase { c with values }) := by
  intro w hw
  cases hw with
  | self => exact fun hs => ⟨(h.sound hs).1, .inr hlen⟩
  | part hmem hw => exact hv _ hmem w hw

end Values

section Facts

variable (strict : Prop)

def Fixed (c : Chunk Value) (n : UInt8) : Prop := strict ∧ c.locals[n.toNat]? = some subjectName

theorem not_fixed_of_open {c : Chunk Value} {n : UInt8} (h : c.Open strict n) :
    ¬ Fixed strict c n := by
  intro hf
  obtain ⟨name, hname, hs⟩ := h
  cases hname.symm.trans hf.2
  exact hs hf.1 rfl

def Finds (f : Frame) (n : UInt8) (path : List UInt8) (w : Value) : Prop :=
  ∃ v, f.slot n.toNat = .value v ∧ v.at? path = some w

/-- The frame confirms a fact, with the given value on top of the stack. What tests find out counts
only for slots whose value does not change behind them. -/
def Frame.Confirms (f : Frame) (top : Option Value) : Fact → Prop
  | .bound n => f.slot n.toNat ≠ .empty
  | .passed n path owner number => Fixed strict f.chunk n →
    ∃ w, Finds f n path w ∧ isCase owner number w = true
  | .loaded n path => Fixed strict f.chunk n → ∃ w, Finds f n path w ∧ top = some w
  | .tested n path owner number => Fixed strict f.chunk n →
    ∃ w, Finds f n path w ∧ top = some (.bool (isCase owner number w))

variable {strict} {f : Frame} {n : UInt8} {path : List UInt8} {w w' : Value}

theorem Finds.unique (h : Finds f n path w) (h' : Finds f n path w') : w = w' := by
  obtain ⟨v, hv, hw⟩ := h
  obtain ⟨v', hv', hw'⟩ := h'
  cases hv.symm.trans hv'
  exact Option.some.inj (hw.symm.trans hw')

theorem Finds.append {c : EnumCase Value} {m : UInt8} (h : Finds f n path (.enumCase c))
    (hw : c.values[m.toNat]? = some w) : Finds f n (path ++ [m]) w := by
  obtain ⟨v, hv, hc⟩ := h
  exact ⟨v, hv, (Value.at?_append path hc).trans hw⟩

theorem Frame.Confirms.of_lasting {fact : Fact} {top : Option Value} (hl : fact.Lasting)
    (h : f.Confirms strict top fact) (top' : Option Value) : f.Confirms strict top' fact := by
  cases fact with
  | bound | passed => exact h
  | loaded | tested => exact hl.elim

end Facts

section Frames

variable (strict : Prop) (enum? : Symbol → Option EnumType) (p : Program)

/-- The analysis explains the chunk in the program. -/
structure Explained (c : Chunk Value) (space : Space) (literals : List Nest)
    (K : Nat → Knowledge → Prop) : Prop where
  explains : (bindings strict space c literals).Explains c K
  start : K 0 (entry c)
  follows : Follows strict space c literals
  found : ∀ t ∈ literals, p.chunk? t.chunk.symbol = some t.chunk
  enums : strict → ∀ s t, space.enumType? s = some t → enum? s = some t

variable {strict enum? p} in
theorem Grounded.explained {c : Chunk Value} (h : Grounded strict enum? p c) :
    ∃ space literals K, Explained strict enum? p c space literals K := by
  obtain ⟨space, literals, hf, hfound, henums⟩ := h.follows
  obtain ⟨K, hK, hstart⟩ := hf.explained
  exact ⟨space, literals, K, hK, hstart, hf, hfound, henums⟩

structure Active (f : Frame) (tops : Option Value → Prop) : Prop where
  grounded : Grounded strict enum? p f.chunk
  cells : f.closure.cells.size = f.chunk.captures.size
  slots : ∀ n v, f.slot n = .value v → Sane strict enum? p v
  fixed : ∀ n, Fixed strict f.chunk n → ∀ c, f.slot n.toNat ≠ .cell c
  known : ∃ space literals K k, Explained strict enum? p f.chunk space literals K ∧
    K f.next k ∧ ∀ top, tops top → ∀ fact, k fact → f.Confirms strict top fact

variable {strict enum? p}

theorem Active.mono {f : Frame} {tops tops' : Option Value → Prop}
    (h : Active strict enum? p f tops)
    (ht : ∀ top, tops' top → tops top) : Active strict enum? p f tops' := by
  obtain ⟨space, literals, K, k, hK, hk, hfacts⟩ := h.known
  exact { h with known := ⟨space, literals, K, k,
    hK, hk, fun top htop => hfacts top (ht top htop)⟩ }

theorem active_of_started {c : Closure Value} {g : Frame} (hg : Started (Sane strict enum? p) c g)
    (hc : Grounded strict enum? p c.chunk) (hcells : c.cells.size = c.chunk.captures.size)
    (tops : Option Value → Prop) : Active strict enum? p g tops := by
  have hchunk : g.chunk = c.chunk := congrArg Closure.chunk hg.closure
  obtain ⟨space, literals, K, hK⟩ := hc.explained
  refine ⟨hchunk ▸ hc, ?_, fun n v hv => ?_, fun n _ x hx => ?_,
    space, literals, K, entry c.chunk, hchunk ▸ hK, hg.next ▸ hK.start, fun top _ fact hf => ?_⟩
  · rw [hchunk, hg.closure]
    exact hcells
  · rcases hg.slots n with he | ⟨w, hw, he⟩
    · cases he.symm.trans hv
    · cases he.symm.trans hv
      exact hw
  · rcases hg.slots n.toNat with he | ⟨w, -, he⟩ <;> cases he.symm.trans hx
  · obtain ⟨n, rfl, hn⟩ := hf
    exact hg.bound _ hn

end Frames

section Step

variable {strict : Prop} {enum? : Symbol → Option EnumType} {p : Program} {i : Instruction}
  {space : Space} {literals : List Nest} {K : Nat → Knowledge → Prop} {k : Knowledge}

/-! ## One instruction -/

section Instruction

variable {f : Frame} (hK : Explained strict enum? p f.chunk space literals K)
  (hneeds : Needs strict space f.chunk literals k i)

include hK hneeds

theorem yields_of_needs (hp : p.Grounded strict enum?) (hg : Grounded strict enum? p f.chunk)
    (hadmits : Admits p f.chunk i) (hslots : ∀ n v, f.slot n = .value v → Sane strict enum? p v) :
    Yields p f i (Sane strict enum? p) where
  data := sane_of_data
  slot := hslots
  constant n v _ hv := by
    have hmem : v ∈ f.chunk.constants := Array.mem_of_getElem? hv
    refine sane_of_plain (hg.constants v hmem) fun hs c hc => ?_
    obtain ⟨t, case, ht, hcase⟩ := hK.follows.declares hs c (hc ▸ hmem)
    exact ⟨t, case, hK.enums hs _ _ ht, hcase⟩
  part _ _ hc hv := hc.part hv
  complete _ _ hc hlen hv := hc.complete hlen hv
  function n symbol c hi hs hc := by
    subst hi
    have hfree := hadmits symbol c hs hc
    have hcells : (#[] : Array Handle).size = c.captures.size := by rw [hfree.1]; rfl
    exact sane_of_sound nofun ⟨hp.chunk symbol c hc, hcells, hfree.2⟩
  struct n symbol type _ _ ht := sane_of_sound nofun (hp.struct symbol type ht)
  method n symbol ref hi hs := by
    subst hi
    exact sane_of_sound nofun (hadmits symbol hs)
  closure n symbol c id cells hi hs hc hsize := by
    subst hi
    obtain ⟨t, ht, hsymbol⟩ := hneeds
    cases hsymbol.symm.trans hs
    cases (hK.found t ht).symm.trans hc
    exact sane_of_sound nofun ⟨hp.chunk _ _ hc, hsize, hK.follows.receiver t ht⟩

/-- An instruction finds all bindings that it uses. -/
theorem not_lacks_of_needs (hp : p.Grounded strict enum?) (hadmits : Admits p f.chunk i)
    (hcells : f.closure.cells.size = f.chunk.captures.size) {top : Option Value}
    (hfacts : ∀ fact, k fact → f.Confirms strict top fact) :
    ¬ Lacks p (Sane strict enum? p) f i := by
  have hcapture : ∀ n : UInt8, n.toNat < f.chunk.captures.size →
      f.closure.cells[n.toNat]? ≠ none := by
    intro n hn hnone
    rw [Array.getElem?_eq_none_iff] at hnone
    omega
  intro hl
  obtain ⟨op, operand⟩ := i
  cases op
  case getLocal => exact hfacts _ hneeds hl
  case getSelf =>
    rcases hl with hl | hl
    · cases hl.symm.trans hneeds.1
    · exact hfacts _ hneeds.2 hl
  case getCapture | setCapture => exact hcapture _ hneeds hl
  case makeClosure =>
    obtain ⟨symbol, c, hs, hc, x, hx, n, hsource, hnone⟩ := hl
    obtain ⟨t, ht, hsymbol⟩ := hneeds
    cases hsymbol.symm.trans hs
    cases (hK.found t ht).symm.trans hc
    have hoffers := hK.follows.offers t ht x (Array.mem_toList_iff.mp hx)
    rw [hsource] at hoffers
    exact hcapture n hoffers hnone
  case call =>
    obtain ⟨c, hc, hr⟩ := hl
    cases hr.symm.trans hc.sound.2.2
  case callChunk =>
    obtain ⟨symbol, c, hs, hc, hr⟩ := hl
    cases hr.symm.trans (hadmits symbol c hs hc).2
  case getModuleValue =>
    obtain ⟨symbol, c, -, hc, hr⟩ := hl
    cases hr.symm.trans (hp.initializer symbol c hc).2.2
  all_goals exact hl

/-- A slot is bound to a value by the instruction for it, and becomes a cell only if it may. -/
theorem binds_cases {O : Value → Prop} {n : Nat} {x : Slot} (h : Binds p O f n x i) :
    (∃ m, i.binder? = some m ∧ m.toNat = n ∧ ∃ v, O v ∧ x = .value v) ∨
      ∃ m : UInt8, m.toNat = n ∧ f.chunk.Open strict m ∧ ∃ c, x = .cell c := by
  obtain ⟨op, operand⟩ := i
  cases op
  case setLocal | defineLocal => exact .inl ⟨operand, rfl, h.1.symm, h.2⟩
  case defineCell => exact .inr ⟨operand, h.1.symm, hneeds, h.2⟩
  case makeClosure =>
    obtain ⟨hcell, symbol, c, hs, hc, y, hy, m, hsource, hm⟩ := h
    obtain ⟨t, ht, hsymbol⟩ := hneeds
    cases hsymbol.symm.trans hs
    cases (hK.found t ht).symm.trans hc
    have hoffers := hK.follows.offers t ht y hy
    rw [hsource] at hoffers
    exact .inr ⟨m, hm, hoffers, hcell⟩
  all_goals exact h.elim

end Instruction

section Moves

variable {s : State} {g : Frame} (hK : Explained strict enum? p s.frame.chunk space literals K)
  (hneeds : Needs strict space s.frame.chunk literals k i)
  (hm : Moves p (Sane strict enum? p) s i g)

include hK hneeds hm

theorem slots_of_moves (h : ∀ n v, s.frame.slot n = .value v → Sane strict enum? p v) (n : Nat)
    (v : Value) (hv : g.slot n = .value v) : Sane strict enum? p v := by
  rcases hm.slots n with he | hb
  · exact h n v (he.symm.trans hv)
  · rw [hv] at hb
    rcases binds_cases hK hneeds hb with ⟨_, -, -, w, hw, he⟩ | ⟨_, -, -, c, he⟩
    · cases he
      exact hw
    · cases he

/-- The value of a subject changes only where the slot is bound again. -/
theorem slot_of_fixed {n : UInt8} (hn : Fixed strict s.frame.chunk n) (hb : i.binder? ≠ some n) :
    g.slot n.toNat = s.frame.slot n.toNat := by
  rcases hm.slots n.toNat with he | hbinds
  · exact he
  · rcases binds_cases hK hneeds hbinds with ⟨m, hm, he, -⟩ | ⟨m, he, hopen, -⟩
    · cases UInt8.toNat_inj.mp he
      exact absurd hm hb
    · cases UInt8.toNat_inj.mp he
      exact absurd hn (not_fixed_of_open strict hopen)

theorem fixed_of_moves
    (h : ∀ n, Fixed strict s.frame.chunk n → ∀ c, s.frame.slot n.toNat ≠ .cell c) (n : UInt8)
    (hn : Fixed strict g.chunk n) (c : Handle) : g.slot n.toNat ≠ .cell c := by
  rw [hm.chunk] at hn
  intro hc
  rcases hm.slots n.toNat with he | hb
  · exact h n hn c (he.symm.trans hc)
  · rcases binds_cases hK hneeds hb with ⟨_, -, -, v, -, he⟩ | ⟨m, he, hopen, -⟩
    · cases he.symm.trans hc
    · cases UInt8.toNat_inj.mp he
      exact not_fixed_of_open strict hopen hn

variable (hfacts : ∀ fact, k fact → s.frame.Confirms strict s.stack.back? fact)
  {top : Option Value}

include hfacts

variable {fact : Fact}

/-- What was known stays so, unless it is about a slot that was bound again. -/
theorem confirms_lasting (hfact : k.lasting fact)
    (hb : ∀ n path owner number, i.binder? = some n → fact ≠ .passed n path owner number) :
    g.Confirms strict top fact := by
  obtain ⟨hl, hfact⟩ := hfact
  have h := hfacts fact hfact
  cases fact with
  | bound n =>
    intro hempty
    rcases hm.slots n.toNat with he | hbinds
    · exact h (he.symm.trans hempty)
    · rw [hempty] at hbinds
      rcases binds_cases hK hneeds hbinds with ⟨_, -, -, _, -, he⟩ | ⟨_, -, -, _, he⟩ <;> cases he
  | passed n path owner number =>
    intro hn
    rw [hm.chunk] at hn
    obtain ⟨w, ⟨v, hv, hw⟩, hcase⟩ := h hn
    have hslot := slot_of_fixed hK hneeds hm hn fun he => hb n path owner number he rfl
    exact ⟨w, ⟨v, hslot.trans hv, hw⟩, hcase⟩
  | loaded | tested => exact hl.elim

theorem confirms_binding {n : UInt8} (hi : i.binder? = some n) (hfact : k.binding n fact) :
    g.Confirms strict top fact := by
  rcases hfact with rfl | ⟨hl, hne⟩
  · exact hm.bound n hi
  · refine confirms_lasting hK hneeds hm hfacts hl fun m path owner number hm => ?_
    cases hi.symm.trans hm
    exact hne path owner number

/-- What the analysis says behind an instruction holds there. -/
theorem confirms_after
    (hfixed : ∀ n, Fixed strict s.frame.chunk n → ∀ c,
      s.frame.slot n.toNat ≠ .cell c) (hshows : Shows s top i)
    (hfact : k.after s.frame.chunk i fact) : g.Confirms strict top fact := by
  have hlasting : i.binder? = none → k.lasting fact → g.Confirms strict top fact := by
    intro hi hl
    refine confirms_lasting hK hneeds hm hfacts hl fun n path owner number hn => ?_
    cases hi.symm.trans hn
  have hfinds : ∀ {n path w}, i.binder? = none → Fixed strict s.frame.chunk n →
      Finds s.frame n path w → Finds g n path w := by
    intro n path w hi hn hf
    obtain ⟨v, hv, hw⟩ := hf
    have hslot := slot_of_fixed hK hneeds hm hn (by rw [hi]; exact nofun)
    exact ⟨v, hslot.trans hv, hw⟩
  obtain ⟨op, operand⟩ := i
  cases op
  case getLocal =>
    rcases hfact with hl | rfl
    · exact hlasting rfl hl
    · intro hn
      rw [hm.chunk] at hn
      cases hv : s.frame.slot (UInt8.toNat operand) with
      | value v => exact ⟨v, hfinds rfl hn ⟨v, hv, rfl⟩, hshows v hv⟩
      | cell c => exact absurd hv (hfixed operand hn c)
      | empty => exact absurd hv (hfacts _ hneeds)
  case setLocal | defineLocal | defineCell => exact confirms_binding hK hneeds hm hfacts rfl hfact
  case matchCase =>
    rcases hfact with hl | ⟨slot, path, owner, hload, hs, rfl⟩
    · exact hlasting rfl hl
    · intro hn
      rw [hm.chunk] at hn
      obtain ⟨w, hw, htop⟩ := hfacts _ hload hn
      obtain ⟨owner', v, hs', hv, hshows⟩ := hshows
      cases hs.symm.trans hs'
      cases htop.symm.trans hv
      exact ⟨w, hfinds rfl hn hw, hshows⟩
  case getAssociated =>
    rcases hfact with hl | ⟨slot, path, hload, rfl⟩
    · exact hlasting rfl hl
    · intro hn
      rw [hm.chunk] at hn
      obtain ⟨w, hw, htop⟩ := hfacts _ hload hn
      obtain ⟨case, v, hv, hpart, hshows⟩ := hshows
      cases htop.symm.trans hv
      exact ⟨v, hfinds rfl hn (hw.append hpart), hshows⟩
  all_goals exact hlasting rfl hfact

end Moves

/-! ## One step -/

variable {f : Frame} {s s' : State}

theorem Active.instruction {tops : Option Value → Prop} (h : Active strict enum? p f tops)
    (hi : Instruction.decode? f.chunk.code f.next = some i) :
    ∃ space literals K k, Explained strict enum? p f.chunk space literals K ∧
      Needs strict space f.chunk literals k i ∧
      Code.Visit.Agrees (bindings strict space f.chunk literals) K ((f.next, i), k) ∧
      ∀ top, tops top → ∀ fact, k fact → f.Confirms strict top fact := by
  obtain ⟨space, literals, K, k, hK, hk, hfacts⟩ := h.known
  obtain ⟨i', k', hi', hcovers, hagrees⟩ := hK.explains _ _ hk
  cases hi.symm.trans hi'
  refine ⟨space, literals, K, k', hK, ?_, hagrees, fun top ht fact hf =>
    hfacts top ht fact (hcovers fact hf)⟩
  cases hd : i.distance? with
  | none =>
    obtain ⟨m, hm, -⟩ := hagrees.plain hd
    exact hm.1
  | some x =>
    obtain ⟨op, operand⟩ := i
    cases op
    case jump | jumpIfFalse | loop => trivial
    all_goals cases hd

/-- The bodies that an instruction enters are grounded, and their closures have what they
capture. -/
theorem grounded_of_callee {c : Closure Value} (hp : p.Grounded strict enum?)
    (hadmits : Admits p f.chunk i) (h : Callee p (Sane strict enum? p) f i c) :
    Grounded strict enum? p c.chunk ∧ c.cells.size = c.chunk.captures.size := by
  have hplain : ∀ {c : Chunk Value} {s : Symbol}, Grounded strict enum? p c → c.captures = #[] →
      Grounded strict enum? p (plainClosure c s).chunk ∧
        (plainClosure c s).cells.size = (plainClosure c s).chunk.captures.size := by
    intro c s hg hc
    refine ⟨hg, ?_⟩
    change 0 = c.captures.size
    rw [hc]
    rfl
  cases h with
  | closure h => exact ⟨h.sound.1, h.sound.2.1⟩
  | method h hc => exact hplain (hp.chunk _ _ hc) (hp.method _ _ h.sound hc)
  | initializer h _ hi hc => exact hplain (hp.chunk _ _ hc) (hp.method _ _ (h.sound.1 _ hi) hc)
  | invoked hs hc => exact hplain (hp.chunk _ _ hc) (hp.method _ _ (hadmits _ hs) hc)
  | chunk hs hc => exact hplain (hp.chunk _ _ hc) (hadmits _ _ hs hc).1
  | value _ hc =>
    obtain ⟨hg, hfree⟩ := hp.initializer _ _ hc
    exact hplain hg hfree.1

/-- A frame that enters another one waits behind its instruction, where nothing is known of the
stack. -/
theorem active_of_callee {c : Closure Value} {tops : Option Value → Prop}
    (h : Active strict enum? p s.frame tops) (htop : ∃ top, tops top)
    (hi : Instruction.decode? s.frame.chunk.code s.frame.next = some i)
    (hc : Callee p (Sane strict enum? p) (s.fetched i).frame i c) :
    Active strict enum? p (s.fetched i).frame fun _ => True := by
  obtain ⟨space, literals, K, k, hK, -, hagrees, hfacts⟩ := h.instruction hi
  obtain ⟨top, htop⟩ := htop
  have hcall : i.distance? = none ∧ i.opcode ≠ .ret ∧ k.after s.frame.chunk i = k.lasting := by
    cases hc <;> exact ⟨rfl, nofun, rfl⟩
  obtain ⟨m, hm, hnext⟩ := hagrees.plain hcall.1
  refine ⟨h.grounded, h.cells, h.slots, h.fixed, space, literals, K, m, hK, hnext hcall.2.1,
    fun top' _ fact hf => ?_⟩
  have hlasting : k.lasting fact := hcall.2.2 ▸ hm.2 fact hf
  exact Frame.Confirms.of_lasting (f := s.frame) hlasting.1 (hfacts top htop fact hlasting.2) top'

section Going

variable {g : Frame} (h : Active strict enum? p s.frame (· = s.stack.back?))
  (hi : Instruction.decode? s.frame.chunk.code s.frame.next = some i) (hret : i.opcode ≠ .ret)
  (hm : Moves p (Sane strict enum? p) (s.fetched i) i g)
  (hshows : Shows (s.fetched i) s'.stack.back? i)
include h hi hret hm hshows

/-- Where a frame goes on, what is known holds. -/
theorem known_of_moves : ∃ space literals K k, Explained strict enum? p g.chunk space literals K ∧
      K g.next k ∧ ∀ fact, k fact → g.Confirms strict s'.stack.back? fact := by
  obtain ⟨space, literals, K, k, hK, hneeds, hagrees, hfacts⟩ := h.instruction hi
  have hfacts := hfacts _ rfl
  have hlasting : ∀ {fact}, i.binder? = none → k.lasting fact →
      g.Confirms strict s'.stack.back? fact := by
    intro fact hb hl
    refine confirms_lasting (s := s.fetched i) hK hneeds hm hfacts hl
      fun n path owner number hn => ?_
    cases hb.symm.trans hn
  have hexplained : Explained strict enum? p g.chunk space literals K := hm.chunk ▸ hK
  have hproceeds := hm.next
  cases hd : i.distance? with
  | none =>
    obtain ⟨m, ⟨-, hcovers⟩, hnext⟩ := hagrees.plain hd
    have hg : g.next = s.frame.next + i.size := by
      obtain ⟨op, operand⟩ := i
      cases op
      case jump | loop | jumpIfFalse => cases hd
      all_goals exact hproceeds
    refine ⟨space, literals, K, m, hexplained, hg ▸ hnext hret, fun fact hf => ?_⟩
    exact confirms_after (s := s.fetched i) hK hneeds hm hfacts h.fixed hshows (hcovers fact hf)
  | some d =>
    obtain ⟨op, operand⟩ := i
    cases op
    case jump | loop =>
      cases hd
      have ht := (hagrees.jump (by simp)).2 _ (target?_of_next rfl hproceeds)
      refine ⟨space, literals, K, k, hexplained, ht, fun fact hf => ?_⟩
      have hslots : ∀ n, g.slot n = s.frame.slot n := fun n => (hm.slots n).resolve_right id
      have hconfirmed := hfacts fact hf
      rw [hshows]
      cases fact with
      | bound n =>
        change g.slot n.toNat ≠ .empty
        rw [hslots]
        exact hconfirmed
      | passed n path owner number | loaded n path | tested n path owner number =>
        intro hn
        rw [hm.chunk] at hn
        obtain ⟨w, ⟨v, hv, hw⟩, htop⟩ := hconfirmed hn
        exact ⟨w, ⟨v, (hslots _).trans hv, hw⟩, htop⟩
    case jumpIfFalse =>
      cases hd
      obtain ⟨l, m, ⟨hl, hm'⟩, hnext, htarget⟩ := hagrees.test rfl
      obtain ⟨v, hv, ho⟩ := hproceeds
      by_cases ht : v.isTruthy = true
      · rw [if_pos ht] at ho
        have hg : g.next = s.frame.next + _ := Int.ofNat.inj ho
        refine ⟨space, literals, K, l, hexplained, hg ▸ hnext, fun fact hf => ?_⟩
        rcases hl fact hf with hf | ⟨slot, path, owner, number, htested, rfl⟩
        · exact hlasting rfl hf
        · intro hn
          rw [hm.chunk] at hn
          obtain ⟨w, ⟨x, hx, hw⟩, htop⟩ := hfacts _ htested hn
          cases htop.symm.trans hv
          exact ⟨w, ⟨x, ((hm.slots _).resolve_right id).trans hx, hw⟩, ht⟩
      · rw [if_neg ht] at ho
        refine ⟨space, literals, K, m, hexplained, htarget _ (target?_of_next rfl ho),
          fun fact hf => hlasting rfl (hm' fact hf)⟩
    all_goals cases hd

theorem active_of_moves : Active strict enum? p g (· = s'.stack.back?) := by
  obtain ⟨space, literals, K, k, hK, hneeds, -, -⟩ := h.instruction hi
  obtain ⟨space', literals', K', k', hK', hk', hfacts⟩ := known_of_moves h hi hret hm hshows
  refine ⟨hm.chunk ▸ h.grounded, ?_, slots_of_moves (s := s.fetched i) hK hneeds hm h.slots,
    fixed_of_moves (s := s.fetched i) hK hneeds hm h.fixed, space', literals', K', k', hK', hk', ?_⟩
  · rw [hm.chunk, hm.closure]
    exact h.cells
  · rintro top rfl
    exact hfacts

end Going

structure Steady (strict : Prop) (enum? : Symbol → Option EnumType) (p : Program) (s : State) :
    Prop where
  holds : Holds p (Sane strict enum? p) s
  running : Active strict enum? p s.frame (· = s.stack.back?)
  waiting : ∀ f ∈ s.callers, Active strict enum? p f fun _ => True

variable {s : State}

theorem Steady.instruction {heights : List Nat} (h : Steady strict enum? p s)
    (hinv : Invariant False p s heights) :
    ∃ i, Instruction.decode? s.frame.chunk.code s.frame.next = some i ∧
      Admits p s.frame.chunk i := by
  obtain ⟨i, hdecode, hreach, hi, -⟩ := hinv.fetches
  exact ⟨i, hdecode, h.running.grounded.admits _ i hreach hi⟩

/-- An instruction other than a return finds all bindings that it uses. -/
theorem Steady.step_acts {heights : List Nat} (hp : p.Grounded strict enum?)
    (h : Steady strict enum? p s) (hinv : Invariant False p s heights)
    (hi : Instruction.decode? s.frame.chunk.code s.frame.next = some i)
    (hadmits : Admits p s.frame.chunk i) (hret : i.opcode ≠ .ret) :
    ∃ j, Acts ⟨p, Sane strict enum? p, False, 0⟩ False (step p) s fun r s' => r = none ∧
      Outcome ⟨p, Sane strict enum? p, False, 0⟩ j (s.fetched i) i s' ∧
      Shows (s.fetched i) s'.stack.back? i := by
  obtain ⟨space, literals, K, k, hK, hneeds, -, hfacts⟩ := h.running.instruction hi
  have hyields : Yields p (s.fetched i).frame i (Sane strict enum? p) :=
    yields_of_needs hK hneeds hp h.running.grounded hadmits h.running.slots
  have hlacks : ¬ Lacks p (Sane strict enum? p) (s.fetched i).frame i :=
    not_lacks_of_needs hK hneeds hp hadmits h.running.cells (f := (s.fetched i).frame)
      (hfacts _ rfl)
  obtain ⟨j, hacts⟩ := hinv.outcome hi h.holds hret hyields
  exact ⟨j, hacts.result.mono (fun _ _ => id) fun _ _ he => ⟨⟨he.1.1, he.1.2.mono hlacks⟩, he.2⟩,
    hacts.framed⟩

theorem Steady.outcome {j : Nat} (hp : p.Grounded strict enum?) (h : Steady strict enum? p s)
    (hi : Instruction.decode? s.frame.chunk.code s.frame.next = some i)
    (hadmits : Admits p s.frame.chunk i) (hret : i.opcode ≠ .ret)
    (ho : Outcome ⟨p, Sane strict enum? p, False, 0⟩ j (s.fetched i) i s')
    (hshows : Shows (s.fetched i) s'.stack.back? i) : Steady strict enum? p s' := by
  cases ho with
  | moves hm _ hw =>
    refine ⟨hw.toHolds, hw.frame ▸ active_of_moves h.running hi hret hm hshows, fun f hf => ?_⟩
    rw [hw.callers] at hf
    exact h.waiting f hf
  | enters hc _ _ he =>
    obtain ⟨g, hg, -, hw⟩ := he
    obtain ⟨hgrounded, hcells⟩ := grounded_of_callee (f := (s.fetched i).frame) hp hadmits hc
    refine ⟨hw.toHolds, hw.frame ▸ active_of_started hg hgrounded hcells _, fun f hf => ?_⟩
    rw [hw.callers] at hf
    rcases Array.mem_push.mp hf with hf | rfl
    · exact h.waiting f hf
    · exact active_of_callee h.running ⟨_, rfl⟩ hi hc

theorem Steady.returned {j : Nat} (h : Steady strict enum? p s) (hf : s.callers.back? = some f)
    (hw : Held ⟨p, Sane strict enum? p, False, 0⟩ j s.callers.pop f s') :
    Steady strict enum? p s' := by
  have hactive := h.waiting f (Array.mem_of_back? hf)
  refine ⟨hw.toHolds, hw.frame ▸ hactive.mono fun _ _ => trivial, fun g hg => ?_⟩
  rw [hw.callers] at hg
  exact h.waiting g (mem_of_mem_pop hg)

/-- A step misses no binding and keeps everything as the analysis says. -/
theorem Steady.step {heights : List Nat} (hp : p.Grounded strict enum?)
    (h : Steady strict enum? p s) (hinv : Invariant False p s heights) :
    Acts ⟨p, Sane strict enum? p, False, 0⟩ False (step p) s fun r s' =>
      Kept p (Sane strict enum? p) s'.heap ∧ (∀ v, r = some v → Sane strict enum? p v) ∧
        (r = none → Steady strict enum? p s') := by
  obtain ⟨i, hi, hadmits⟩ := h.instruction hinv
  by_cases hret : i.opcode = .ret
  · refine (hinv.returns hi h.holds hret).mono fun r s' hr => ⟨hr.1, hr.2.1, fun hn => ?_⟩
    obtain ⟨f, hf, hw⟩ := hr.2.2 hn
    exact h.returned hf hw
  · obtain ⟨j, hacts⟩ := h.step_acts hp hinv hi hadmits hret
    refine hacts.mono fun r s' hr => ?_
    have hs := h.outcome hp hi hadmits hret hr.2.1 hr.2.2
    refine ⟨hs.holds.heap, fun v hv => ?_, fun _ => hs⟩
    cases hr.1.symm.trans hv

end Step

/-! ## Runs -/

section Runs

variable {strict : Prop} {enum? : Symbol → Option EnumType} {p : Program} {s : State}
  {heights : List Nat}

theorem steady_start (hp : p.Grounded strict enum?) {heap : Heap}
    (hsane : Kept p (Sane strict enum? p) heap) (closures : Nat) :
    Steady strict enum? p (start p heap closures) := by
  have harity : ([] : List Value).length = p.main.arity.toNat := by
    rw [hp.arity]
    rfl
  have hstarted : Started (Sane strict enum? p) (plainClosure p.main p.main.symbol)
      (start p heap closures).frame :=
    started_plain hp.free.2 harity (fun v hv => absurd hv List.not_mem_nil) 0
  have hcells : (#[] : Array Handle).size = p.main.captures.size := by
    rw [hp.free.1]
    rfl
  exact {
    holds := {
      stack := fun v hv => absurd hv (Array.not_mem_empty v)
      heap := hsane
      values := nofun
      room := Nat.zero_le _ }
    running := active_of_started hstarted hp.main hcells _
    waiting := fun f hf => absurd hf (Array.not_mem_empty f) }

theorem steady_kept (hp : p.Grounded strict enum?) :
    Keeps p (Sane strict enum? p) (Steady strict enum? p) := fun _ _ hinv h =>
  ⟨h.holds.heap, (h.step hp hinv).result.mono (fun _ _ hr => ⟨hr.1, hr.2.2⟩) fun _ _ => And.right⟩

/-- In every state that a run reaches, all frames are as the analysis says. -/
theorem Reaches.steady (hgood : p.Good False) (hp : p.Grounded strict enum?)
    (h : Reaches p s heights) : Invariant False p s heights ∧ Steady strict enum? p s :=
  (steady_kept hp).reaches hgood (fun _ closures hh => steady_start hp hh closures) h

end Runs

end Machine

end StackCode
