import StackCode.Proofs.Nesting

/-! # What is known in a body

Facts that hold at a point of a body whatever path leads there: which slots are bound, and what the
tests of patterns have found out about the subject of a choice. An instruction needs some of them
and lets others be known behind it.
-/

namespace StackCode

/-- The name of the local that holds the subject of a choice by patterns. -/
def subjectName : String := "<match>"

/-- A slot that may become a cell. If the analysis is strict, the subject of a choice may not. -/
def Chunk.Open (strict : Prop) (c : Chunk Value) (n : UInt8) : Prop :=
  ∃ name, c.locals[n.toNat]? = some name ∧ (strict → name ≠ subjectName)

namespace Code

inductive Fact where
  | bound (slot : UInt8)
  /-- What the path leads to below the value of the slot is the case of the given number. -/
  | passed (slot : UInt8) (path : List UInt8) (owner : Symbol) (number : UInt8)
  /-- What the path leads to is on top of the stack. -/
  | loaded (slot : UInt8) (path : List UInt8)
  /-- On top of the stack stands whether what the path leads to is the case. -/
  | tested (slot : UInt8) (path : List UInt8) (owner : Symbol) (number : UInt8)

def Fact.Lasting : Fact → Prop
  | bound _ | passed .. => True
  | loaded .. | tested .. => False

abbrev Knowledge := Fact → Prop

namespace Knowledge

def Covers (k k' : Knowledge) : Prop := ∀ f, k' f → k f

def lasting (k : Knowledge) : Knowledge := fun f => f.Lasting ∧ k f

def passing (k : Knowledge) : Knowledge := fun f =>
  k.lasting f ∨ ∃ slot path owner number,
    k (.tested slot path owner number) ∧ f = .passed slot path owner number

def binding (k : Knowledge) (slot : UInt8) : Knowledge := fun f =>
  f = .bound slot ∨ k.lasting f ∧ ∀ path owner number, f ≠ .passed slot path owner number

def after (c : Chunk Value) (k : Knowledge) : Instruction → Knowledge
  | ⟨.getLocal, n⟩ => fun f => k.lasting f ∨ f = .loaded n []
  | ⟨.setLocal, n⟩ | ⟨.defineLocal, n⟩ | ⟨.defineCell, n⟩ => k.binding n
  | ⟨.matchCase, case⟩ => fun f => k.lasting f ∨ ∃ slot path owner,
    k (.loaded slot path) ∧ c.symbol? case.symbol = some owner ∧
      f = .tested slot path owner case.number
  | ⟨.getAssociated, (n : UInt8)⟩ => fun f => k.lasting f ∨ ∃ slot path,
    k (.loaded slot path) ∧ f = .loaded slot (path ++ [n])
  | _ => k.lasting

end Knowledge

open Lowering in
/-- What has to be known before an instruction. Only if the analysis is strict, values are taken out
of nothing but cases that have them. -/
def Needs (strict : Prop) (space : Space) (c : Chunk Value) (literals : List Nest)
    (k : Knowledge) : Instruction → Prop
  | ⟨.getLocal, n⟩ => k (.bound n)
  | ⟨.getSelf, _⟩ => c.hasReceiver = true ∧ k (.bound 0)
  | ⟨.defineCell, n⟩ => c.Open strict n
  | ⟨.getCapture, n⟩ | ⟨.setCapture, n⟩ => n.toNat < c.captures.size
  | ⟨.makeClosure, n⟩ => ∃ t ∈ literals, c.symbol? n = some t.chunk.symbol
  | ⟨.getAssociated, n⟩ => strict → ∃ slot path owner number t case,
    c.locals[slot.toNat]? = some subjectName ∧ k (.loaded slot path) ∧
      k (.passed slot path owner number) ∧ space.enumType? owner = some t ∧
      t.cases[number.toNat]? = some case ∧ n.toNat < case.values.length
  | _ => True

def isFree (i : Instruction) : Bool :=
  match i.opcode with
  | .getLocal | .setLocal | .defineLocal | .defineCell | .getSelf | .getCapture | .setCapture
  | .makeClosure | .jump | .jumpIfFalse | .loop | .matchCase | .getAssociated => false
  | _ => true

theorem runs_of_isFree {i : Instruction} (h : isFree i = true) :
    i.distance? = none ∧ (∀ strict space c literals k, Needs strict space c literals k i) ∧
      ∀ c (k : Knowledge), k.after c i = k.lasting := by
  obtain ⟨op, operand⟩ := i
  cases op
  case getLocal | setLocal | defineLocal | defineCell | getSelf | getCapture | setCapture
      | makeClosure | jump | jumpIfFalse | loop | matchCase | getAssociated => cases h
  all_goals exact ⟨rfl, fun _ _ _ _ _ => trivial, fun _ _ => rfl⟩

open Lowering in
/-- The analysis of a body with the given literals in it. -/
def bindings (strict : Prop) (space : Space) (c : Chunk Value) (literals : List Nest) :
    Analysis Knowledge where
  covers := Knowledge.Covers
  runs i k m := Needs strict space c literals k i ∧ (k.after c i).Covers m
  binds slot k m := (k.binding slot).Covers m
  tests k l m := k.passing.Covers l ∧ k.lasting.Covers m
  jumps _ := True
  refl _ _ := id
  trans _ _ _ h h' f hf := h f (h' f hf)

/-- What is known when a body is entered: the receiver and the parameters are bound. -/
def entry (c : Chunk Value) : Knowledge := fun f =>
  ∃ n, f = .bound n ∧ n.toNat < (if c.hasReceiver then 1 else 0) + c.arity.toNat

/-- The second chunk has everything that the analysis of the first one relies on. -/
structure Extended (c c' : Chunk Value) : Prop where
  receiver : c'.hasReceiver = c.hasReceiver
  locals : ∀ (n : Nat) (name : String), c.locals[n]? = some name → c'.locals[n]? = some name
  captures : c.captures.size ≤ c'.captures.size
  symbols : ∀ n s, c.symbol? n = some s → c'.symbol? n = some s

namespace Extended

variable {strict : Prop} {space : Space} {c c' c'' : Chunk Value}

theorem refl (c : Chunk Value) : Extended c c :=
  ⟨rfl, fun _ _ => id, Nat.le_refl _, fun _ _ => id⟩

theorem trans (h : Extended c c') (h' : Extended c' c'') : Extended c c'' where
  receiver := h'.receiver.trans h.receiver
  locals n name hn := h'.locals n name (h.locals n name hn)
  captures := Nat.le_trans h.captures h'.captures
  symbols n s hs := h'.symbols n s (h.symbols n s hs)

theorem isOpen (h : Extended c c') {n : UInt8} (hn : c.Open strict n) : c'.Open strict n := by
  obtain ⟨name, hname, hs⟩ := hn
  exact ⟨name, h.locals _ _ hname, hs⟩

theorem needs (h : Extended c c') {ts us : List Lowering.Nest} (ht : ts ⊆ us) {k : Knowledge}
    {i : Instruction} (hi : Needs strict space c ts k i) : Needs strict space c' us k i := by
  obtain ⟨op, operand⟩ := i
  cases op
  case getLocal => exact hi
  case getSelf => exact ⟨h.receiver.trans hi.1, hi.2⟩
  case defineCell => exact h.isOpen hi
  case getCapture | setCapture => exact Nat.lt_of_lt_of_le hi h.captures
  case makeClosure =>
    obtain ⟨t, hmem, hs⟩ := hi
    exact ⟨t, ht hmem, h.symbols _ _ hs⟩
  case getAssociated =>
    intro hstrict
    obtain ⟨slot, path, owner, number, t, case, hl, hrest⟩ := hi hstrict
    exact ⟨slot, path, owner, number, t, case, h.locals _ _ hl, hrest⟩
  all_goals trivial

theorem after (h : Extended c c') (k : Knowledge) (i : Instruction) :
    (k.after c' i).Covers (k.after c i) := by
  obtain ⟨op, operand⟩ := i
  cases op
  case matchCase =>
    rintro f (hf | ⟨slot, path, owner, hk, hs, rfl⟩)
    · exact .inl hf
    · exact .inr ⟨slot, path, owner, hk, h.symbols _ _ hs, rfl⟩
  all_goals exact fun _ => id

theorem within (h : Extended c c') {ts us : List Lowering.Nest} (ht : ts ⊆ us) :
    (bindings strict space c ts).Within (bindings strict space c' us) where
  covers _ _ := id
  runs i k _ hi := ⟨h.needs ht hi.1, fun f hf => h.after k i f (hi.2 f hf)⟩
  binds _ _ _ := id
  tests _ _ _ := id
  jumps _ := id

end Extended

theorem runs_binder_of_open {strict : Prop} {space : Space} {c : Chunk Value}
    {literals : List Lowering.Nest} {cells : List UInt8} (h : ∀ n ∈ cells, c.Open strict n)
    (slot : UInt8) (k m : Knowledge) (hb : (bindings strict space c literals).binds slot k m) :
    (bindings strict space c literals).runs (binder cells slot) k m := by
  unfold binder
  split
  · rename_i hc
    exact ⟨h slot (List.contains_iff_mem.mp hc), hb⟩
  · exact ⟨trivial, hb⟩

end Code

end StackCode
