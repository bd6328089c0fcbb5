import StackCode.Machine.Run
import StackCode.Proofs.Collections
import StackCode.Proofs.Verification

/-! # Computations of the machine

What a program that is accepted computes with, and a triple for computations on its states: they
keep a property of all values, fail only as accepted code may, and neither read nor change what lies
below a given height of the stack.
-/

namespace StackCode

namespace Value

mutual

/-- The property holds of a value, and instead of a case, of the values in it. -/
def Throughout (Q : Value → Prop) : Value → Prop
  | .enumCase ⟨_, _, _, _, values⟩ => ThroughoutAll Q values
  | v => Q v

def ThroughoutAll (Q : Value → Prop) : List Value → Prop
  | [] => True
  | v :: vs => v.Throughout Q ∧ ThroughoutAll Q vs

end

variable {Q Q' : Value → Prop}

theorem throughoutAll_iff {vs : List Value} :
    ThroughoutAll Q vs ↔ ∀ v ∈ vs, v.Throughout Q := by
  induction vs with
  | nil => simp [ThroughoutAll]
  | cons v vs ih => simp [ThroughoutAll, ih]

theorem throughout_enumCase {c : EnumCase Value} :
    (Value.enumCase c).Throughout Q ↔ ∀ v ∈ c.values, v.Throughout Q := by
  rw [Throughout, throughoutAll_iff]

mutual

theorem Throughout.mono (h : ∀ v, Q v → Q' v) : (v : Value) → v.Throughout Q → v.Throughout Q'
  | .enumCase ⟨_, _, _, _, values⟩, hv => by
    rw [Throughout] at hv ⊢
    exact ThroughoutAll.mono h values hv
  | .none, hv | .int _, hv | .bool _, hv | .string _, hv | .pointer _, hv | .object _, hv
  | .closure _, hv | .struct _, hv | .boundMethod .., hv | .builtin _, hv => h _ hv

theorem ThroughoutAll.mono (h : ∀ v, Q v → Q' v) :
    (vs : List Value) → ThroughoutAll Q vs → ThroughoutAll Q' vs
  | [], _ => trivial
  | v :: vs, hv => ⟨Throughout.mono h v hv.1, ThroughoutAll.mono h vs hv.2⟩

end

end Value

def Chunk.Names (c : Chunk Value) (n : UInt16) (P : Symbol → Prop) : Prop :=
  ∃ s, c.symbol? n = some s ∧ P s

theorem Chunk.Names.apply {c : Chunk Value} {n : UInt16} {P : Symbol → Prop} (h : c.Names n P)
    {s : Symbol} (hs : c.symbol? n = some s) : P s := by
  obtain ⟨s', hs', hP⟩ := h
  cases hs.symm.trans hs'
  exact hP

namespace Machine

section Programs

variable (closed : Prop) (p : Program)

/-- A struct can be called: the machine provides it, or its initializer is there. -/
def Constructs (type : StructType) : Prop :=
  if type.symbol.isStandard then
    type.name = Standard.arrayName ∨ type.name = Standard.dictionaryName
  else ∀ init, type.initializer = some init → (p.chunk? init).isSome

/-- A method can be called: the machine provides it, or its body is there. -/
def Invokes (method : Symbol) : Prop :=
  if method.isStandard then Collection.Provides method else (p.chunk? method).isSome

def Resolves (c : Chunk Value) : Instruction → Prop
  | ⟨.getModuleFunction, n⟩ | ⟨.makeClosure, n⟩ | ⟨.callChunk, n⟩ =>
    c.Names n fun s => (p.chunk? s).isSome
  | ⟨.getModuleValue, n⟩ => c.Names n fun s => (p.initializer? s).isSome
  | ⟨.getStruct, n⟩ => c.Names n fun s => ∃ type, p.structType? s = some type ∧ Constructs p type
  | ⟨.getBuiltin, n⟩ => c.Names n fun s => (Builtin.ofSymbol? s).isSome
  | ⟨.getMethod, n⟩ => c.Names n (Invokes p)
  | ⟨.invokeMethod, n⟩ => c.Names n.symbol (Invokes p)
  | _ => True

/-- A constant that leads to no code. In a closed program it must be possible to call what it
refers to. -/
def Inert : Value → Prop
  | .closure _ => False
  | .struct type => closed → Constructs p type
  | .boundMethod _ method => closed → Invokes p method
  | _ => True

/-- A chunk that the machine may run: its depths are accepted, and in a closed program the symbols
on its paths lead somewhere. -/
structure Runnable (c : Chunk Value) : Prop where
  depths : ∃ r, c.depths = .ok r
  constants : ∀ v ∈ c.constants, v.Throughout (Inert closed p)
  resolves : closed → ∀ o i, c.Reaches o → c.instruction? o = some i → Resolves p c i

def Leads : Value → Prop
  | .closure c => Runnable closed p c.chunk
  | v => Inert closed p v

/-- A value with which the machine may compute. -/
def Fine (v : Value) : Prop := v.Throughout (Leads closed p)

structure Frame.Good (f : Frame) : Prop where
  runnable : Runnable closed p f.chunk
  slots : ∀ n v, f.slot n = .value v → Fine closed p v

/-- A heap that the machine may have made under the limits of the program, in which all values have
the property. -/
structure Kept (O : Value → Prop) (h : Heap) : Prop extends h.All O where
  limit : h.maxBlockSlots = p.limits.maxBlockSlots

/-- All values that the state holds outside of its frames have the property. -/
structure Holds (O : Value → Prop) (s : State) : Prop where
  stack : ∀ v ∈ s.stack, O v
  heap : Kept p O s.heap
  values : ∀ k v, s.values.get? k = some v → O v
  room : s.stack.size ≤ p.limits.maxStack

structure State.Good (s : State) : Prop extends Holds p (Fine closed p) s where
  frame : s.frame.Good closed p
  callers : ∀ f ∈ s.callers, f.Good closed p

/-- What the bodies of a program must satisfy for it to run. -/
structure Program.Good : Prop where
  main : Runnable closed p p.main
  chunk : ∀ s c, p.chunk? s = some c → Runnable closed p c
  initializer : ∀ s c, p.initializer? s = some c → Runnable closed p c

end Programs

variable {closed : Prop} {p : Program}

theorem fine_of_data (v : Value) (h : v.Data) : Fine closed p v := by
  cases v with
  | closure _ | struct _ | boundMethod _ _ | enumCase _ => cases h
  | _ => trivial

theorem fine_enumCase {c : EnumCase Value} :
    Fine closed p (.enumCase c) ↔ ∀ v ∈ c.values, Fine closed p v := Value.throughout_enumCase

theorem Runnable.constant {c : Chunk Value} (h : Runnable closed p c) {n : UInt16} {v : Value}
    (hv : c.constant? n = some v) : Fine closed p v := by
  refine Value.Throughout.mono (fun w hw => ?_) v (h.constants v (Array.mem_of_getElem? hv))
  cases w with
  | closure _ => exact hw.elim
  | _ => exact hw

/-! ## Other values below a height -/

section Rebase

variable {α : Type} {xs a : Array α}

def rebase (xs a : Array α) : Array α := xs ++ a.extract xs.size a.size

theorem size_rebase (h : xs.size ≤ a.size) : (rebase xs a).size = a.size := by
  simp [rebase]
  omega

theorem getElem?_rebase {k : Nat} (hk : xs.size ≤ k) : (rebase xs a)[k]? = a[k]? := by
  rw [rebase, Array.getElem?_append_right hk, Array.getElem?_extract]
  split
  · congr 1
    omega
  · rw [Array.getElem?_eq_none]
    omega

theorem getElem?_rebase_lt {k : Nat} (hk : k < xs.size) : (rebase xs a)[k]? = xs[k]? := by
  rw [rebase, Array.getElem?_append_left hk]

theorem eq_rebase {b : Array α} (hb : ∀ k : Nat, k < xs.size → b[k]? = xs[k]?)
    (ha : ∀ k : Nat, xs.size ≤ k → b[k]? = a[k]?) : b = rebase xs a := by
  refine Array.ext_getElem? fun k => ?_
  rcases Nat.lt_or_ge k xs.size with hk | hk
  · rw [hb k hk, getElem?_rebase_lt hk]
  · rw [ha k hk, getElem?_rebase hk]

theorem rebase_push (h : xs.size ≤ a.size) (v : α) :
    (rebase xs a).push v = rebase xs (a.push v) := by
  refine eq_rebase (fun k hk => ?_) fun k hk => ?_
  · rw [Array.getElem?_push, size_rebase h, if_neg (by omega), getElem?_rebase_lt hk]
  · rw [Array.getElem?_push, Array.getElem?_push, size_rebase h, getElem?_rebase hk]

theorem rebase_pop (h : xs.size < a.size) : (rebase xs a).pop = rebase xs a.pop := by
  refine eq_rebase (fun k hk => ?_) fun k hk => ?_
  · rw [Array.getElem?_pop, size_rebase (by omega), if_pos (by omega), getElem?_rebase_lt hk]
  · rw [Array.getElem?_pop, Array.getElem?_pop, size_rebase (by omega), getElem?_rebase hk]

theorem rebase_shrink {n : Nat} (hn : xs.size ≤ n) :
    (rebase xs a).shrink n = rebase xs (a.shrink n) := by
  refine eq_rebase (fun k hk => ?_) fun k hk => ?_
  · rw [getElem?_shrink, if_pos (by omega), getElem?_rebase_lt hk]
  · rw [getElem?_shrink, getElem?_shrink, getElem?_rebase hk]

theorem back?_rebase (h : xs.size < a.size) : (rebase xs a).back? = a.back? := by
  rw [Array.back?_eq_getElem?, Array.back?_eq_getElem?, size_rebase (by omega),
    getElem?_rebase (by omega)]

theorem extract_rebase (h : xs.size ≤ a.size) {n : Nat} (hn : xs.size ≤ n) :
    (rebase xs a).extract n (rebase xs a).size = a.extract n a.size := by
  refine Array.ext_getElem? fun k => ?_
  rw [Array.getElem?_extract, Array.getElem?_extract, size_rebase h, getElem?_rebase (by omega)]

end Rebase

def State.under (s : State) (xs : Array Value) : State := { s with stack := rebase xs s.stack }

def resultUnder {α : Type} (xs : Array Value) :
    EStateM.Result Failure State α → EStateM.Result Failure State α
  | .ok a s => .ok a (s.under xs)
  | .error e s => .error e (s.under xs)

/-- What computations keep to: a property of all values, whether all symbols lead somewhere, and the
height of the stack below which nothing matters. -/
structure Terms where
  p : Program
  O : Value → Prop
  closed : Prop
  n : Nat

/-- The computation leads from the state to a result as given. If it fails, then as accepted code
may, and for want of a binding only as told, and it keeps the heap. It does the same whatever lies
on the stack below the height, and leaves it there. -/
structure Acts {α : Type} (K : Terms) (L : Prop) (m : Exec α) (s : State) (Q : α → State → Prop) :
    Prop where
  result : Meets Q (fun e s' => (e.Allowed K.closed ∧ e.Misses L) ∧ Kept K.p K.O s'.heap) (m s)
  framed : ∀ xs : Array Value, xs.size = K.n → m (s.under xs) = resultUnder xs (m s)

namespace Acts

variable {α β : Type} {K : Terms} {L : Prop} {m : Exec α} {s : State} {Q Q' : α → State → Prop}
  {cause : Cause}

theorem done {a : α} (h : Q a s) : Acts K L (pure a) s Q := ⟨h, fun _ _ => rfl⟩

theorem trap (hc : ¬ cause.Unsound ∧ ¬ cause.Unresolved ∧ ¬ cause.Unbound)
    (hs : Kept K.p K.O s.heap) : Acts K L (Exec.trap cause : Exec α) s Q :=
  ⟨⟨⟨⟨hc.1, fun _ => hc.2.1⟩, Failure.misses_of_not hc.2.2⟩, hs⟩, fun _ _ => rfl⟩

theorem misses (he : (Failure.trap cause).Allowed K.closed) (hL : L) (hs : Kept K.p K.O s.heap) :
    Acts K L (Exec.trap cause : Exec α) s Q := ⟨⟨⟨he, fun _ => .inl hL⟩, hs⟩, fun _ _ => rfl⟩

theorem bind {rest : α → Exec β} {S : β → State → Prop} (h : Acts K L m s Q)
    (h' : ∀ a s', Q a s' → Acts K L (rest a) s' S) : Acts K L (m >>= rest) s S := by
  refine ⟨h.result.bind fun a s' ha => (h' a s' ha).result, fun xs hx => ?_⟩
  have hf := h.framed xs hx
  have hr := h.result
  change EStateM.bind m rest (s.under xs) = resultUnder xs (EStateM.bind m rest s)
  unfold EStateM.bind
  rw [hf]
  generalize m s = r at hr
  cases r with
  | ok a s' => exact (h' a s' hr).framed xs hx
  | error e s' => rfl

/-- What follows a computation that changes nothing starts from the same state. -/
theorem looks {P : α → Prop} {rest : α → Exec β} {S : β → State → Prop}
    (h : Acts K L m s fun a s' => P a ∧ s' = s) (h' : ∀ a, P a → Acts K L (rest a) s S) :
    Acts K L (m >>= rest) s S :=
  h.bind fun a _ ha => ha.2 ▸ h' a ha.1

theorem mono (h : Acts K L m s Q) (hQ : ∀ a s', Q a s' → Q' a s') : Acts K L m s Q' :=
  ⟨h.result.mono hQ fun _ _ => id, h.framed⟩

theorem read {rest : State → Exec β} {S : β → State → Prop}
    (hf : ∀ xs : Array Value, xs.size = K.n → rest (s.under xs) = rest s)
    (h : Acts K L (rest s) s S) : Acts K L (get >>= rest) s S := by
  refine ⟨h.result, fun xs hx => ?_⟩
  change rest (s.under xs) (s.under xs) = resultUnder xs (rest s s)
  rw [hf xs hx]
  exact h.framed xs hx

theorem modified {f : State → State}
    (hf : ∀ xs : Array Value, xs.size = K.n → f (s.under xs) = (f s).under xs)
    {S : PUnit → State → Prop} (h : S ⟨⟩ (f s)) : Acts K L (modify f : Exec PUnit) s S := by
  refine ⟨h, fun xs hx => ?_⟩
  change EStateM.Result.ok PUnit.unit (f (s.under xs)) = .ok PUnit.unit ((f s).under xs)
  rw [hf xs hx]

theorem ofOption {found : Option α} (hsome : ∀ a, found = some a → Q a s)
    (hnone : found = none → Acts K L (Exec.trap cause) s Q) :
    Acts K L (Exec.ofOption found cause) s Q := by
  cases found with
  | some a => exact done (hsome a rfl)
  | none => exact hnone rfl

/-- A value that is there. -/
theorem present {found : Option α} (hf : found.isSome) :
    Acts K L (Exec.ofOption found cause) s fun a s' => found = some a ∧ s' = s := by
  cases found with
  | some a => exact done ⟨rfl, rfl⟩
  | none => cases hf

/-- A lookup by a symbol, which leads somewhere in a closed program. -/
theorem lookup {found : Option α} (hs : Kept K.p K.O s.heap) (hf : K.closed → found.isSome)
    (symbol : Symbol) :
    Acts K L (Exec.ofOption found (.unresolvedSymbol symbol.text)) s fun a s' =>
      found = some a ∧ s' = s := by
  refine .ofOption (fun a ha => ⟨ha, rfl⟩) fun hn =>
    ⟨⟨⟨⟨nofun, fun hc => ?_⟩, Failure.misses_of_not nofun⟩, hs⟩, fun _ _ => rfl⟩
  have := hf hc
  rw [hn] at this
  cases this

end Acts

end Machine

end StackCode
