import StackCode.Proofs.Addresses
import StackCode.Proofs.Computations
import StackCode.Proofs.Methods

/-! # Operations within their domains

A step that ends in neither a value nor a trap uses a collection whose properties lead beyond the
addresses, or calls a method of a collection that a module declares with fewer parameters than the
machine reads. No other operation is used outside of its domain, unless the limits allow blocks that
cannot be.
-/

namespace StackCode

namespace Machine

open Linking

variable {p : Program} {s : State} {i : Instruction}

def Quiet {α : Type} (m : Exec α) (s : State) (Q : α → State → Prop) : Prop :=
  Meets Q (fun e _ => e ≠ .fault) (m s)

def Tame {α : Type} (m : Exec α) : Prop := ∀ s, Quiet m s fun _ _ => True

section Rules

variable {α β : Type} {m : Exec α} {rest : α → Exec β} {Q : α → State → Prop}

theorem Quiet.bind {R : β → State → Prop} (h : Quiet m s Q)
    (h' : ∀ a s', Q a s' → Quiet (rest a) s' R) : Quiet (m >>= rest) s R :=
  Meets.bind h h'

theorem Quiet.read {rest : State → Exec β} {R : β → State → Prop} (h : Quiet (rest s) s R) :
    Quiet (get >>= rest) s R := h

theorem quiet_trap {cause : Cause} :
    Quiet (Exec.trap cause : Exec α) s Q := fun h => Failure.noConfusion h

theorem Tame.bind (h : Tame m) (h' : ∀ a, Tame (rest a)) :
    Tame (m >>= rest) := fun s => (h s).bind fun a s' _ => h' a s'

theorem Tame.after (h : Quiet m s Q) (h' : ∀ a, Tame (rest a)) :
    Quiet (m >>= rest) s fun _ _ => True :=
  h.bind fun a s' _ => h' a s'

theorem tame_pure (a : α) : Tame (pure a : Exec α) := fun _ => trivial

theorem tame_trap (cause : Cause) : Tame (Exec.trap cause : Exec α) := fun _ => quiet_trap

theorem host_quiet {op : Host α} (h : Host.Quiet op s.heap fun _ _ => True) :
    Quiet (Exec.host op) s fun _ _ => True := by
  unfold Host.Quiet at h
  unfold Quiet Exec.host
  dsimp only
  generalize op s.heap = r at h ⊢
  cases r with
  | ok a heap => trivial
  | error e heap => exact h

theorem tame_access (a : Heap.Access α) : Tame (Exec.access a) := fun _ =>
  host_quiet ((Host.quiet_access a).mono fun _ _ _ => trivial)

end Rules

/-! ## Operations of the machine -/

theorem tame_push (p : Program) (v : Value) : Tame (push p v) := by
  intro s
  unfold Quiet push
  split
  · trivial
  · exact fun h => Failure.noConfusion h

theorem pop_quiet (s : State) : Quiet pop s fun v s' =>
    s.stack.back? = some v ∧ s' = { s with stack := s.stack.pop } := by
  unfold Quiet pop
  cases hv : s.stack.back? with
  | some v => exact ⟨rfl, rfl⟩
  | none => exact fun h => Failure.noConfusion h

theorem peek_quiet (s : State) : Quiet peek s fun _ s' => s' = s := by
  unfold Quiet peek
  cases s.stack.back? with
  | some v => exact rfl
  | none => exact fun h => Failure.noConfusion h

theorem cutAbove_quiet (s : State) (height : Nat) : Quiet (cutAbove height) s fun vs s' =>
    vs.length = s.stack.size - height ∧ s'.heap = s.heap := by
  refine ⟨?_, rfl⟩
  simp

theorem popMany_quiet (s : State) (n : Nat) : Quiet (popMany n) s fun vs s' =>
    vs.length = n ∧ s'.heap = s.heap := by
  refine .read ?_
  dsimp only
  split
  · refine Meets.mono (cutAbove_quiet s _) (fun vs s' hs => ⟨?_, hs.2⟩) fun _ _ => id
    have := hs.1
    omega
  · exact quiet_trap

theorem calleeHeight_quiet (s : State) (args : Nat) : Quiet (calleeHeight args) s fun height s' =>
    s' = s ∧ s.stack.size = height + (args + 1) := by
  refine .read ?_
  dsimp only
  split
  · exact ⟨rfl, by omega⟩
  · exact quiet_trap

theorem valueAt_quiet (s : State) (height : Nat) : Quiet (valueAt height) s fun v s' =>
    s.stack[height]? = some v ∧ s' = s := by
  refine .read ?_
  cases hv : s.stack[height]? with
  | some v => exact ⟨rfl, rfl⟩
  | none => exact quiet_trap

theorem expectObject_quiet (s : State) (operation : String) (v : Value) :
    Quiet (expectObject operation v) s fun ref s' => v = .object ref ∧ s' = s := by
  cases v with
  | object ref => exact ⟨rfl, rfl⟩
  | _ => exact quiet_trap

theorem tame_enter {c : Closure Value} {base : Nat} {args : List Value} {receiver : Option Handle} :
    Tame (enter p c base args receiver) := by
  intro s
  unfold enter
  dsimp only
  split
  · exact quiet_trap
  refine .read ?_
  split
  · exact quiet_trap
  split
  · cases receiver with
    | none => exact quiet_trap
    | some ref => trivial
  · trivial

theorem tame_leave (p : Program) (v : Value) : Tame (leave p v) := by
  refine fun s => .read ?_
  cases s.callers.back? with
  | none => trivial
  | some caller => exact ((tame_push p v).bind fun _ => tame_pure none) (s.back caller)

/-- Nothing but operations on collections can fault. -/
theorem Made.tame {α : Type} {S : Prop} {m : Limits → Exec α} (h : Made p False S m)
    (l : Limits) : Tame (m l) := by
  induction h with
  | done a => exact tame_pure a
  | trap cause => exact tame_trap cause
  | bind _ _ ih ih' => exact ih.bind ih'
  | access a => exact tame_access a
  | host h => exact h.elim
  | push v => exact tame_push _ v
  | pop => exact fun s => Meets.mono (pop_quiet s) (fun _ _ _ => trivial) fun _ _ => id
  | peek => exact fun s => Meets.mono (peek_quiet s) (fun _ _ _ => trivial) fun _ _ => id
  | enter => exact tame_enter
  | leave v => exact tame_leave _ v
  | _ => exact fun _ => trivial

theorem tame_resolveChunk (p : Program) (symbol : Symbol) : Tame (resolveChunk p symbol) :=
  (Made.resolveChunk symbol : Made p False False _).tame p.limits

/-! ## Calls -/

variable {height : Nat} {ref : Handle} {method : Symbol} {count : UInt8} {s' : State}
  {heights : List Nat}

theorem replaceAbove_quiet {op : Host Value} (h : Host.Quiet op s.heap fun _ _ => True) :
    Quiet (replaceAbove p height op) s fun _ _ => True := by
  have hshrink : Quiet (modify fun s => { s with stack := s.stack.shrink height }) s
      fun _ s' => s'.heap = s.heap := rfl
  refine hshrink.bind fun _ s' hs => ?_
  exact Tame.after (host_quiet (hs ▸ h)) fun v => tame_push p v

/-- A method that the machine provides is used on a collection whose properties lead beyond the
addresses, or lacks arguments. -/
def Exceeds (h : Heap) (ref : Handle) (method : Symbol) : Prop :=
  method.isStandard = true ∧ (h.Overruns ref ∨ Collection.Short method)

theorem callMethod_quiet (h : ¬ Exceeds s.heap ref method) :
    Quiet (callMethod p ref method height) s fun _ _ => True := by
  refine (cutAbove_quiet s _).bind fun args s' hs => ?_
  split
  · rename_i hstd
    have hc : ¬ s'.heap.Overruns ref := fun ho => h ⟨hstd, .inl (hs.2 ▸ ho)⟩
    have hm : ¬ Collection.Short method := fun hm => h ⟨hstd, .inr hm⟩
    exact replaceAbove_quiet (Collection.invoke_quiet hc hm)
  · exact ((tame_resolveChunk p method).bind fun _ => tame_enter) s'

theorem construct_quiet {type : StructType} (hsize : s.stack.size ≤ height + 1 + UInt64.size) :
    Quiet (construct p type height) s fun _ _ => True := by
  refine (cutAbove_quiet s _).bind fun args s' hs => ?_
  split
  · refine replaceAbove_quiet (Collection.construct_quiet _ _ ?_)
    have := hs.1
    omega
  · refine Tame.after (tame_access _ s') fun ref => ?_
    cases type.initializer with
    | some init => exact (tame_resolveChunk p init).bind fun _ => tame_enter
    | none =>
      cases args with
      | nil => exact fun s => replaceAbove_quiet (Host.quiet_pure trivial)
      | cons v vs => exact tame_trap _

theorem callBuiltin_quiet {b : Builtin} (hsize : s.stack.size = height + (count.toNat + 1)) :
    Quiet (callBuiltin p b height count) s fun _ _ => True := by
  unfold callBuiltin
  split
  · exact quiet_trap
  rename_i hcount
  refine (cutAbove_quiet s _).bind fun args s₁ hs => ?_
  have hargs : args.length = b.arity := by
    have := hs.1
    omega
  have hshrink : Quiet (modify fun s => { s with stack := s.stack.shrink height }) s₁
      fun _ _ => True := trivial
  refine hshrink.bind fun _ s₂ _ => Tame.after (host_quiet (Builtin.apply_quiet b hargs))
    fun r => ?_
  obtain ⟨v, printed⟩ := r
  cases printed with
  | none => exact tame_push p v
  | some line => exact Tame.bind (fun _ => trivial) fun _ => tame_push p v

theorem callCase_quiet {case : EnumCase Value} :
    Quiet (callCase p case height count) s fun _ _ => True := by
  unfold callCase
  split
  · exact quiet_trap
  · exact (cutAbove_quiet s _).bind fun values s' _ => replaceAbove_quiet (Host.quiet_pure trivial)

def State.Stands (s : State) (depth : Nat) (v : Value) : Prop :=
  ∃ height, s.stack.size = height + depth ∧ s.stack[height]? = some v

def State.Invokes (s : State) (ref : Handle) (method : Symbol) : Instruction → Prop
  | ⟨.call, (n : UInt8)⟩ => s.Stands (n.toNat + 1) (.boundMethod ref method)
  | ⟨.invokeMethod, (n : Selector)⟩ =>
    s.frame.chunk.symbol? n.symbol = some method ∧ s.Stands (n.number.toNat + 1) (.object ref)
  | _ => False

theorem callValue_quiet
    (h : ∀ ref method,
      s.Stands (count.toNat + 1) (.boundMethod ref method) → ¬ Exceeds s.heap ref method) :
    Quiet (callValue p count) s fun _ _ => True := by
  refine (calleeHeight_quiet s _).bind fun height s' hs => ?_
  obtain ⟨rfl, hsize⟩ := hs
  refine (valueAt_quiet s' height).bind fun v s₂ hv => ?_
  obtain ⟨hv, rfl⟩ := hv
  cases v with
  | closure c => exact Tame.after (cutAbove_quiet s₂ _) fun args => tame_enter
  | boundMethod ref method => exact callMethod_quiet (h ref method ⟨height, hsize, hv⟩)
  | struct type =>
    have := count.toNat_lt
    exact construct_quiet (by rw [hsize, UInt64.size]; omega)
  | builtin b => exact callBuiltin_quiet hsize
  | enumCase case =>
    dsimp only
    split
    · exact callCase_quiet
    · exact quiet_trap
  | _ => exact quiet_trap

theorem invokeMethod_quiet {n : Selector}
    (h : ∀ ref method, s.Invokes ref method ⟨.invokeMethod, n⟩ → ¬ Exceeds s.heap ref method) :
    Quiet (execute p ⟨.invokeMethod, n⟩) s fun _ _ => True := by
  have hsymbol : Quiet (symbolAt n.symbol) s fun x s' =>
      s.frame.chunk.symbol? n.symbol = some x ∧ s' = s := by
    refine .read ?_
    cases hs : s.frame.chunk.symbol? n.symbol with
    | some x => exact ⟨rfl, rfl⟩
    | none => exact quiet_trap
  refine hsymbol.bind fun method s₁ hm => ?_
  obtain ⟨hm, rfl⟩ := hm
  refine (calleeHeight_quiet s₁ _).bind fun height s₂ hs => ?_
  obtain ⟨rfl, hsize⟩ := hs
  refine (valueAt_quiet s₂ height).bind fun v s₃ hv => ?_
  obtain ⟨hv, rfl⟩ := hv
  refine (expectObject_quiet s₃ _ v).bind fun ref s₄ hr => ?_
  obtain ⟨rfl, rfl⟩ := hr
  exact callMethod_quiet (h ref method ⟨hm, height, hsize, hv⟩)

/-! ## Subscripts -/

theorem operands_quiet {β : Type} (rest : Value → Value → Exec β)
    (h : ∀ index receiver s', s.Stands 2 receiver → s'.heap = s.heap →
      Quiet (rest index receiver) s' fun _ _ => True) :
    Quiet (do rest (← pop) (← pop)) s fun _ _ => True := by
  refine (pop_quiet s).bind fun index s₁ hs₁ => (pop_quiet s₁).bind fun receiver s₂ hs₂ => ?_
  obtain ⟨hindex, rfl⟩ := hs₁
  obtain ⟨hreceiver, rfl⟩ := hs₂
  refine h index receiver _ ⟨s.stack.size - 2, ?_⟩ rfl
  have hlast : s.stack.pop[s.stack.pop.size - 1]? = some receiver := hreceiver
  rw [Array.getElem?_pop, Array.size_pop] at hlast
  split at hlast
  · rename_i hlt
    rw [show s.stack.size - 1 - 1 = s.stack.size - 2 by omega] at hlast hlt
    exact ⟨by omega, hlast⟩
  · cases hlast

section Subscripts

variable (h : ∀ ref, s.Stands 2 (.object ref) → ¬ s.heap.Overruns ref)
include h

theorem get_quiet : Quiet (execute p ⟨.get, ()⟩) s fun _ _ => True := by
  refine operands_quiet (fun index receiver => do
    push p (← Exec.host (Collection.subscript receiver index))) fun index receiver s' hv hs => ?_
  refine Tame.after (host_quiet (Collection.subscript_quiet (fun ref hr => ?_) index))
    fun v => tame_push p v
  rw [hs]
  exact h ref (hr ▸ hv)

theorem setSubscript_quiet : Quiet (execute p ⟨.setSubscript, ()⟩) s fun _ _ => True := by
  refine operands_quiet (fun index receiver => do
    Exec.host (Collection.setSubscript receiver index (← peek))) fun index receiver s' hv hs => ?_
  refine (peek_quiet s').bind fun v s'' hs' => ?_
  subst hs'
  refine host_quiet (Collection.setSubscript_quiet (fun ref hr => ?_) index v)
  rw [hs]
  exact h ref (hr ▸ hv)

end Subscripts

/-! ## Instructions -/

/-- A collection is used whose properties lead beyond the addresses, or a method of collections
lacks arguments. -/
inductive Misused (s : State) (i : Instruction) : Prop where
  | subscript {ref : Handle} (opcode : i.opcode = .get ∨ i.opcode = .setSubscript)
      (receiver : s.Stands 2 (.object ref)) (overruns : s.heap.Overruns ref)
  | method {ref : Handle} {method : Symbol} (invokes : s.Invokes ref method i)
      (exceeds : Exceeds s.heap ref method)

theorem execute_quiet (p : Program) (h : ¬ Misused s i) :
    Quiet (execute p i) s fun _ _ => True := by
  obtain ⟨op, operand⟩ := i
  cases op
  case get =>
    exact get_quiet fun ref hv ho => h (.subscript (.inl rfl) hv ho)
  case setSubscript =>
    exact setSubscript_quiet fun ref hv ho => h (.subscript (.inr rfl) hv ho)
  case call =>
    exact callValue_quiet fun ref method hv he => h (.method (i := ⟨.call, operand⟩) hv he)
  case invokeMethod => exact invokeMethod_quiet fun ref method hv he => h (.method hv he)
  case initArray =>
    refine (popMany_quiet s _).bind fun vs s' hs => ?_
    have hlen : vs.length ≤ UInt64.size := by
      have := UInt16.toNat_lt operand
      rw [hs.1, UInt64.size]
      omega
    exact Tame.after (host_quiet (Collection.create_array_quiet _ hlen)) fun v => tame_push p v
  case initDict =>
    exact Tame.after (popMany_quiet s _) fun vs => Tame.bind
      (fun s => host_quiet (Collection.create_dictionary_quiet _ _)) fun v => tame_push p v
  all_goals exact (Made.execute _ (by intro ho; cases ho) fun _ => trivial).tame p.limits s

/-- Where nothing is misused, a step gives a result or a trap. -/
theorem misused_of_step (h : step p s = .error .fault s') :
    ∃ i, Instruction.decode? s.frame.chunk.code s.frame.next = some i ∧
      Misused (s.fetched i) i := by
  cases hi : Instruction.decode? s.frame.chunk.code s.frame.next with
  | none => cases (step_of_decode?_eq_none hi).symm.trans h
  | some i =>
    refine ⟨i, rfl, Classical.byContradiction fun hm => ?_⟩
    have hquiet : Quiet (if i.opcode = .ret then do leave p (← pop)
        else do
          execute p i
          return none : Exec (Option Value)) (s.fetched i) fun _ _ => True := by
      split
      · exact Tame.after (pop_quiet _) fun v => tame_leave p v
      · exact Tame.after (execute_quiet p hm) fun _ => tame_pure none
    unfold Quiet at hquiet
    rw [← step_of_decode? hi, h] at hquiet
    exact hquiet rfl

/-! ## Methods with too few parameters -/

/-- The methods of the standard module have the parameters that the machine reads. -/
theorem not_short_of_standard (h : Standard.module.Declares method) :
    ¬ Collection.Short method := by
  obtain ⟨s, t, name, ht, hm⟩ := h
  rintro ⟨owner, name', params, hkind, hlt⟩
  have hall : ∀ owner (methods : List (String × List String)) params,
      (∀ m ∈ methods, Collection.reads owner m.1 ≤ m.2.length) → (name, params) ∈ methods →
      method = .method Symbol.standardModule owner name params → False := by
    intro owner methods params hreads hmem he
    rw [he] at hkind
    cases hkind
    exact Nat.not_lt.mpr (hreads _ hmem) hlt
  rcases Standard.eq_of_get? ht with rfl | rfl
  · obtain ⟨params, hmem, he⟩ := Standard.method?_structType hm
    exact hall _ _ params (by decide) hmem he
  · obtain ⟨params, hmem, he⟩ := Standard.method?_structType hm
    exact hall _ _ params (by decide) hmem he

/-- A module of the program has the name of the standard module without being it, and declares the
method. -/
def Usurped (p : Program) (method : Symbol) : Prop :=
  ∃ k ∈ p.modules, k.name = Symbol.standardModule ∧ k ≠ Standard.module ∧ k.Declares method

theorem usurped_of_short (hp : ∀ k ∈ p.modules, k.Regular) (hd : Declared p method)
    (hstd : method.isStandard = true) (h : Collection.Short method) :
    Usurped p method := by
  obtain ⟨k, hk, hdeclares⟩ := hd
  refine ⟨k, hk, ?_, ?_, hdeclares⟩
  · obtain ⟨s, t, name, ht, hm⟩ := hdeclares
    rw [← (hp k hk).methods s t ht name method hm]
    exact eq_of_beq hstd
  · rintro rfl
    exact not_short_of_standard hdeclares h

/-! ## Runs -/

/-- The instruction uses a collection whose properties lead beyond the addresses, or it calls a
method of collections that lacks parameters in a module that has taken the name of the standard
one. -/
inductive Strays (p : Program) (s : State) (i : Instruction) : Prop where
  | subscript {ref : Handle} (opcode : i.opcode = .get ∨ i.opcode = .setSubscript)
      (receiver : s.Stands 2 (.object ref)) (overruns : s.heap.Overruns ref)
  | method {ref : Handle} {method : Symbol} (invokes : s.Invokes ref method i)
      (standard : method.isStandard = true) (overruns : s.heap.Overruns ref)
  | argument {ref : Handle} {method : Symbol} (invokes : s.Invokes ref method i)
      (standard : method.isStandard = true) (short : Collection.Short method)
      (usurped : Usurped p method)

theorem State.Stands.mem {depth : Nat} {v : Value} (h : s.Stands depth v) : v ∈ s.stack := by
  obtain ⟨height, -, hv⟩ := h
  exact Array.mem_of_getElem? hv

/-- The method that an instruction calls is declared. -/
theorem State.Backed.declared {R : Symbol → Prop} (h : s.Backed p R)
    (hinv : Invariant False p s heights)
    (hi : Instruction.decode? s.frame.chunk.code s.frame.next = some i)
    (hm : (s.fetched i).Invokes ref method i) : Declared p method := by
  obtain ⟨op, operand⟩ := i
  cases op
  case call => exact h.holds.stack _ (State.Stands.mem hm)
  case invokeMethod => exact h.refers hinv hi method hm.1
  all_goals exact hm.elim

theorem strays_of_misused {R : Symbol → Prop} (hp : ∀ k ∈ p.modules, k.Regular) (h : s.Backed p R)
    (hinv : Invariant False p s heights)
    (hi : Instruction.decode? s.frame.chunk.code s.frame.next = some i)
    (hm : Misused (s.fetched i) i) : Strays p (s.fetched i) i := by
  cases hm with
  | subscript hop hv ho => exact .subscript hop hv ho
  | method hinvokes hexceeds =>
    obtain ⟨hstd, ho | hshort⟩ := hexceeds
    · exact .method hinvokes hstd ho
    · have hd := h.declared hinv hi hinvokes
      exact .argument hinvokes hstd hshort (usurped_of_short hp hd hstd hshort)

theorem strays_of_step {l : Linked} {limits : Limits} (hp : Program.ofLinked? l limits = some p)
    (hl : FromFiles l) (h : Reaches p s heights) (hs : step p s = .error .fault s') :
    ∃ i, Instruction.decode? s.frame.chunk.code s.frame.next = some i ∧
      Strays p (s.fetched i) i := by
  have hmodules := (Program.ofLinked?_eq_some hp).2.2
  obtain ⟨hinv, hbacked⟩ := h.backed (good_of_fromFiles hp hl)
    (backed_of_fromFiles hp hl (setApart_none l))
  obtain ⟨i, hi, hm⟩ := misused_of_step hs
  exact ⟨i, hi, strays_of_misused (fun k hk => hl.regular (hmodules ▸ hk)) hbacked hinv hi hm⟩

theorem valueAt_of_calleeHeight {args : Nat} (h : calleeHeight args s = .ok height s') :
    ∃ v, valueAt height s' = .ok v s' := by
  have hquiet := calleeHeight_quiet s args
  unfold Quiet at hquiet
  rw [h] at hquiet
  obtain ⟨rfl, hsize⟩ := hquiet
  have hv : s'.stack[height]? = some (s'.stack[height]) := Array.getElem?_eq_getElem (by omega)
  refine ⟨s'.stack[height], ?_⟩
  change Exec.ofOption s'.stack[height]? .stackUnderflow s' = _
  rw [hv]
  rfl

/-- An instance has as many properties as its struct has names for them. -/
theorem Reaches.property (hp : p.Good False) (h : Reaches p s heights) {object : Object}
    (ho : s.heap.objects.get? ref = some object) {offset : Nat}
    (hoffset : offset < object.fields.size) :
    ∃ name, object.type.properties[offset]? = some name := by
  have hshaped := ((h.invariant hp).good.heap.objects.get? ho).2
  rw [StructType.propertyCount] at hshaped
  exact ⟨_, List.getElem?_eq_getElem (hshaped ▸ hoffset)⟩

/-- A module that was linked without problems can be run under all limits, and under those that
allow no block of more bytes than there can be, a step from a state that a run reaches, and so the
run, ends in neither a value nor a trap only if its instruction strays. A callee is found at its
height, a property has a name, there can be every block that the limit allows, and the sums and
differences of collections are within 64 bits. -/
theorem runs_stay_within_domains {module : String} {files : List SourceFile} {imports : List Linked}
    (limits : Limits) (hlimit : limits.maxBlockSlots ≤ Collection.Checked.largestBlock)
    (hd : (link module files imports).module.diagnostics = [])
    (himports : ∀ i ∈ imports, FromFiles i) :
    ∃ p, Program.ofLinked? (link module files imports) limits = some p ∧
      (∀ s heights, Reaches p s heights →
        (∀ s', step p s = .error .fault s' → ∃ i,
          Instruction.decode? s.frame.chunk.code s.frame.next = some i ∧
            Strays p (s.fetched i) i) ∧
        (∀ args height s', calleeHeight args s = .ok height s' →
          ∃ v, valueAt height s' = .ok v s') ∧
        (∀ ref object offset, s.heap.objects.get? ref = some object →
          offset < object.fields.size → ∃ name, object.type.properties[offset]? = some name) ∧
        (∀ heap : Heap, heap.maxBlockSlots = s.heap.maxBlockSlots → ∀ capacity,
          Collection.Checked.newBlock capacity heap =
            Host.access (Heap.newBlock capacity) heap)) ∧
      (∀ heap closures, Left p heap closures → ∀ fuel, (run p heap closures fuel).1 = .fault →
        ∃ s heights i, Reaches p s heights ∧
          Instruction.decode? s.frame.chunk.code s.frame.next = some i ∧
          Strays p (s.fetched i) i) ∧
      Collection.Checked.append = Collection.Array.append ∧
      Collection.Checked.removeAt = Collection.Array.remove ∧
      Collection.Checked.insert = Collection.Dictionary.set ∧
      Collection.Checked.removeKey = Collection.Dictionary.remove := by
  have hl : FromFiles (link module files imports) := .link himports
  obtain ⟨-, main, hmain⟩ := compiles_of_diagnostics hd
  obtain ⟨p, hp, hlimits⟩ := Program.exists_ofLinked? (link_main.trans hmain) hd limits
  refine ⟨p, hp, fun s heights h => ⟨fun s' hs => strays_of_step hp hl h hs,
    fun args height s' hs => valueAt_of_calleeHeight hs,
    fun ref object offset ho hlt => h.property (good_of_fromFiles hp hl) ho hlt,
    fun heap heq => Collection.Checked.newBlock_eq ?_⟩,
    fun heap closures hleft fuel hend => ?_, Collection.Checked.append_eq,
    Collection.Checked.removeAt_eq, Collection.Checked.insert_eq, Collection.Checked.removeKey_eq⟩
  · rw [heq, (h.invariant (good_of_fromFiles hp hl)).good.heap.limit, hlimits]
    exact hlimit
  obtain ⟨s, heights, h, hof⟩ := (Reaches.start hleft).ends fuel
  have hof : (run p heap closures fuel).1.Of p s := hof
  rw [hend] at hof
  obtain ⟨s', hs⟩ := hof
  obtain ⟨i, hi, hstrays⟩ := strays_of_step hp hl h hs
  exact ⟨s, heights, i, h, hi, hstrays⟩

def Ending.isFault : Ending → Bool
  | .fault => true
  | _ => false

theorem Ending.eq_fault {e : Ending} (h : e.isFault = true) : e = .fault := by
  cases e with
  | fault => rfl
  | _ => cases h

/-- A module that has taken the name of the standard one, with a struct for arrays that appends
nothing. -/
def appendingFile : SourceFile :=
  let loc := Location.synthesized
  let property (name : String) : PropertyDecl := ⟨name, .none, true, none⟩
  let append : FuncDecl := ⟨some "append", [], .none, [], loc⟩
  let array : StructDecl :=
    ⟨"Array", ["storage", "count", "capacity"].map property, none, [append], loc⟩
  let call : Expr :=
    ⟨.call ⟨.member ⟨.array [], .array .int, loc⟩ "append", .none, loc⟩ [], .none, loc⟩
  { path := "main.pl", stmts := [⟨.struct array, loc⟩, ⟨.ret (some call), loc⟩] }

theorem runs_stay_within_domains_appending :
    (link "Standard" [appendingFile] []).module.diagnostics = [] ∧
      ∃ p, Program.ofLinked? (link "Standard" [appendingFile] []) {} = some p ∧
        (runOnce p 30).1 = .fault ∧ ∃ s heights i, Reaches p s heights ∧
          Instruction.decode? s.frame.chunk.code s.frame.next = some i ∧
          Strays p (s.fetched i) i := by
  have hd : (link "Standard" [appendingFile] []).module.diagnostics = [] :=
    List.isEmpty_iff.mp (by decide +kernel)
  obtain ⟨p, hp, -, hrun, -⟩ := @runs_stay_within_domains "Standard" [appendingFile] [] {}
    (by decide) hd
    fun i hi => absurd hi List.not_mem_nil
  have hfault : ((Program.ofLinked? (link "Standard" [appendingFile] []) {}).map fun p =>
      (runOnce p 30).1.isFault) = some true := by
    decide +kernel
  rw [hp] at hfault
  have hend := Ending.eq_fault (Option.some.inj hfault)
  exact ⟨hd, p, hp, hend, hrun p.heap 0 .first 30 hend⟩

end Machine

end StackCode
