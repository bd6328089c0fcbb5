import Mathlib.Logic.Relation
import StackCode.Proofs.CoreCorrectness
import StackCode.Proofs.LastDeclarations
import StackCode.Proofs.Ownership

/-! # Construction of instances

Code without jumps does the same wherever it stands: some of it pushes values, some of it stores
values in properties of the receiver. A call of a struct runs the code of its initializer on a new
instance.
-/

namespace StackCode

def Heap.assignedAll (h : Heap) (ref : Handle) (writes : List (Nat × Value)) : Heap :=
  writes.foldl (fun h x => h.assigned ref x.1 x.2) h

theorem Heap.width?_assignedAll (h : Heap) (ref : Handle) (writes : List (Nat × Value)) :
    (h.assignedAll ref writes).width? ref = h.width? ref := by
  induction writes generalizing h with
  | nil => rfl
  | cons x writes ih => exact (ih _).trans (h.width?_assigned ref x.1 x.2 ref)

/-- A property that is written holds one of the values that are written to it. -/
theorem Heap.field?_assignedAll {R : Nat → Value → Prop} {ref : Handle} {n i : Nat}
    {writes : List (Nat × Value)} (hR : ∀ x ∈ writes, x.1 < n ∧ R x.1 x.2) {h : Heap}
    (hw : h.width? ref = some n)
    (hi : i ∈ writes.map Prod.fst ∨ ∃ v, h.field? ref i = some v ∧ R i v) :
    ∃ v, (h.assignedAll ref writes).field? ref i = some v ∧ R i v := by
  induction writes generalizing h with
  | nil => exact hi.resolve_left List.not_mem_nil
  | cons x writes ih =>
    obtain ⟨hx, hrest⟩ := List.forall_mem_cons.mp hR
    refine ih hrest ((h.width?_assigned ref x.1 x.2 ref).trans hw) ?_
    by_cases he : i = x.1
    · exact .inr ⟨x.2, he ▸ field?_assigned_self hw hx.1 x.2, he ▸ hx.2⟩
    · rw [field?_assigned_of_ne he, List.map_cons, List.mem_cons, or_iff_right he] at *
      exact hi

namespace Machine

variable {p : Program} {Q : State → Prop}

/-- The machine comes to a state as told. -/
def Comes (p : Program) (s : State) (Q : State → Prop) : Prop :=
  ∃ t, Relation.ReflTransGen (fun s t => step p s = .ok none t) s t ∧ Q t

theorem Comes.done {s : State} (h : Q s) : Comes p s Q := ⟨s, .refl, h⟩

theorem Comes.step {s t : State} (hs : Machine.step p s = .ok none t) (h : Comes p t Q) :
    Comes p s Q := by
  obtain ⟨u, hr, hu⟩ := h
  exact ⟨u, .head hs hr, hu⟩

/-- The code stands in the chunk from an offset on. -/
def Contains (c : Chunk Value) (cells : List UInt8) (t : Code.Targets) (a : Nat) (code : Code) :
    Prop :=
  ∀ o i, (o, i) ∈ code.placed cells t a → Instruction.decode? c.code o = some i

section Contains

variable {c : Chunk Value} {cells : List UInt8} {t : Code.Targets} {a : Nat} {code code' : Code}

theorem Contains.left (h : Contains c cells t a (code ++ code')) : Contains c cells t a code :=
  fun o i hi => h o i (List.mem_append_left _ hi)

theorem Contains.right (h : Contains c cells t a (code ++ code')) :
    Contains c cells t (a + code.width) code' :=
  fun o i hi => h o i (List.mem_append_right _ hi)

theorem Contains.instr {line : UInt32} {i : Instruction}
    (h : Contains c cells t a (.instr line i)) :
    Instruction.decode? c.code a = some i := h a i List.mem_cons_self

theorem Contains.like (h : Contains c cells t a code) (hl : code.Like code') :
    Contains c cells t a code' := fun o i hi => h o i (hl.placed cells t a ▸ hi)

end Contains

section Instructions

variable {σ : State} {a b current : Nat} {i : Instruction} {stack stack' : Array Value}
  {locals : Array Slot}

theorem Comes.executes {t : State} (hi : Instruction.decode? σ.frame.chunk.code a = some i)
    (hret : i.opcode ≠ .ret) (h : execute p i (σ.moved (a + i.size) stack locals a) = .ok () t)
    (hr : Comes p t Q) : Comes p (σ.moved a stack locals current) Q := by
  refine .step ?_ hr
  rw [step_moved hi hret, bind_of_ok h]
  rfl

theorem Comes.pushes {v : Value} (hi : Instruction.decode? σ.frame.chunk.code a = some i)
    (hret : i.opcode ≠ .ret)
    (h : execute p i (σ.moved (a + i.size) stack locals a) = push p v (σ.moved b stack' locals a))
    (hroom : stack'.size < p.limits.maxStack)
    (hr : Comes p (σ.moved b (stack'.push v) locals a) Q) :
    Comes p (σ.moved a stack locals current) Q :=
  .executes hi hret (h.trans (if_pos hroom)) hr

/-- A return gives its value to the frame that waits. -/
theorem Comes.returns {f : Frame} {v : Value} (hf : σ.callers.back? = some f)
    (hi : Instruction.decode? σ.frame.chunk.code a = some ⟨.ret, ()⟩)
    (hroom : ((σ.moved (a + 1) stack locals a).back f).stack.size < p.limits.maxStack)
    (hr : Comes p
      { (σ.moved (a + 1) stack locals a).back f with
        stack := ((σ.moved (a + 1) stack locals a).back f).stack.push v } Q) :
    Comes p (σ.moved a (stack.push v) locals current) Q := by
  have hstep : Machine.step p (σ.moved a (stack.push v) locals current) = _ := step_return hf hi
  exact .step (hstep.trans (bind_of_ok (if_pos hroom))) hr

end Instructions

/-! ## Code that pushes values -/

/-- Wherever the code stands in the chunk, it pushes the values if there is room for them. -/
structure Puts (p : Program) (c : Chunk Value) (locals : Array Slot) (code : Code)
    (vs : List Value) : Prop where
  comes : ∀ {σ : State} {cells t a stack current Q}, σ.frame.chunk = c → Contains c cells t a code →
    stack.size + vs.length ≤ p.limits.maxStack →
    (∀ current, Comes p (σ.moved (a + code.width) (stack ++ vs.toArray) locals current) Q) →
    Comes p (σ.moved a stack locals current) Q

section Puts

variable {c : Chunk Value} {locals : Array Slot} {code code' : Code} {vs vs' : List Value}

theorem Puts.skip : Puts p c locals .skip [] := by
  refine ⟨fun {σ cells t a stack current Q} hc hs hroom h => ?_⟩
  simpa [Code.width] using h current

theorem Puts.append (h : Puts p c locals code vs) (h' : Puts p c locals code' vs') :
    Puts p c locals (code ++ code') (vs ++ vs') := by
  refine ⟨fun {σ cells t a stack current Q} hc hs hroom hr => ?_⟩
  rw [List.length_append, ← Nat.add_assoc] at hroom
  have hroom' : (stack ++ vs.toArray).size + vs'.length ≤ p.limits.maxStack := by
    simpa using hroom
  refine h.comes hc hs.left (Nat.le_of_add_right_le hroom) fun _ =>
    h'.comes hc hs.right hroom' fun current => ?_
  have hwidth : a + (code ++ code').width = a + code.width + code'.width :=
    (Nat.add_assoc a code.width code'.width).symm
  have hvs : (vs ++ vs').toArray = vs.toArray ++ vs'.toArray := by simp
  rw [Array.append_assoc, ← hvs, ← hwidth]
  exact hr current

theorem Puts.like (h : Puts p c locals code vs) (hl : code.Like code') :
    Puts p c locals code' vs :=
  ⟨fun hc hs hroom hr => h.comes hc (hs.like hl.symm) hroom (hl.width ▸ hr)⟩

theorem Puts.join {codes : List Code}
    (h : List.Forall₂ (fun code v => ∀ locals, Puts p c locals code [v]) codes vs) :
    Puts p c locals (Code.join codes) vs := by
  induction h with
  | nil => exact .skip
  | cons h _ ih =>
    rw [Code.join_cons]
    exact (h locals).append ih

theorem Puts.instr {line : UInt32} {i : Instruction} {v : Value} (hret : i.opcode ≠ .ret)
    (h : ∀ {σ : State} {a stack current}, σ.frame.chunk = c →
      execute p i (σ.moved a stack locals current) = push p v (σ.moved a stack locals current)) :
    Puts p c locals (.instr line i) [v] := by
  refine ⟨fun {σ cells t a stack current Q} hc hs hroom hr => ?_⟩
  refine .pushes (hc ▸ hs.instr) hret (h hc) hroom ?_
  rw [Array.push_eq_append]
  exact hr a

theorem Puts.constant {line : UInt32} {n : UInt16} {v : Value} (h : c.constant? n = some v) :
    Puts p c locals (.instr line ⟨.constant, n⟩) [v] :=
  .instr (by simp) fun hc => bind_of_ok (constantAt_moved (hc ▸ h))

theorem Puts.getLocal {line : UInt32} {n : UInt8} {v : Value}
    (h : locals[n.toNat]? = some (.value v)) : Puts p c locals (.instr line ⟨.getLocal, n⟩) [v] :=
  .instr (by simp) fun _ => bind_of_ok (getLocal_moved h)

theorem Puts.getSelf {line : UInt32} {v : Value} (hc : c.hasReceiver = true)
    (h : locals[0]? = some (.value v)) : Puts p c locals (.instr line ⟨.getSelf, ()⟩) [v] := by
  refine .instr (by simp) fun {σ a stack current} he => ?_
  have hrun : execute p ⟨.getSelf, ()⟩ (σ.moved a stack locals current) =
      (if σ.frame.chunk.hasReceiver then do push p (← Machine.getLocal 0)
        else Exec.trap (.internal "self read outside a method") : Exec Unit)
        (σ.moved a stack locals current) := rfl
  rw [hrun, he, if_pos hc]
  exact bind_of_ok (getLocal_moved h)

theorem Puts.getStruct {line : UInt32} {n : UInt16} {symbol : Symbol} {type : StructType}
    (h : c.symbol? n = some symbol) (ht : p.structType? symbol = some type) :
    Puts p c locals (.instr line ⟨.getStruct, n⟩) [.struct type] :=
  .instr (by simp) fun hc =>
    (bind_of_ok (ofOption_of_eq_some (hc ▸ h))).trans (bind_of_ok (ofOption_of_eq_some ht))

end Puts

/-! ## Code that stores values in properties -/

/-- Wherever the code stands in the chunk, it stores the values in properties of the instance if
there is room for a value and the instance. -/
structure Stores (p : Program) (c : Chunk Value) (locals : Array Slot) (ref : Handle) (code : Code)
    (writes : List (Nat × Value)) : Prop where
  comes : ∀ {σ : State} {cells t a n stack current Q}, σ.frame.chunk = c →
    σ.heap.width? ref = some n → (∀ x ∈ writes, x.1 < n) → Contains c cells t a code →
    stack.size + 2 ≤ p.limits.maxStack →
    (∀ current, Comes p ({ σ with heap := σ.heap.assignedAll ref writes }.moved (a + code.width)
      stack locals current) Q) → Comes p (σ.moved a stack locals current) Q

section Stores

variable {c : Chunk Value} {locals : Array Slot} {ref : Handle} {code code' : Code}
  {writes writes' : List (Nat × Value)}

theorem Stores.append (h : Stores p c locals ref code writes)
    (h' : Stores p c locals ref code' writes') :
    Stores p c locals ref (code ++ code') (writes ++ writes') := by
  refine ⟨fun {σ cells t a n stack current Q} hc hw hn hs hroom hr => ?_⟩
  obtain ⟨hn, hn'⟩ := List.forall_mem_append.mp hn
  refine h.comes hc hw hn hs.left hroom fun _ => ?_
  refine h'.comes (σ := { σ with heap := σ.heap.assignedAll ref writes }) hc
    ((σ.heap.width?_assignedAll ref writes).trans hw) hn' hs.right hroom fun current => ?_
  have hwidth : a + (code ++ code').width = a + code.width + code'.width :=
    (Nat.add_assoc a code.width code'.width).symm
  have hr := hr current
  rwa [hwidth, Heap.assignedAll, List.foldl_append] at hr

theorem host_of_ok {α : Type} {op : Host α} {s : State} {x : α} {heap : Heap}
    (h : op s.heap = .ok x heap) : Exec.host op s = .ok x { s with heap } := by
  simp only [Exec.host, h]

theorem setProperty_run {σ : State} {a current n : Nat} {stack : Array Value} {offset : UInt8}
    {v : Value} (hw : σ.heap.width? ref = some n) (hn : offset.toNat < n) :
    execute p ⟨.setProperty, offset⟩
        (σ.moved a ((stack.push v).push (.object ref)) locals current) =
      .ok () ({ σ with heap := σ.heap.assigned ref offset.toNat v }.moved a (stack.push v) locals
        current) := by
  have hrun : execute p ⟨.setProperty, offset⟩ = (do
    let ref ← expectObject "property assignment" (← pop)
    Exec.access (Heap.setField ref offset.toNat (← peek)) : Exec Unit) := rfl
  have hset : Host.access (Heap.setField ref offset.toNat v)
      (σ.moved a (stack.push v) locals current).heap = _ := Collection.setField_eq hw hn v
  rw [hrun, bind_of_ok (pop_moved _)]
  exact (bind_of_ok rfl).trans ((bind_of_ok (peek_moved v)).trans (host_of_ok hset))

/-- A value is pushed and moved into a property of the receiver. -/
theorem Stores.store {line : UInt32} {offset : UInt8} {v : Value} (hc : c.hasReceiver = true)
    (hself : locals[0]? = some (.value (.object ref))) (h : Puts p c locals code [v]) :
    Stores p c locals ref (code ++ (.instr line ⟨.getSelf, ()⟩ ++
      .instr line ⟨.setProperty, offset⟩ ++ .instr line ⟨.pop, ()⟩)) [(offset.toNat, v)] := by
  refine ⟨fun {σ cells t a n stack current Q} he hw hn hs hroom hr => ?_⟩
  have hroom' : (stack ++ #[v]).size + 1 ≤ p.limits.maxStack := Array.size_append.symm ▸ hroom
  have hreceiver : Puts p c locals (.instr line ⟨.getSelf, ()⟩) _ := .getSelf hc hself
  have hset := hs.right.left.right.instr
  have hpop := hs.right.right.instr
  refine h.comes he hs.left (Nat.le_of_lt hroom) fun _ =>
    hreceiver.comes he hs.right.left.left hroom' fun _ => ?_
  rw [← Array.push_eq_append, ← Array.push_eq_append]
  refine .executes (he.symm ▸ hset) (by simp) (setProperty_run hw (hn _ List.mem_cons_self)) ?_
  refine Comes.executes (σ := { σ with heap := σ.heap.assigned ref offset.toNat v })
    (he.symm ▸ hpop) (by simp) (bind_of_ok (pop_moved v)) (hr _)

end Stores

/-! ## Calls of structs -/

theorem getElem?_of_slot {f : Frame} {n : Nat} {v : Value} (h : f.slot n = .value v) :
    f.locals[n]? = some (.value v) := by
  rw [Frame.slot] at h
  cases hn : f.locals[n]? with
  | none =>
    rw [hn] at h
    cases h
  | some x =>
    rw [hn] at h
    exact congrArg some h

theorem Frame.starting_eq (c : Closure Value) (base : Nat) (args : List Value)
    (receiver : Option Handle) : Frame.starting c base args receiver =
      { closure := c, base, locals := (Frame.starting c base args receiver).locals } := by
  have hframe : ∃ (f : Frame) (i : Nat), Frame.starting c base args receiver = f.setSlots i args ∧
      f.closure = c ∧ f.base = base ∧ f.next = 0 := by
    cases receiver with
    | none => exact ⟨_, _, rfl, rfl, rfl, rfl⟩
    | some ref => exact ⟨_, _, rfl, rfl, rfl, rfl⟩
  obtain ⟨f, i, hf, rfl, rfl, hnext⟩ := hframe
  obtain ⟨hc, hb, hn⟩ := setSlots_frame f i args
  rw [hf, ← hc, ← hb, ← hnext, ← hn]

/-- An instruction enters a body if there is room for its frame. -/
theorem step_of_enter {σ t : State} {a current base : Nat} {stack : Array Value}
    {locals : Array Slot} {i : Instruction} {c : Closure Value} {args : List Value}
    {receiver : Option Handle} (hi : Instruction.decode? σ.frame.chunk.code a = some i)
    (hret : i.opcode ≠ .ret)
    (h : execute p i (σ.moved (a + i.size) stack locals a) = enter p c base args receiver t)
    (hargs : args.length = c.chunk.arity.toNat) (hr : c.chunk.hasReceiver = receiver.isSome) :
    step p (σ.moved a stack locals current) =
      if p.limits.maxFrames ≤ t.callers.size + 1 then .error (.trap .stackOverflow) t
      else .ok none { t with
        frame := .starting c base args receiver, callers := t.callers.push t.frame } := by
  rw [enter_run hargs hr] at h
  rw [step_moved hi hret]
  split at h
  · next hframes => rw [bind_of_error h, if_pos hframes]
  · next hframes =>
    rw [bind_of_ok h, if_neg hframes]
    rfl

section Calls

variable {s : State} {below : Array Value} {args : List Value} {symbol : Symbol}
  {chunk : Chunk Value}

/-- A call of a struct enters its initializer with a new instance. -/
theorem call_struct {type : StructType}
    (hstack : s.stack = below.push (.struct type) ++ args.toArray)
    (hcount : args.length < 256) (htype : type.symbol.isStandard = false)
    (hinit : type.initializer = some symbol) (hchunk : p.chunk? symbol = some chunk) :
    ∃ ref heap, Host.access (Heap.newObject type) s.heap = .ok ref heap ∧
      execute p ⟨.call, UInt8.ofNat args.length⟩ s =
        enter p (plainClosure chunk symbol) below.size args (some ref)
          { s with stack := below.push (.struct type), heap } := by
  obtain ⟨ref, heap, hnew⟩ : ∃ ref heap, Host.access (Heap.newObject type) s.heap = .ok ref heap :=
    ⟨_, _, rfl⟩
  refine ⟨ref, heap, hnew, ?_⟩
  have hrun : execute p ⟨.call, UInt8.ofNat args.length⟩ s =
    callValue p (UInt8.ofNat args.length) s := rfl
  have hmake : Exec.access (Heap.newObject type) { s with stack := below.push (.struct type) } =
      _ :=
    host_of_ok hnew
  rw [hrun, callValue, bind_of_ok (calleeHeight_run hstack hcount),
    bind_of_ok (valueAt_run hstack)]
  change construct p type below.size s = _
  rw [construct, bind_of_ok (cutAbove_run hstack), if_neg (by simp [htype]), bind_of_ok hmake,
    hinit]
  exact bind_of_ok (ofOption_of_eq_some hchunk)

end Calls

end Machine

end StackCode
