import StackCode.Machine.Builtin
import StackCode.Collection.Method
import StackCode.Proofs.Parallel

/-! # What the heap keeps

Whatever all values in a heap have in common, they still have it after an operation of the machine
on the heap, be it successful or not. Such an operation is never to blame for code that was
accepted. It does the same on two heaps whose values it cannot tell apart.
-/

namespace StackCode

namespace Cause

/-- The causes that accepted code does not give. -/
inductive Unsound : Cause → Prop where
  | underflow : Unsound .stackUnderflow
  | opcode (byte : UInt8) : Unsound (.invalidOpcode byte)
  | pastEnd : Unsound (.internal "execution ran past the end of the chunk")
  | truncated : Unsound (.internal "truncated instruction operand")
  | constant (n : UInt16) :
    Unsound (.internal ("constant index " ++ toString n ++ " out of range"))
  | symbol (n : UInt16) : Unsound (.internal ("symbol index " ++ toString n ++ " out of range"))
  | jump (d : Int) : Unsound (.internal ("jump by " ++ toString d ++ " leaves the chunk"))

inductive Unbound : Cause → Prop where
  | slot (n : Nat) : Unbound (.internal ("read of unbound local slot " ++ toString n))
  | capture (n : Nat) : Unbound (.internal ("capture index " ++ toString n ++ " out of range"))
  | self : Unbound (.internal "self read outside a method")
  | receiver (name : String) : Unbound (.internal (name ++ " called without a receiver"))

/-- The causes that a symbol gives that leads nowhere. -/
def Unresolved : Cause → Prop
  | .unresolvedSymbol _ | .unknownMethod .. => True
  | _ => False

theorem Unbound.text {reason : String} (h : Unbound (.internal reason)) :
    reason.toList.take 2 ∈ ["re".toList, "ca".toList, "se".toList] ∨
      reason.toList.getLast? = some 'r' := by
  cases h <;> simp [List.getLast?_append]

theorem Unsound.text {reason : String} (h : Unsound (.internal reason)) :
    reason.toList.take 2 ∈ ["ex".toList, "tr".toList, "co".toList, "sy".toList, "ju".toList] ∧
      reason.toList.getLast? ∈ [some 'k', some 'd', some 'e'] := by
  cases h <;> simp [List.getLast?_cons, List.getLast?_append]

end Cause

namespace Failure

/-- A failure that accepted code may give, in a program that may be closed: every symbol in it
leads somewhere. -/
def Allowed (closed : Prop) : Failure → Prop
  | trap cause => ¬ cause.Unsound ∧ (closed → ¬ cause.Unresolved)
  | fault => True

variable {closed : Prop}

theorem allowed_of_start {reason : String}
    (h : reason.toList.take 2 ∉
      ["ex".toList, "tr".toList, "co".toList, "sy".toList, "ju".toList]) :
    Allowed closed (.trap (.internal reason)) :=
  ⟨fun hu => h hu.text.1, fun _ => id⟩

theorem allowed_of_end {reason : String}
    (h : reason.toList.getLast? ∉ [some 'k', some 'd', some 'e']) :
    Allowed closed (.trap (.internal reason)) :=
  ⟨fun hu => h hu.text.2, fun _ => id⟩

theorem allowed_ofHeapError (e : HeapError) : Allowed closed (.trap (.ofHeapError e)) := by
  cases e
  case noSuchProperty type offset =>
    have h : Cause.ofHeapError (.noSuchProperty type offset) =
        .internal ("property offset " ++ toString offset ++ " out of range for " ++ type) := rfl
    rw [h]
    exact allowed_of_start (by simp)
  all_goals
    simp only [Cause.ofHeapError]
    exact ⟨nofun, fun _ => id⟩

end Failure

namespace Failure

/-- If the failure is for want of a binding, this is as given. Only the name of a struct may make an
error of the heap read like such a failure. -/
def Misses (L : Prop) : Failure → Prop
  | trap cause => cause.Unbound → L ∨ ∃ type offset,
    cause = .ofHeapError (.noSuchProperty type offset)
  | fault => True

variable {L : Prop}

theorem misses_of_not {cause : Cause} (h : ¬ cause.Unbound) :
    Misses L (.trap cause) := fun hu => absurd hu h

theorem misses_of_text {reason : String}
    (h : reason.toList.take 2 ∉ ["re".toList, "ca".toList, "se".toList])
    (h' : reason.toList.getLast? ≠ some 'r') : Misses L (.trap (.internal reason)) :=
  misses_of_not fun hu => hu.text.elim h h'

theorem Misses.mono {L' : Prop} {e : Failure} (h : e.Misses L) (hL : L → L') : e.Misses L' := by
  cases e with
  | trap cause => exact fun hu => (h hu).imp_left hL
  | fault => trivial

theorem misses_ofHeapError (e : HeapError) : Misses L (.trap (.ofHeapError e)) := by
  cases e
  case noSuchProperty type offset => exact fun _ => .inr ⟨type, offset, rfl⟩
  all_goals
    refine misses_of_not ?_
    simp only [Cause.ofHeapError]
    nofun

end Failure

/-- A value that leads to no code: neither a function, a method or a struct, nor a case, which may
have such values. -/
def Value.Data : Value → Prop
  | .closure _ | .struct _ | .boundMethod .. | .enumCase _ => False
  | _ => True

namespace Arena

variable {α : Type} {P : α → Prop} {a : Arena α}

theorem get?_modify (a : Arena α) (c : Handle) (f : α → α) (h : Handle) :
    (a.modify c f).get? h = if h = c then (a.get? h).map f else a.get? h := by
  obtain ⟨index, generation⟩ := h
  obtain ⟨i, g⟩ := c
  simp only [Arena.modify, Arena.get?, Array.getElem?_modify, Handle.mk.injEq]
  by_cases hi : i = index
  · subst hi
    cases a.slots[i.toNat]? with
    | none => simp
    | some slot =>
      by_cases hg : generation = g
      · subst hg
        by_cases hs : slot.generation = generation <;> simp [hs]
      · by_cases hs : slot.generation = g
        · simp [hs, hg, Ne.symm hg]
        · simp [hs, hg]
  · simp [hi, Ne.symm hi, UInt32.toNat_inj]

def All (P : α → Prop) (a : Arena α) : Prop := ∀ slot ∈ a.slots, ∀ v, slot.content = some v → P v

theorem All.get? (ha : a.All P) {h : Handle} {v : α} (hv : a.get? h = some v) : P v := by
  simp only [Arena.get?, Option.bind_eq_bind, Option.bind_eq_some_iff] at hv
  obtain ⟨slot, hslot, hv⟩ := hv
  split at hv
  · exact ha slot (Array.mem_of_getElem? hslot) v hv
  · cases hv

theorem All.modifySlot (ha : a.All P) {i : Nat} {f : ArenaSlot α → ArenaSlot α}
    (hf : ∀ slot, (∀ v, slot.content = some v → P v) → ∀ v, (f slot).content = some v → P v)
    (free : List UInt32) (live : Nat) : (Arena.mk (a.slots.modify i f) free live).All P := by
  intro slot hslot
  obtain ⟨k, hk⟩ := Array.mem_iff_getElem?.mp hslot
  rw [Array.getElem?_modify] at hk
  split at hk
  · obtain ⟨old, hold, rfl⟩ := Option.map_eq_some_iff.mp hk
    exact hf old (ha old (Array.mem_of_getElem? hold))
  · exact ha slot (Array.mem_of_getElem? hk)

theorem All.insert (ha : a.All P) {v : α} (hv : P v) : (a.insert v).2.All P := by
  unfold Arena.insert
  cases a.free with
  | nil =>
    intro slot hslot
    rcases Array.mem_push.mp hslot with h | rfl
    · exact ha slot h
    · rintro w ⟨⟩
      exact hv
  | cons i free =>
    refine ha.modifySlot (fun slot _ w hw => ?_) free _
    cases hw
    exact hv

theorem All.modify (ha : a.All P) {f : α → α} (hf : ∀ v, P v → P (f v)) (h : Handle) :
    (a.modify h f).All P := by
  refine ha.modifySlot (fun slot hslot v hv => ?_) a.free a.live
  split at hv
  · obtain ⟨w, hw, rfl⟩ := Option.map_eq_some_iff.mp hv
    exact hf w (hslot w hw)
  · exact hslot v hv

/-- What all values in an arena have in common, as a relation of the arena with itself. -/
theorem All.alike {r : α → α → Prop} (ha : a.All P) (hr : ∀ v, P v → r v v) : a.Alike r a :=
  ⟨fun _ => rel_self fun slot hs =>
    ⟨rfl, rel_self fun v hv => hr v (ha slot (Array.mem_of_getElem? hs) v hv)⟩, rfl, rfl⟩

theorem Alike.all {r : α → α → Prop} (h : a.Alike r a) (hr : ∀ v, r v v → P v) : a.All P := by
  intro slot hslot v hv
  obtain ⟨i, hi⟩ := Array.mem_iff_getElem?.mp hslot
  have hs := h.slots i
  rw [hi] at hs
  cases hs with
  | some hs =>
    have hcontent := hs.2
    rw [hv] at hcontent
    cases hcontent with
    | some hv => exact hr v hv

end Arena

namespace Heap

def Filled (P : Value → Prop) (slots : Array (Option Value)) : Prop := ∀ v, some v ∈ slots → P v

/-- All values in the heap have the property, and instances have the properties of their struct. -/
structure All (P : Value → Prop) (h : Heap) : Prop where
  cells : h.cells.All P
  objects : h.objects.All fun o => Filled P o.fields ∧ o.fields.size = o.type.propertyCount
  blocks : h.blocks.All (Filled P)

theorem all_empty (P : Value → Prop) (limit : Nat) : All P { maxBlockSlots := limit } :=
  ⟨nofun, nofun, nofun⟩

end Heap

/-- The result of a computation with a state that may fail. -/
def Meets {ε σ α : Type} (Q : α → σ → Prop) (F : ε → σ → Prop) : EStateM.Result ε σ α → Prop
  | .ok a s => Q a s
  | .error e s => F e s

variable {β ε τ : Type}

theorem Meets.bind {σ α : Type} {m : EStateM ε σ α} {rest : α → EStateM ε σ β} {s : σ}
    {Q : α → σ → Prop} {S : β → σ → Prop} {F : ε → σ → Prop} (h : Meets Q F (m s))
    (h' : ∀ a s', Q a s' → Meets S F (rest a s')) : Meets S F ((m >>= rest) s) := by
  change Meets S F (EStateM.bind m rest s)
  unfold EStateM.bind
  generalize m s = r at h ⊢
  cases r with
  | ok a s' => exact h' a s' h
  | error e s' => exact h

theorem bind_of_ok {γ : Type} {m : EStateM ε τ β} {f : β → EStateM ε τ γ} {s t : τ} {b : β}
    (h : m s = .ok b t) : (m >>= f) s = f b t := by
  change EStateM.bind m f s = f b t
  rw [EStateM.bind, h]

theorem bind_of_error {γ : Type} {m : EStateM ε τ β} {f : β → EStateM ε τ γ} {s t : τ} {e : ε}
    (h : m s = .error e t) : (m >>= f) s = .error e t := by
  change EStateM.bind m f s = .error e t
  rw [EStateM.bind, h]

theorem get_eq_ok (s : τ) : (get : EStateM ε τ τ) s = .ok s s := rfl

theorem Meets.mono {σ α : Type} {r : EStateM.Result ε σ α} {Q Q' : α → σ → Prop}
    {F F' : ε → σ → Prop} (h : Meets Q F r) (hQ : ∀ a s, Q a s → Q' a s)
    (hF : ∀ e s, F e s → F' e s) : Meets Q' F' r := by
  cases r with
  | ok a s => exact hQ a s h
  | error e s => exact hF e s h

/-! ## Values that go together -/

/-- The same value, or two functions, or two cases. -/
inductive Value.Similar : Value → Value → Prop where
  | same (v : Value) : Similar v v
  | closure (c c' : Closure Value) : Similar (.closure c) (.closure c')
  | enumCase (c c' : EnumCase Value) : Similar (.enumCase c) (.enumCase c')

/-- How two heaps are compared: by a relation between their values that no operation on collections
tells from equality. Their cells are as told, and they have the same limit. -/
structure Comparison where
  /-- Whether the program in which the heaps are used is closed. -/
  closed : Prop
  value : Value → Value → Prop
  cells : Arena Value → Arena Value → Prop
  limit : Nat
  data : ∀ v : Value, v.Data → value v v
  similar : ∀ {v v' : Value}, value v v' → v.Similar v'
  beq : ∀ {v v' w w' : Value}, value v v' → value w w' → v'.beq w' = v.beq w
  text : ∀ {v v' : Value}, value v v' → v'.text = v.text
  hash : ∀ {v v' : Value}, value v v' → v'.hash = v.hash

variable {S : Comparison}

def SlotsAlike (V : Value → Value → Prop) : Array (Option Value) → Array (Option Value) → Prop :=
  Pointwise (Option.Rel V)

structure Object.Alike (V : Value → Value → Prop) (o o' : Object) : Prop where
  type : o'.type = o.type
  fields : SlotsAlike V o.fields o'.fields
  shaped : o.fields.size = o.type.propertyCount

structure Heap.Alike (S : Comparison) (h h' : Heap) : Prop where
  cells : S.cells h.cells h'.cells
  objects : h.objects.Alike (Object.Alike S.value) h'.objects
  blocks : h.blocks.Alike (SlotsAlike S.value) h'.blocks
  limit : h.maxBlockSlots = S.limit
  limit' : h'.maxBlockSlots = S.limit

namespace Host

variable {α α' β β' : Type} {r : α → β → Prop} {r' : α' → β' → Prop}

/-- From heaps that compare, the operations lead to related results, or they fail in the same way,
which is not to blame on the code, nor for want of a binding. The heaps still compare. -/
def Joint (S : Comparison) (r : α → β → Prop) (op : Host α) (op' : Host β) : Prop :=
  ∀ h h' : Heap, h.Alike S h' → Paired (fun a h b h' => r a b ∧ h.Alike S h')
    (fun e h h' => (e.Allowed S.closed ∧ e.Misses False) ∧ h.Alike S h') (op h) (op' h')

namespace Joint

variable {op : Host α} {op' : Host β}

theorem done {a : α} {b : β} (h : r a b) : Joint S r (pure a) (pure b) :=
  fun _ _ hh => .ok ⟨h, hh⟩

theorem fails {e : Failure} (he : e.Allowed S.closed) (hm : e.Misses False) :
    Joint S r (throw e) (throw e) := fun _ _ hh => .error e ⟨⟨he, hm⟩, hh⟩

theorem trap {cause : Cause} (hs : ¬ cause.Unsound) (hb : ¬ cause.Unbound)
    (hr : S.closed → ¬ cause.Unresolved) : Joint S r (Host.trap cause) (Host.trap cause) :=
  fails ⟨hs, hr⟩ (Failure.misses_of_not hb)

theorem fault : Joint S r Host.fault Host.fault := fails trivial trivial

theorem bind {rest : α → Host α'} {rest' : β → Host β'} (h : Joint S r op op')
    (h' : ∀ a b, r a b → Joint S r' (rest a) (rest' b)) :
    Joint S r' (op >>= rest) (op' >>= rest') :=
  fun s t hs => (h s t hs).bind fun a s b t hab => h' a b hab.1 s t hab.2

theorem andThen {op' : Host α} {rest : α → Host α'} {rest' : α → Host β'}
    (h : Joint S Eq op op') (h' : ∀ a, Joint S r' (rest a) (rest' a)) :
    Joint S r' (op >>= rest) (op' >>= rest') := by
  refine h.bind fun a b hab => ?_
  subst hab
  exact h' a

theorem read {rest : Heap → Host α} {rest' : Heap → Host β}
    (h : ∀ s t : Heap, s.Alike S t → Joint S r (rest s) (rest' t)) :
    Joint S r (get >>= rest) (get >>= rest') := fun s t hs => h s t hs s t hs

theorem access {a : Heap.Access α} {a' : Heap.Access β} (h : Parallel (Heap.Alike S) r a a') :
    Joint S r (Host.access a) (Host.access a') := by
  intro s t hs
  have ha := h s t hs
  unfold Host.access
  generalize a s = x at ha
  generalize a' t = y at ha
  cases ha with
  | ok h => exact .ok h
  | error e h => exact .error _ ⟨⟨Failure.allowed_ofHeapError e, Failure.misses_ofHeapError e⟩, h⟩

end Joint

variable {v v' : Value}

theorem newObject_joint (type : StructType) :
    Joint S Eq (access (Heap.newObject type))
      (access (Heap.newObject type)) := by
  refine .access fun h h' hh => ?_
  have hobject : Object.Alike S.value ⟨type, Array.replicate type.propertyCount none⟩
      ⟨type, Array.replicate type.propertyCount none⟩ :=
    ⟨rfl, .replicate .none _, Array.size_replicate⟩
  have hnew := hh.objects.insert hobject
  exact .ok ⟨hnew.1.symm, { hh with objects := hnew.2 }⟩

theorem object_joint (ref : Handle) :
    Joint S (Object.Alike S.value) (access (Heap.object ref))
      (access (Heap.object ref)) := by
  refine .access fun h h' hh => ?_
  have hget := hh.objects.get? ref
  unfold Heap.object
  generalize h.objects.get? ref = o at hget
  generalize h'.objects.get? ref = o' at hget
  cases hget with
  | none => exact .error _ hh
  | some ho => exact .ok ⟨ho, hh⟩

theorem getField_joint (ref : Handle) (offset : Nat) :
    Joint S S.value (access (Heap.getField ref offset))
      (access (Heap.getField ref offset)) := by
  refine .access fun h h' hh => ?_
  have hget := hh.objects.get? ref
  unfold Heap.getField
  generalize h.objects.get? ref = o at hget
  generalize h'.objects.get? ref = o' at hget
  cases hget with
  | none => exact .error _ hh
  | @some o o' ho =>
    have hfield := ho.fields offset
    dsimp only
    rw [ho.type]
    generalize o.fields[offset]? = x at hfield
    generalize o'.fields[offset]? = x' at hfield
    cases hfield with
    | none => exact .error _ hh
    | some hx =>
      cases hx with
      | none => exact .error _ hh
      | some hv => exact .ok ⟨hv, hh⟩

theorem setField_joint (ref : Handle) (offset : Nat) (hv : S.value v v') :
    Joint S Eq (access (Heap.setField ref offset v))
      (access (Heap.setField ref offset v')) := by
  refine .access fun h h' hh => ?_
  have hget := hh.objects.get? ref
  unfold Heap.setField
  generalize h.objects.get? ref = o at hget
  generalize h'.objects.get? ref = o' at hget
  cases hget with
  | none => exact .error _ hh
  | @some o o' ho =>
    dsimp only
    rw [ho.type, ho.fields.size_eq]
    split
    · exact .ok ⟨rfl, { hh with
        objects := hh.objects.modify ref fun _ _ ho =>
          ⟨ho.type, ho.fields.set offset (.some hv), Array.size_setIfInBounds.trans ho.shaped⟩ }⟩
    · exact .error _ hh

theorem newBlock_joint (capacity : Nat) :
    Joint S Eq (access (Heap.newBlock capacity))
      (access (Heap.newBlock capacity)) := by
  refine .access fun h h' hh => ?_
  unfold Heap.newBlock
  rw [hh.limit, hh.limit']
  split
  · have hblock : SlotsAlike S.value (Array.replicate capacity none)
        (Array.replicate capacity none) := .replicate .none _
    have hnew := hh.blocks.insert hblock
    exact .ok ⟨congrArg (Pointer.mk · 0) hnew.1.symm,
      { hh with blocks := hnew.2, limit := rfl, limit' := rfl }⟩
  · exact .error _ hh

theorem load_joint (p : Pointer) :
    Joint S S.value (access (Heap.load p))
      (access (Heap.load p)) := by
  refine .access fun h h' hh => ?_
  have hget := hh.blocks.get? p.block
  unfold Heap.load
  generalize h.blocks.get? p.block = b at hget
  generalize h'.blocks.get? p.block = b' at hget
  cases hget with
  | none => exact .error _ hh
  | @some b b' hb =>
    have hslot := hb p.offset
    dsimp only
    rw [hb.size_eq]
    generalize b[p.offset]? = x at hslot
    generalize b'[p.offset]? = x' at hslot
    cases hslot with
    | none => exact .error _ hh
    | some hx =>
      cases hx with
      | none => exact .error _ hh
      | some hv => exact .ok ⟨hv, hh⟩

theorem store_joint (p : Pointer) (hv : S.value v v') :
    Joint S Eq (access (Heap.store p v)) (access (Heap.store p v')) := by
  refine .access fun h h' hh => ?_
  have hget := hh.blocks.get? p.block
  unfold Heap.store
  generalize h.blocks.get? p.block = b at hget
  generalize h'.blocks.get? p.block = b' at hget
  cases hget with
  | none => exact .error _ hh
  | @some b b' hb =>
    dsimp only
    rw [hb.size_eq]
    split
    · exact .ok ⟨rfl, { hh with
        blocks := hh.blocks.modify p.block fun _ _ hb => hb.set p.offset (.some hv) }⟩
    · exact .error _ hh

theorem freeBlock_joint (p : Pointer) :
    Joint S Eq (access (Heap.freeBlock p)) (access (Heap.freeBlock p)) := by
  refine .access fun h h' hh => ?_
  unfold Heap.freeBlock
  rw [hh.blocks.contains_eq]
  split
  · exact .ok ⟨rfl, { hh with blocks := hh.blocks.erase p.block }⟩
  · exact .error _ hh

/-! ## A property of all values -/

variable {closed : Prop} {P : Value → Prop} {op : Host α} {R : α → Prop}

/-- The operation keeps what all values in the heap have in common, and the limit. Its result is as
given, and a failure is not to blame on the code, nor for want of a binding. -/
def Safe (closed : Prop) (P : Value → Prop) (op : Host α) (R : α → Prop) : Prop :=
  ∀ h : Heap, h.All P →
    Meets (fun a h' => R a ∧ h'.All P ∧ h'.maxBlockSlots = h.maxBlockSlots)
      (fun e h' => (e.Allowed closed ∧ e.Misses False) ∧ h'.All P ∧
        h'.maxBlockSlots = h.maxBlockSlots) (op h)

theorem safe_pure {a : α} (ha : R a) : Safe closed P (pure a) R := fun _ h => ⟨ha, h, rfl⟩

theorem safe_access {a : Heap.Access α}
    (h : ∀ heap : Heap, heap.All P →
      Meets (fun x heap' => R x ∧ heap'.All P ∧ heap'.maxBlockSlots = heap.maxBlockSlots)
        (fun _ heap' => heap' = heap) (a heap)) :
    Safe closed P (Host.access a) R := by
  intro heap hh
  have ha := h heap hh
  simp only [Host.access]
  generalize a heap = r at ha ⊢
  cases r with
  | ok x heap' => exact ha
  | error e heap' =>
    cases ha
    exact ⟨⟨Failure.allowed_ofHeapError e, Failure.misses_ofHeapError e⟩, hh, rfl⟩

theorem newCell_safe (hv : P v) :
    Safe closed P (Host.access (Heap.newCell v)) fun _ => True :=
  safe_access fun _ h => ⟨trivial, { h with cells := h.cells.insert hv }, rfl⟩

theorem readCell_safe (cell : Handle) : Safe closed P (Host.access (Heap.readCell cell)) P := by
  refine safe_access fun heap h => ?_
  simp only [Heap.readCell]
  cases hc : heap.cells.get? cell with
  | some v => exact ⟨h.cells.get? hc, h, rfl⟩
  | none => exact rfl

theorem writeCell_safe (cell : Handle) (hv : P v) :
    Safe closed P (Host.access (Heap.writeCell cell v)) fun _ => True := by
  refine safe_access fun heap h => ?_
  simp only [Heap.writeCell]
  split
  · exact ⟨trivial, { h with cells := h.cells.modify (fun _ _ => hv) cell }, rfl⟩
  · exact rfl

/-- The comparison of a heap with itself, where all values have the property. -/
def same (closed : Prop) {P : Value → Prop} (hdata : ∀ v : Value, v.Data → P v) (limit : Nat) :
    Comparison where
  closed
  value v v' := v' = v ∧ P v
  cells a a' := a' = a ∧ a.All P
  limit
  data v hv := ⟨rfl, hdata v hv⟩
  similar h := h.1 ▸ .same _
  beq h h' := h.1 ▸ h'.1 ▸ rfl
  text h := h.1 ▸ rfl
  hash h := h.1 ▸ rfl

theorem slotsAlike_self {slots : Array (Option Value)} :
    SlotsAlike (fun v v' => v' = v ∧ P v) slots slots ↔ Heap.Filled P slots := by
  constructor
  · intro h v hv
    obtain ⟨i, hi⟩ := Array.mem_iff_getElem?.mp hv
    have hslot := h i
    rw [hi] at hslot
    cases hslot with
    | some hv =>
      cases hv with
      | some hv => exact hv.2
  · exact fun h _ => rel_self fun x hx => rel_self fun v hv =>
      ⟨rfl, h v (hv ▸ Array.mem_of_getElem? hx)⟩

/-- An operation that does the same on heaps that compare keeps a property of all values. -/
theorem safe_of_joint (hdata : ∀ v : Value, v.Data → P v) {r : α → α → Prop}
    (h : ∀ limit, Joint (same closed hdata limit) r op op) (hr : ∀ a, r a a → R a) :
    Safe closed P op R := by
  intro heap hh
  have hself : heap.Alike (same closed hdata heap.maxBlockSlots) heap :=
    ⟨⟨rfl, hh.cells⟩, hh.objects.alike fun _ ho => ⟨rfl, slotsAlike_self.mpr ho.1, ho.2⟩,
      hh.blocks.alike fun _ => slotsAlike_self.mpr, rfl, rfl⟩
  have hkept : ∀ heap' : Heap, heap'.Alike (same closed hdata heap.maxBlockSlots) heap' →
      heap'.All P ∧ heap'.maxBlockSlots = heap.maxBlockSlots := fun heap' hk =>
    ⟨⟨hk.cells.2, hk.objects.all fun _ ho => ⟨slotsAlike_self.mp ho.fields, ho.shaped⟩,
      hk.blocks.all fun _ => slotsAlike_self.mp⟩, hk.limit⟩
  have hpaired := h _ heap heap hself
  generalize op heap = x at hpaired
  cases hpaired with
  | ok h => exact ⟨hr _ h.1, hkept _ h.2⟩
  | error e h => exact ⟨h.1, hkept _ h.2⟩

section Data

variable (hdata : ∀ v : Value, v.Data → P v)
include hdata

theorem newObject_safe (type : StructType) :
    Safe closed P (Host.access (Heap.newObject type)) fun _ => True :=
  safe_of_joint hdata (fun _ => newObject_joint type) fun _ _ => trivial

theorem getField_safe (ref : Handle) (offset : Nat) :
    Safe closed P (Host.access (Heap.getField ref offset)) P :=
  safe_of_joint hdata (fun _ => getField_joint ref offset) fun _ h => h.2

theorem setField_safe (ref : Handle) (offset : Nat) (hv : P v) :
    Safe closed P (Host.access (Heap.setField ref offset v)) fun _ => True :=
  safe_of_joint hdata (fun _ => setField_joint ref offset ⟨rfl, hv⟩) fun _ _ => trivial

end Data

end Host

end StackCode
