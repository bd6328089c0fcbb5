import StackCode.Proofs.Collections

/-! # Addresses of collections

The operations on collections count slots from pointers that stand in properties of instances. They
use an address beyond 64 bits only if a pointer and a size in the properties of the instance allow
for it, and miss an argument only if the symbol of a method has too few parameters.
-/

namespace StackCode

namespace Heap

def PointsAt (h : Heap) (ref : Handle) (i : Nat) (q : Pointer) : Prop :=
  ∃ object, h.objects.get? ref = some object ∧ object.fields[i]? = some (some (.pointer q))

/-- One of the properties in which collections keep their pointers holds the pointer. -/
def Points (h : Heap) (ref : Handle) (q : Pointer) : Prop := ∃ i < 2, h.PointsAt ref i q

def Counts (h : Heap) (ref : Handle) (n : Nat) : Prop :=
  ∃ object k, h.objects.get? ref = some object ∧ some (.int k) ∈ object.fields ∧ 0 ≤ k.toInt ∧
    n = k.toInt.toNat

/-- As many slots as one property of the instance says, counted from the pointer in another one,
take addresses beyond 64 bits. -/
def Overruns (h : Heap) (ref : Handle) : Prop :=
  ∃ q n, h.Points ref q ∧ h.Counts ref n ∧ UInt64.size ≤ q.offset + n

variable {h h' : Heap} {ref : Handle} {q : Pointer} {n : Nat}

theorem Counts.lt (hn : h.Counts ref n) : n + 1 < UInt64.size := by
  obtain ⟨_, k, -, -, -, rfl⟩ := hn
  have := k.toInt_lt
  rw [UInt64.size]
  omega

theorem not_overruns_of_start (hq : ∀ q, h.Points ref q → q.offset = 0) : ¬ h.Overruns ref := by
  rintro ⟨q, n, hp, hn, hsize⟩
  have := hn.lt
  rw [hq q hp] at hsize
  omega

theorem points_of_objects (ho : h'.objects = h.objects) (hq : h'.Points ref q) :
    h.Points ref q := by
  obtain ⟨i, hi, object, hobject, hq⟩ := hq
  exact ⟨i, hi, object, ho ▸ hobject, hq⟩

end Heap

namespace Host

variable {α β : Type} {h : Heap}

def Quiet (op : Host α) (h : Heap) (Q : α → Heap → Prop) : Prop :=
  Meets Q (fun e _ => e ≠ .fault) (op h)

variable {op : Host α} {Q Q' : α → Heap → Prop}

theorem quiet_pure {a : α} (ha : Q a h) : Quiet (pure a) h Q := ha

theorem quiet_trap {cause : Cause} : Quiet (Host.trap cause : Host α) h Q :=
  fun he => Failure.noConfusion he

theorem Quiet.bind {rest : α → Host β} {R : β → Heap → Prop} (hop : Quiet op h Q)
    (hrest : ∀ a h', Q a h' → Quiet (rest a) h' R) : Quiet (op >>= rest) h R :=
  Meets.bind hop hrest

/-- What follows an operation that only reads finds the same heap. -/
theorem Quiet.looks {P : α → Prop} {rest : α → Host β} {R : β → Heap → Prop}
    (hop : Quiet op h fun a h' => h' = h ∧ P a) (hrest : ∀ a, P a → Quiet (rest a) h R) :
    Quiet (op >>= rest) h R :=
  hop.bind fun a _ ha => ha.1 ▸ hrest a ha.2

theorem Quiet.keeps {rest : α → Host β} {R : β → Heap → Prop}
    (hop : Quiet op h fun _ h' => h' = h) (hrest : ∀ a, Quiet (rest a) h R) :
    Quiet (op >>= rest) h R :=
  hop.bind fun a _ ha => ha ▸ hrest a

theorem Quiet.read {rest : Heap → Host β} {R : β → Heap → Prop} (hrest : Quiet (rest h) h R) :
    Quiet (get >>= rest) h R := hrest

theorem Quiet.mono (hop : Quiet op h Q) (hQ : ∀ a h', Q a h' → Q' a h') : Quiet op h Q' :=
  Meets.mono hop hQ fun _ _ => id

theorem quiet_access (a : Heap.Access α) : Quiet (Host.access a) h fun x h' => a h = .ok x h' := by
  unfold Quiet Host.access
  cases a h with
  | ok x h' => exact rfl
  | error e h' => exact fun he => Failure.noConfusion he

end Host

namespace Collection

open Host Heap

variable {h : Heap} {ref : Handle} {q target : Pointer} {i n : Nat} {v : Value}

theorem slotOf_quiet (hi : q.offset + i < UInt64.size) :
    Quiet (slotOf q i) h fun _ h' => h' = h := by
  unfold slotOf
  rw [if_pos hi]
  exact quiet_pure rfl

theorem load_quiet (hi : q.offset + i < UInt64.size) :
    Quiet (load q i) h fun _ h' => h' = h := by
  refine (slotOf_quiet hi).keeps fun p => ?_
  refine (quiet_access _).mono fun v h'' hv => ?_
  unfold Heap.load at hv
  split at hv
  · cases hv
  · split at hv <;> cases hv
    rfl

theorem store_quiet (hi : q.offset + i < UInt64.size) :
    Quiet (store q i v) h fun _ h' => h'.objects = h.objects := by
  refine (slotOf_quiet hi).keeps fun p => ?_
  refine (quiet_access _).mono fun v h'' hv => ?_
  unfold Heap.store at hv
  split at hv
  · cases hv
  · dsimp only at hv
    split at hv <;> cases hv
    rfl

theorem newBlock_quiet (n : Nat) : Quiet (Host.access (Heap.newBlock n)) h fun q h' =>
    q.offset = 0 ∧ h'.objects = h.objects := by
  refine (quiet_access _).mono fun q h' hq => ?_
  unfold Heap.newBlock at hq
  split at hq <;> cases hq
  exact ⟨rfl, rfl⟩

theorem freeBlock_quiet (q : Pointer) : Quiet (Host.access (Heap.freeBlock q)) h fun _ h' =>
    h'.objects = h.objects := by
  refine (quiet_access _).mono fun _ h' hq => ?_
  unfold Heap.freeBlock at hq
  split at hq <;> cases hq
  rfl

theorem getField_quiet (ref : Handle) (offset : Nat) :
    Quiet (Host.access (Heap.getField ref offset)) h fun v h' => h' = h ∧
      ∃ object, h.objects.get? ref = some object ∧ object.fields[offset]? = some (some v) := by
  refine (quiet_access _).mono fun v h' hv => ?_
  unfold Heap.getField at hv
  split at hv
  · cases hv
  · rename_i object hobject
    split at hv <;> cases hv
    rename_i hfield
    exact ⟨rfl, object, hobject, hfield⟩

theorem sizeField_quiet (ref : Handle) (offset : Nat) :
    Quiet (sizeField ref offset) h fun n h' => h' = h ∧ h.Counts ref n := by
  refine (getField_quiet ref offset).bind fun v h' hv => ?_
  obtain ⟨rfl, object, hobject, hfield⟩ := hv
  cases v with
  | int k =>
    dsimp only
    split
    · rename_i hk
      exact quiet_pure ⟨rfl, object, k, hobject, Array.mem_of_getElem? hfield, hk, rfl⟩
    · exact quiet_trap
  | _ => exact quiet_trap

theorem pointerField_quiet (ref : Handle) {offset : Nat} (hi : offset < 2) :
    Quiet (pointerField ref offset) h fun q h' => h' = h ∧ h.Points ref q := by
  refine (getField_quiet ref offset).bind fun v h' hv => ?_
  obtain ⟨rfl, object, hobject, hfield⟩ := hv
  cases v with
  | pointer q => exact quiet_pure ⟨rfl, offset, hi, object, hobject, hfield⟩
  | _ => exact quiet_trap

/-- Storing a property adds no pointer but the one that is stored, in place of what was there. -/
theorem setField_quiet (ref : Handle) (offset : Nat) (v : Value) :
    Quiet (setField ref offset v) h fun _ h' => ∀ i q, h'.PointsAt ref i q →
      h.PointsAt ref i q ∧ i ≠ offset ∨ v = .pointer q := by
  refine (quiet_access _).mono fun _ h' hv => ?_
  unfold Heap.setField at hv
  split at hv
  · cases hv
  · dsimp only at hv
    split at hv <;> cases hv
    rintro i q ⟨object, hobject, hq⟩
    rw [Arena.get?_modify, if_pos rfl] at hobject
    obtain ⟨old, hold, rfl⟩ := Option.map_eq_some_iff.mp hobject
    dsimp only at hq
    rw [Array.getElem?_setIfInBounds] at hq
    split at hq
    · split at hq <;> cases hq
      exact .inr rfl
    · rename_i hne
      exact .inl ⟨⟨old, hold, hq⟩, Ne.symm hne⟩

theorem checkedIndex_quiet (index : Value) (n : Nat) :
    Quiet (checkedIndex index n) h fun slot h' => h' = h ∧ slot < n := by
  unfold checkedIndex
  split
  · split
    · rename_i hlt
      exact quiet_pure ⟨rfl, hlt.2⟩
    · exact quiet_trap
  · exact quiet_trap

/-! ## Slots in a row -/

theorem storeAll_quiet (vs : List Value) : ∀ {i : Nat} {h : Heap},
    q.offset + i + vs.length ≤ UInt64.size →
      Quiet (storeAll q i vs) h fun _ h' => h'.objects = h.objects := by
  induction vs with
  | nil => exact fun _ => quiet_pure rfl
  | cons v vs ih =>
    intro i h hi
    rw [List.length_cons] at hi
    refine (store_quiet (by omega)).bind fun _ h' hh => ?_
    exact (ih (by omega)).mono fun _ _ hh' => hh'.trans hh

theorem findSlot_quiet (n : Nat) : ∀ {i : Nat}, q.offset + i + n ≤ UInt64.size →
    Quiet (findSlot q v i n) h fun r h' => h' = h ∧ ∀ k, r = some k → k < i + n := by
  induction n with
  | zero => exact fun _ => quiet_pure ⟨rfl, fun _ hk => absurd hk (by simp)⟩
  | succ n ih =>
    intro i hi
    refine (load_quiet (by omega)).keeps fun w => ?_
    split
    · refine quiet_pure ⟨rfl, fun k hk => ?_⟩
      cases hk
      omega
    · refine (ih (by omega)).mono fun r h'' hr => ⟨hr.1, fun k hk => ?_⟩
      have := hr.2 k hk
      omega

theorem copySlots_quiet (n : Nat) : ∀ {i : Nat} {h : Heap}, q.offset + i + n ≤ UInt64.size →
    target.offset + i + n ≤ UInt64.size →
      Quiet (copySlots q target i n) h fun _ h' => h'.objects = h.objects := by
  induction n with
  | zero => exact fun _ _ => quiet_pure rfl
  | succ n ih =>
    intro i h hq ht
    refine (load_quiet (by omega)).keeps fun w => ?_
    refine (store_quiet (by omega)).bind fun _ h'' hh => ?_
    exact (ih (by omega) (by omega)).mono fun _ _ hh' => hh'.trans hh

theorem shiftDown_quiet (n : Nat) : ∀ {i : Nat} {h : Heap}, q.offset + i + n ≤ UInt64.size →
    Quiet (shiftDown q i n) h fun _ h' => h'.objects = h.objects := by
  induction n with
  | zero => exact fun _ => quiet_pure rfl
  | succ n ih =>
    intro i h hi
    refine (load_quiet (by omega)).keeps fun w => ?_
    refine (store_quiet (by omega)).bind fun _ h'' hh => ?_
    exact (ih (by omega)).mono fun _ _ hh' => hh'.trans hh

theorem reallocate_quiet {count : Nat} (capacity : Nat) (hq : q.offset + count ≤ UInt64.size) :
    Quiet (reallocate q count capacity) h fun q' h' =>
      q'.offset = 0 ∧ h'.objects = h.objects := by
  refine (newBlock_quiet capacity).bind fun new h₁ hn => ?_
  refine (copySlots_quiet count (by omega) (by omega)).bind fun _ h₂ hh => ?_
  refine (freeBlock_quiet q).bind fun _ h₃ hh' => quiet_pure ⟨hn.1, ?_⟩
  rw [hh', hh, hn.2]

end Collection

namespace Heap

variable {h h' h'' : Heap} {ref : Handle} {q : Pointer} {n : Nat}

theorem add_lt_of_not_overruns (hc : ¬ h.Overruns ref) (hq : h.Points ref q)
    (hn : h.Counts ref n) : q.offset + n < UInt64.size :=
  Nat.lt_of_not_le fun hle => hc ⟨q, n, hq, hn, hle⟩

def Renews (h h' : Heap) (ref : Handle) : Prop :=
  ∀ q, h'.Points ref q → h.Points ref q ∨ q.offset = 0

theorem renews_of_objects (ho : h'.objects = h.objects) : h.Renews h' ref :=
  fun _ hq => .inl (points_of_objects ho hq)

theorem Renews.trans (hr : h.Renews h' ref) (hr' : h'.Renews h'' ref) : h.Renews h'' ref :=
  fun q hq => (hr' q hq).elim (hr q) .inr

end Heap

namespace Collection

open Host Heap

variable {h : Heap} {ref : Handle} {q : Pointer} {count offset : Nat} {v : Value}
  {args : List Value}

theorem setField_renews (hv : ∀ q, v = .pointer q → q.offset = 0) :
    Quiet (setField ref offset v) h fun _ h' => h.Renews h' ref :=
  (setField_quiet ref offset v).mono fun _ _ hp q ⟨i, hi, hq⟩ =>
    (hp i q hq).imp (fun hq => ⟨i, hi, hq.1⟩) (hv q)

theorem setSize_renews (n : Nat) :
    Quiet (setField ref offset (sizeValue n)) h fun _ h' => h.Renews h' ref :=
  setField_renews fun _ hq => Value.noConfusion hq

theorem setPointer_renews (hq : q.offset = 0) :
    Quiet (setField ref offset (.pointer q)) h fun _ h' => h.Renews h' ref := by
  refine setField_renews fun q' hq' => ?_
  cases hq'
  exact hq

/-! ## Arrays -/

namespace Array

theorem ensureRoom_quiet (capacity : Nat) (hq : q.offset + count < UInt64.size) :
    Quiet (ensureRoom ref q count capacity) h fun q' _ => q'.offset + count < UInt64.size := by
  unfold ensureRoom
  split
  · refine .read ?_
    refine (reallocate_quiet _ (by omega)).bind fun q' h₁ hq' => ?_
    refine (setPointer_renews hq'.1).bind fun _ h₂ _ => (setSize_renews _).bind fun _ h₃ _ => ?_
    exact quiet_pure (by omega)
  · exact quiet_pure hq

variable (hc : ¬ h.Overruns ref)
include hc

theorem append_quiet : Quiet (append ref v) h fun _ _ => True := by
  refine (sizeField_quiet ref countField).looks fun count hn => ?_
  refine (sizeField_quiet ref capacityField).looks fun capacity _ => ?_
  refine (pointerField_quiet ref (show storageField < 2 by decide)).looks fun q hq => ?_
  refine (ensureRoom_quiet capacity (add_lt_of_not_overruns hc hq hn)).bind fun q' h₄ hq' => ?_
  exact (store_quiet hq').bind fun _ _ _ => (setSize_renews _).mono fun _ _ _ => trivial

theorem slot_quiet {β : Type} {rest : Pointer → Nat → Host β} (index : Value)
    (hrest : ∀ q slot, q.offset + slot < UInt64.size → Quiet (rest q slot) h fun _ _ => True) :
    Quiet (do
      let slot ← checkedIndex index (← sizeField ref countField)
      rest (← pointerField ref storageField) slot) h fun _ _ => True := by
  refine (sizeField_quiet ref countField).looks fun count hn => ?_
  refine (checkedIndex_quiet index count).looks fun slot hs => ?_
  refine (pointerField_quiet ref (show storageField < 2 by decide)).looks fun q hq => ?_
  have := add_lt_of_not_overruns hc hq hn
  exact hrest q slot (by omega)

theorem get_quiet (index : Value) : Quiet (get ref index) h fun _ _ => True :=
  slot_quiet hc index fun _ _ hs => (load_quiet hs).mono fun _ _ _ => trivial

theorem set_quiet (index : Value) : Quiet (set ref index v) h fun _ _ => True :=
  slot_quiet hc index fun _ _ hs => (store_quiet hs).mono fun _ _ _ => trivial

theorem remove_quiet (index : Value) : Quiet (remove ref index) h fun _ _ => True := by
  refine (sizeField_quiet ref countField).looks fun count hn => ?_
  refine (checkedIndex_quiet index count).looks fun slot hs => ?_
  refine (pointerField_quiet ref (show storageField < 2 by decide)).looks fun q hq => ?_
  have := add_lt_of_not_overruns hc hq hn
  refine (load_quiet (by omega)).bind fun removed h₄ _ => ?_
  refine (shiftDown_quiet _ (by omega)).bind fun _ h₅ _ => ?_
  exact (setSize_renews _).bind fun _ _ _ => quiet_pure trivial

theorem extent_quiet : Quiet (extent ref) h fun r _ => r.1.offset + r.2 < UInt64.size := by
  refine (sizeField_quiet ref countField).looks fun count hn => ?_
  refine (pointerField_quiet ref (show storageField < 2 by decide)).looks fun q hq => ?_
  exact quiet_pure (add_lt_of_not_overruns hc hq hn)

end Array

theorem create_array_quiet (type : StructType) {vs : List Value} (hvs : vs.length ≤ UInt64.size) :
    Quiet (Array.create type vs) h fun _ _ => True := by
  refine (newBlock_quiet _).bind fun q h₁ hq => ?_
  refine (storeAll_quiet vs (by omega)).bind fun _ h₂ _ => ?_
  refine (quiet_access _).bind fun ref h₃ _ => (setPointer_renews hq.1).bind fun _ h₄ _ => ?_
  exact (setSize_renews _).bind fun _ _ _ => (setSize_renews _).bind fun _ _ _ =>
    quiet_pure trivial

/-! ## Dictionaries -/

namespace Dictionary

theorem ensureRoom_quiet {keys values : Pointer} (capacity : Nat)
    (hk : keys.offset + count < UInt64.size) (hv : values.offset + count < UInt64.size) :
    Quiet (ensureRoom ref keys values count capacity) h fun r h' => h.Renews h' ref ∧
      r.1.offset + count < UInt64.size ∧ r.2.offset + count < UInt64.size := by
  unfold ensureRoom
  split
  · refine .read ?_
    refine (reallocate_quiet _ (by omega)).bind fun keys' h₁ hk' => ?_
    refine (reallocate_quiet _ (by omega)).bind fun values' h₂ hv' => ?_
    have hblocks : h.Renews h₂ ref :=
      (renews_of_objects hk'.2).trans (renews_of_objects hv'.2)
    refine (setPointer_renews hk'.1).bind fun _ h₃ h3 => ?_
    refine (setPointer_renews hv'.1).bind fun _ h₄ h4 => ?_
    refine (setSize_renews _).bind fun _ h₅ h5 => quiet_pure ⟨?_, ?_, ?_⟩
    · exact ((hblocks.trans h3).trans h4).trans h5
    · dsimp only
      omega
    · dsimp only
      omega
  · exact quiet_pure ⟨renews_of_objects rfl, hk, hv⟩

variable (hc : ¬ h.Overruns ref)
include hc

theorem set_quiet (key : Value) : Quiet (set ref key v) h fun _ h' => h.Renews h' ref := by
  refine (sizeField_quiet ref countField).looks fun count hn => ?_
  refine (pointerField_quiet ref (show keysField < 2 by decide)).looks fun keys hk => ?_
  refine (pointerField_quiet ref (show valuesField < 2 by decide)).looks fun values hv => ?_
  have hkeys := add_lt_of_not_overruns hc hk hn
  have hvalues := add_lt_of_not_overruns hc hv hn
  refine (findSlot_quiet count (by omega)).looks fun r hr => ?_
  cases r with
  | some slot =>
    have := hr slot rfl
    exact (store_quiet (by omega)).mono fun _ _ ho => renews_of_objects ho
  | none =>
    refine (sizeField_quiet ref capacityField).looks fun capacity _ => ?_
    refine (ensureRoom_quiet capacity hkeys hvalues).bind fun r h₆ hr => ?_
    refine (store_quiet hr.2.1).bind fun _ h₇ h7 => (store_quiet hr.2.2).bind fun _ h₈ h8 => ?_
    refine (setSize_renews _).mono fun _ h₉ h9 => ?_
    exact ((hr.1.trans (renews_of_objects h7)).trans (renews_of_objects h8)).trans h9

theorem extent_quiet : Quiet (extent ref) h fun r h' => h' = h ∧ h.Counts ref r.2 ∧
    r.1.offset + r.2 < UInt64.size := by
  refine (sizeField_quiet ref countField).looks fun count hn => ?_
  refine (pointerField_quiet ref (show keysField < 2 by decide)).looks fun q hq => ?_
  exact quiet_pure ⟨rfl, hn, add_lt_of_not_overruns hc hq hn⟩

theorem get_quiet (key : Value) : Quiet (get ref key) h fun _ _ => True := by
  refine (extent_quiet hc).looks fun r hr => ?_
  obtain ⟨hn, hk⟩ := hr
  refine (findSlot_quiet r.2 (by omega)).looks fun found hf => ?_
  cases found with
  | some slot =>
    refine (pointerField_quiet ref (show valuesField < 2 by decide)).looks fun values hv => ?_
    have hv := add_lt_of_not_overruns hc hv hn
    have := hf slot rfl
    exact (load_quiet (by omega)).mono fun _ _ _ => trivial
  | none => exact quiet_pure trivial

theorem remove_quiet (key : Value) : Quiet (remove ref key) h fun _ _ => True := by
  refine (extent_quiet hc).looks fun r hr => ?_
  obtain ⟨hn, hk⟩ := hr
  refine (findSlot_quiet r.2 (by omega)).looks fun found hf => ?_
  cases found with
  | none => exact quiet_pure trivial
  | some slot =>
    refine (pointerField_quiet ref (show valuesField < 2 by decide)).looks fun values hv => ?_
    have hv := add_lt_of_not_overruns hc hv hn
    have := hf slot rfl
    have hclose : ∀ {h' : Heap} {removed : Value}, Quiet (do
        setField ref countField (sizeValue (r.2 - 1))
        pure removed) h' fun _ _ => True :=
      (setSize_renews _).bind fun _ _ _ => quiet_pure trivial
    refine (load_quiet (by omega)).keeps fun removed => ?_
    dsimp only
    split
    · refine (load_quiet (by omega)).bind fun lastKey h₅ _ => ?_
      refine (load_quiet (by omega)).bind fun lastValue h₆ _ => ?_
      refine (store_quiet (by omega)).bind fun _ h₇ _ => ?_
      exact (store_quiet (by omega)).bind fun _ h₈ _ => hclose
    · exact hclose

omit hc in
theorem setAll_quiet (entries : List (Value × Value)) : ∀ {h : Heap},
    (∀ q, h.Points ref q → q.offset = 0) → Quiet (setAll ref entries) h fun _ _ => True := by
  induction entries with
  | nil => exact fun _ => quiet_pure trivial
  | cons entry entries ih =>
    intro h hq
    refine (set_quiet (not_overruns_of_start hq) entry.1).bind fun _ h' hr => ?_
    exact ih fun q hp => (hr q hp).elim (hq q) id

end Dictionary

theorem create_dictionary_quiet (type : StructType) (entries : List (Value × Value)) :
    Quiet (Dictionary.create type entries) h fun _ _ => True := by
  refine (newBlock_quiet _).bind fun keys h₁ hk => (newBlock_quiet _).bind fun values h₂ hv => ?_
  refine (quiet_access _).bind fun ref h₃ _ => ?_
  refine (setField_quiet ref Dictionary.keysField _).bind fun _ h₄ h4 => ?_
  refine (setField_quiet ref Dictionary.valuesField _).bind fun _ h₅ h5 => ?_
  refine (setSize_renews _).bind fun _ h₆ h6 => (setSize_renews _).bind fun _ h₇ h7 => ?_
  have hpair : ∀ q, h₅.Points ref q → q.offset = 0 := by
    rintro q ⟨i, hi, hq⟩
    rcases h5 i q hq with ⟨hq, hvalues⟩ | he
    · rcases h4 i q hq with ⟨-, hkeys⟩ | he
      · simp only [Dictionary.keysField, Dictionary.valuesField] at hkeys hvalues
        omega
      · cases he
        exact hk.1
    · cases he
      exact hv.1
  have hstart : ∀ q, h₇.Points ref q → q.offset = 0 := fun q hq =>
    ((h6.trans h7) q hq).elim (hpair q) id
  exact (Dictionary.setAll_quiet entries hstart).bind fun _ _ _ => quiet_pure trivial

/-! ## Calls -/

def reads (owner name : String) : Nat :=
  if owner = Standard.arrayName ∧ name = "append" then 1
  else if owner = Standard.arrayName ∨ owner = Standard.dictionaryName then
    if name = "set" then 2 else if name ∈ ["get", "remove", "contains"] then 1 else 0
  else 0

def Short (method : Symbol) : Prop :=
  ∃ owner name params, method.kind = .method owner name params ∧ params.length < reads owner name

theorem argument_quiet {i : Nat} (hi : i < args.length) :
    Quiet (argument args i) h fun _ h' => h' = h := by
  unfold argument
  rw [List.getElem?_eq_getElem hi]
  exact quiet_pure rfl

theorem contains_quiet {extent : Host (Pointer × Nat)} (hargs : 0 < args.length)
    (he : Quiet extent h fun r _ => r.1.offset + r.2 < UInt64.size) :
    Quiet (contains extent args) h fun _ _ => True := by
  refine he.bind fun r h₁ hr => (argument_quiet hargs).bind fun v h₂ _ => ?_
  exact (findSlot_quiet r.2 (by omega)).bind fun _ _ _ => quiet_pure trivial

section Methods

variable {args : List Value} (hc : ¬ h.Overruns ref)
include hc

theorem invokeArray_quiet {method : String}
    (hargs : reads Standard.arrayName method ≤ args.length) :
    Quiet (invokeArray method ref args) h fun _ _ => True := by
  unfold invokeArray
  split
  case h_1 =>
    exact (argument_quiet hargs).keeps fun v =>
      (Array.append_quiet hc).bind fun _ _ _ => quiet_pure trivial
  case h_2 =>
    exact (argument_quiet hargs).keeps fun v => Array.get_quiet hc v
  case h_3 =>
    exact (argument_quiet (Nat.lt_of_succ_lt hargs)).keeps fun index => (argument_quiet hargs).keeps
      fun v => (Array.set_quiet hc index).bind fun _ _ _ => quiet_pure trivial
  case h_4 =>
    exact (argument_quiet hargs).keeps fun v => Array.remove_quiet hc v
  case h_5 => exact contains_quiet hargs (Array.extent_quiet hc)
  case h_6 => exact quiet_trap

theorem invokeDictionary_quiet {method : String}
    (hargs : reads Standard.dictionaryName method ≤ args.length) :
    Quiet (invokeDictionary method ref args) h fun _ _ => True := by
  unfold invokeDictionary
  split
  case h_1 =>
    exact (argument_quiet hargs).keeps fun v => Dictionary.get_quiet hc v
  case h_2 =>
    exact (argument_quiet (Nat.lt_of_succ_lt hargs)).keeps fun key => (argument_quiet hargs).keeps
      fun v => (Dictionary.set_quiet hc key).bind fun _ _ _ => quiet_pure trivial
  case h_3 =>
    exact (argument_quiet hargs).keeps fun v => Dictionary.remove_quiet hc v
  case h_4 => exact contains_quiet hargs ((Dictionary.extent_quiet hc).mono fun _ _ hr => hr.2.2)
  case h_5 => exact quiet_trap

theorem invoke_quiet {method : Symbol} (hm : ¬ Short method) :
    Quiet (invoke method ref args) h fun _ _ => True := by
  unfold invoke
  split
  · rename_i owner name params hk
    have hreads : reads owner name ≤ params.length :=
      Nat.le_of_not_lt fun hlt => hm ⟨owner, name, params, hk, hlt⟩
    split
    · exact quiet_trap
    rename_i hlen
    have hargs : reads owner name ≤ args.length := by omega
    split
    · rename_i ho
      rw [beq_iff_eq.mp ho] at hargs
      exact invokeArray_quiet hc hargs
    split
    · rename_i ho
      rw [beq_iff_eq.mp ho] at hargs
      exact invokeDictionary_quiet hc hargs
    · exact quiet_trap
  · exact quiet_trap

end Methods

theorem construct_quiet (types : Types) (name : String) (hargs : args.length ≤ UInt64.size) :
    Quiet (construct types name args) h fun _ _ => True := by
  unfold construct
  split
  · exact create_array_quiet _ hargs
  split
  · split
    · exact create_dictionary_quiet _ []
    · exact quiet_trap
  · exact quiet_trap

theorem expect_quiet (receiver : Value) :
    Quiet (expect receiver) h fun r h' => h' = h ∧ receiver = .object r.1 := by
  unfold expect
  cases receiver with
  | object ref =>
    dsimp only
    refine (quiet_access _).bind fun object h' ho => ?_
    unfold Heap.object at ho
    split at ho <;> cases ho
    split
    · exact quiet_pure ⟨rfl, rfl⟩
    · exact quiet_trap
  | _ => exact quiet_trap

section Subscripts

variable {receiver : Value} (hc : ∀ ref, receiver = .object ref → ¬ h.Overruns ref)
include hc

theorem subscript_quiet (index : Value) :
    Quiet (subscript receiver index) h fun _ _ => True := by
  refine (expect_quiet receiver).looks fun r hr => ?_
  dsimp only
  split
  · exact Array.get_quiet (hc _ hr) index
  · exact Dictionary.get_quiet (hc _ hr) index

theorem setSubscript_quiet (index v : Value) :
    Quiet (setSubscript receiver index v) h fun _ _ => True := by
  refine (expect_quiet receiver).looks fun r hr => ?_
  dsimp only
  split
  · exact Array.set_quiet (hc _ hr) index
  · exact (Dictionary.set_quiet (hc _ hr) index).mono fun _ _ _ => trivial

end Subscripts

end Collection

/-! ## Checked arithmetic -/

namespace Collection

/-! The operations that add to sizes and slots or subtract from them, with the sums and differences
checked to stay within 64 bits, and the one that makes blocks, with their bytes checked. -/

namespace Checked

def add (a b : Nat) : Host Nat := if a + b < UInt64.size then pure (a + b) else Host.fault

def sub (a b : Nat) : Host Nat := if b ≤ a then pure (a - b) else Host.fault

/-- A slot takes 24 bytes, and no block takes `2 ^ 63` of them. -/
def largestBlock : Nat := (Nat.pow 2 63 - 1) / 24

def newBlock (capacity : Nat) : Host Pointer := fun h =>
  if capacity ≤ h.maxBlockSlots ∧ largestBlock < capacity then Host.fault h
  else Host.access (Heap.newBlock capacity) h

def shiftDown (p : Pointer) (i : Nat) : Nat → Host Unit
  | 0 => pure ()
  | n + 1 => do
    let v ← load p i
    store p (← sub i 1) v
    shiftDown p (i + 1) n

def append (ref : Handle) (v : Value) : Host Unit := do
  let count ← sizeField ref Array.countField
  let capacity ← sizeField ref Array.capacityField
  let storage ← Array.ensureRoom ref (← pointerField ref Array.storageField) count capacity
  store storage count v
  setField ref Array.countField (sizeValue (← add count 1))

def removeAt (ref : Handle) (index : Value) : Host Value := do
  let count ← sizeField ref Array.countField
  let slot ← checkedIndex index count
  let storage ← pointerField ref Array.storageField
  let removed ← load storage slot
  let next ← add slot 1
  shiftDown storage next (count - next)
  setField ref Array.countField (sizeValue (← sub count 1))
  pure removed

def insert (ref : Handle) (key v : Value) : Host Unit := do
  let count ← sizeField ref Dictionary.countField
  let keys ← pointerField ref Dictionary.keysField
  let values ← pointerField ref Dictionary.valuesField
  match ← findSlot keys key 0 count with
  | some slot => store values slot v
  | none =>
    let capacity ← sizeField ref Dictionary.capacityField
    let (keys, values) ← Dictionary.ensureRoom ref keys values count capacity
    store keys count key
    store values count v
    setField ref Dictionary.countField (sizeValue (← add count 1))

def removeKey (ref : Handle) (key : Value) : Host Value := do
  let (keys, count) ← Dictionary.extent ref
  match ← findSlot keys key 0 count with
  | none => pure .none
  | some slot =>
    let values ← pointerField ref Dictionary.valuesField
    let removed ← load values slot
    let last ← sub count 1
    if slot ≠ last then
      let lastKey ← load keys last
      let lastValue ← load values last
      store keys slot lastKey
      store values slot lastValue
    setField ref Dictionary.countField (sizeValue last)
    pure removed

end Checked

open Host Heap

variable {h : Heap}

/-- What follows an operation may be replaced by what does the same with its results. -/
theorem bind_eq_of_meets {α β : Type} {op : Host α} {f g : α → Host β} {Q : α → Heap → Prop}
    {F : Failure → Heap → Prop} (hop : Meets Q F (op h)) (hfg : ∀ a h', Q a h' → f a h' = g a h') :
    (op >>= f) h = (op >>= g) h := by
  change EStateM.bind op f h = EStateM.bind op g h
  unfold EStateM.bind
  cases hr : op h with
  | ok a h' =>
    rw [hr] at hop
    exact hfg a h' hop
  | error e h' => rfl

theorem Checked.add_one {n : Nat} (hn : n + 1 < UInt64.size) : Checked.add n 1 = pure (n + 1) :=
  if_pos hn

theorem Checked.sub_one {n : Nat} (hn : 0 < n) : Checked.sub n 1 = pure (n - 1) := if_pos hn

theorem Checked.newBlock_eq (hh : h.maxBlockSlots ≤ largestBlock) (capacity : Nat) :
    Checked.newBlock capacity h = Host.access (Heap.newBlock capacity) h :=
  if_neg fun hc => Nat.not_lt.mpr (Nat.le_trans hc.1 hh) hc.2

theorem findSlot_lt {q : Pointer} {v : Value} (n : Nat) : ∀ {i : Nat},
    Meets (fun r _ => ∀ k, r = some k → k < i + n) (fun _ _ => True) (findSlot q v i n h) := by
  induction n with
  | zero => exact fun _ hk => absurd hk (by simp)
  | succ n ih =>
    intro i
    have hload : Meets (fun _ h' => h' = h) (fun _ _ => True) (load q i h) := by
      by_cases hi : q.offset + i < UInt64.size
      · exact Meets.mono (load_quiet hi) (fun _ _ => id) fun _ _ _ => trivial
      · have hfault : load q i h = .error .fault h := by
          unfold load slotOf
          rw [if_neg hi]
          rfl
        rw [hfault]
        trivial
    refine hload.bind fun w h' hh => ?_
    subst hh
    split
    · intro k hk
      cases hk
      omega
    · exact ih.mono (fun r _ hr k hk => by have := hr k hk; omega) fun _ _ => id

theorem Checked.shiftDown_eq (q : Pointer) (n : Nat) : ∀ {i : Nat}, 0 < i →
    Checked.shiftDown q i n = Collection.shiftDown q i n := by
  induction n with
  | zero => exact fun _ => rfl
  | succ n ih =>
    intro i hi
    rw [Checked.shiftDown, Collection.shiftDown, Checked.sub_one hi, ih (Nat.succ_pos i)]
    rfl

theorem Checked.append_eq : Checked.append = Array.append := by
  funext ref v h
  refine bind_eq_of_meets (sizeField_quiet ref Array.countField) fun count h₁ hn => ?_
  rw [Checked.add_one hn.2.lt]
  rfl

theorem Checked.insert_eq : Checked.insert = Dictionary.set := by
  funext ref key v h
  refine bind_eq_of_meets (sizeField_quiet ref Dictionary.countField) fun count h₁ hn => ?_
  rw [Checked.add_one hn.2.lt]
  rfl

theorem Checked.removeAt_eq : Checked.removeAt = Array.remove := by
  funext ref index h
  refine bind_eq_of_meets (sizeField_quiet ref Array.countField) fun count h₁ hn => ?_
  obtain ⟨rfl, hn⟩ := hn
  refine bind_eq_of_meets (checkedIndex_quiet index count) fun slot h₂ hs => ?_
  have hcount := hn.lt
  have hslot := hs.2
  rw [Checked.add_one (by omega), Checked.sub_one (by omega)]
  have hshift : ∀ storage, Checked.shiftDown storage (slot + 1) (count - (slot + 1)) =
      Collection.shiftDown storage (slot + 1) (count - (slot + 1)) :=
    fun storage => Checked.shiftDown_eq storage _ (Nat.succ_pos slot)
  simp only [pure_bind, hshift]

theorem Checked.removeKey_eq : Checked.removeKey = Dictionary.remove := by
  funext ref key h
  have hextent : Meets (fun _ _ => True) (fun _ _ => True) (Dictionary.extent ref h) := by
    cases Dictionary.extent ref h <;> trivial
  refine bind_eq_of_meets hextent fun r h₁ _ => ?_
  refine bind_eq_of_meets (findSlot_lt r.2) fun found h₂ hf => ?_
  cases found with
  | none => rfl
  | some slot =>
    have hslot := hf slot rfl
    dsimp only
    rw [Checked.sub_one (by omega)]
    rfl

end Collection

open Host in
theorem Builtin.apply_quiet (b : Builtin) {args : List Value} (hargs : args.length = b.arity)
    {h : Heap} : Quiet (b.apply args) h fun _ _ => True := by
  have hint : ∀ (operation : String) (v : Value), Quiet (expectInt operation v) h
      fun _ _ => True := by
    intro operation v
    cases v with
    | int n => exact quiet_pure trivial
    | _ => exact quiet_trap
  have hpointer : ∀ (operation : String) (v : Value), Quiet (expectPointer operation v) h
      fun _ _ => True := by
    intro operation v
    cases v with
    | pointer q => exact quiet_pure trivial
    | _ => exact quiet_trap
  cases b with
  | print =>
    obtain ⟨v, rfl⟩ := List.length_eq_one_iff.mp hargs
    exact quiet_pure trivial
  | allocate =>
    obtain ⟨v, rfl⟩ := List.length_eq_one_iff.mp hargs
    refine (hint _ v).bind fun n h' _ => ?_
    split
    · exact quiet_trap
    · exact (quiet_access _).bind fun _ _ _ => quiet_pure trivial
  | deref | free =>
    obtain ⟨v, rfl⟩ := List.length_eq_one_iff.mp hargs
    exact (hpointer _ v).bind fun _ _ _ => (quiet_access _).bind fun _ _ _ => quiet_pure trivial
  | storePtr =>
    obtain ⟨v, rest, rfl⟩ := List.exists_cons_of_length_eq_add_one hargs
    obtain ⟨content, rfl⟩ := List.length_eq_one_iff.mp (Nat.succ.inj hargs)
    exact (hpointer _ v).bind fun _ _ _ => (quiet_access _).bind fun _ _ _ => quiet_pure trivial
  | hash =>
    obtain ⟨v, rfl⟩ := List.length_eq_one_iff.mp hargs
    unfold Builtin.apply
    dsimp only
    split
    · exact quiet_pure trivial
    · exact quiet_trap

end StackCode
