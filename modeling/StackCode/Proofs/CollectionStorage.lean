import StackCode.Proofs.KeyColumns
import StackCode.Proofs.Ownership

/-! # Where collections keep their elements

An array stands in the heap with its elements in one block, a dictionary with its keys and values in
two. An operation on a collection that stands either fails and leaves the heap as it was, or leaves
a collection that stands, in blocks that are its own.
-/

namespace StackCode

namespace Host

variable {α β : Type} {m : Host α} {h : Heap}

/-- The operation succeeds as told, or it fails and leaves the heap as it was. -/
def Settles (m : Host α) (h : Heap) (Q : α → Heap → Prop) : Prop :=
  Meets Q (fun _ h' => h' = h) (m h)

def ReadOnly (m : Host α) : Prop := ∀ h, Settles m h fun _ h' => h' = h

namespace Settles

variable {Q : α → Heap → Prop} {R : β → Heap → Prop} {rest : α → Host β}

theorem of_ok {a : α} {h' : Heap} (hm : m h = .ok a h') (hQ : Q a h') : Settles m h Q := by
  rw [Settles, hm]
  exact hQ

theorem of_error (hm : ∃ e, m h = .error e h) : Settles m h Q := by
  obtain ⟨e, he⟩ := hm
  rw [Settles, he]
  exact rfl

theorem read {a : α} (hm : m h = .ok a h) (hrest : Settles (rest a) h R) :
    Settles (m >>= rest) h R := by
  rwa [Settles, bind_of_ok hm]

theorem stop (hm : ∃ e, m h = .error e h) : Settles (m >>= rest) h R := by
  obtain ⟨e, he⟩ := hm
  exact of_error ⟨e, bind_of_error he⟩

theorem andThen (hm : Settles m h Q)
    (hrest : ∀ a h', Q a h' → ∃ c h'', rest a h' = .ok c h'' ∧ R c h'') :
    Settles (m >>= rest) h R := by
  cases hr : m h with
  | error e h' =>
    rw [Settles, hr] at hm
    cases hm
    exact stop ⟨e, hr⟩
  | ok a h' =>
    rw [Settles, hr] at hm
    obtain ⟨c, h'', hc, hR⟩ := hrest a h' hm
    exact of_ok ((bind_of_ok hr).trans hc) hR

theorem mono {Q' : α → Heap → Prop} (hm : Settles m h Q) (hQ : ∀ a h', Q a h' → Q' a h') :
    Settles m h Q' := Meets.mono hm hQ fun _ _ => id

end Settles

namespace ReadOnly

variable {rest : α → Host β}

theorem andThen (hm : ReadOnly m) {R : β → Heap → Prop} (hrest : ∀ a, Settles (rest a) h R) :
    Settles (m >>= rest) h R := by
  have hh := hm h
  cases hr : m h with
  | error e h' =>
    rw [Settles, hr] at hh
    cases hh
    exact .stop ⟨e, hr⟩
  | ok a h' =>
    rw [Settles, hr] at hh
    cases hh
    exact .read hr (hrest a)

theorem bind (hm : ReadOnly m) (hrest : ∀ a, ReadOnly (rest a)) : ReadOnly (m >>= rest) :=
  fun h => hm.andThen fun a => hrest a h

theorem pure (a : α) : ReadOnly (Pure.pure a : Host α) := fun _ => rfl

theorem trap (cause : Cause) : ReadOnly (Host.trap cause : Host α) := fun _ => rfl

theorem fault : ReadOnly (Host.fault : Host α) := fun _ => rfl

end ReadOnly

end Host

namespace Collection

open Heap Host

variable {h h' : Heap} {ref b : Handle} {capacity n : Nat} {vs : List Value} {v : Value}

/-! ## Operations that only read -/

theorem readOnly_getField (ref : Handle) (n : Nat) :
    ReadOnly (Host.access (Heap.getField ref n)) := by
  intro h
  cases hv : h.field? ref n with
  | none => exact .of_error (getField_fails hv)
  | some v => exact .of_ok (getField_eq hv) rfl

theorem readOnly_load (p : Pointer) (i : Nat) : ReadOnly (load p i) := by
  unfold load slotOf
  split
  · intro h
    change Settles (Host.access _) h _
    unfold Settles Host.access Heap.load
    cases h.blocks.get? p.block with
    | none => exact rfl
    | some block =>
      dsimp only
      cases block[p.offset + i]? with
      | none => exact rfl
      | some slot => cases slot <;> exact rfl
  · exact .fault

theorem readOnly_sizeField (ref : Handle) (n : Nat) : ReadOnly (sizeField ref n) := by
  refine (readOnly_getField ref n).bind fun v => ?_
  cases v with
  | int k =>
    dsimp only
    split
    · exact .pure _
    · exact .trap _
  | _ => exact .trap _

theorem readOnly_pointerField (ref : Handle) (n : Nat) : ReadOnly (pointerField ref n) := by
  refine (readOnly_getField ref n).bind fun v => ?_
  cases v with
  | pointer p => exact .pure p
  | _ => exact .trap _

theorem readOnly_checkedIndex (index : Value) (n : Nat) : ReadOnly (checkedIndex index n) := by
  cases index with
  | int k =>
    unfold checkedIndex
    dsimp only
    split
    · exact .pure _
    · exact .trap _
  | _ => exact .trap _

theorem readOnly_findSlot (p : Pointer) (v : Value) (i n : Nat) : ReadOnly (findSlot p v i n) := by
  induction n generalizing i with
  | zero => exact .pure _
  | succ n ih =>
    refine (readOnly_load p i).bind fun w => ?_
    split
    · exact .pure _
    · exact ih _

theorem readOnly_argument (args : List Value) (i : Nat) : ReadOnly (argument args i) := by
  unfold argument
  split
  · exact .pure _
  · exact .fault

theorem Array.readOnly_get (ref : Handle) (index : Value) : ReadOnly (get ref index) :=
  (readOnly_sizeField _ _).bind fun _ => (readOnly_checkedIndex _ _).bind fun _ =>
    (readOnly_pointerField _ _).bind fun _ => readOnly_load _ _

theorem Array.readOnly_extent (ref : Handle) : ReadOnly (extent ref) :=
  (readOnly_sizeField _ _).bind fun _ => (readOnly_pointerField _ _).bind fun _ => .pure _

theorem Dictionary.readOnly_extent (ref : Handle) : ReadOnly (extent ref) :=
  (readOnly_sizeField _ _).bind fun _ => (readOnly_pointerField _ _).bind fun _ => .pure _

theorem Dictionary.readOnly_get (ref : Handle) (key : Value) : ReadOnly (get ref key) := by
  refine (readOnly_extent ref).bind fun r => (readOnly_findSlot _ _ _ _).bind fun found => ?_
  cases found with
  | some slot => exact (readOnly_pointerField _ _).bind fun _ => readOnly_load _ _
  | none => exact .pure _

theorem readOnly_contains {extent : Host (Pointer × Nat)} (he : ReadOnly extent)
    (args : List Value) : ReadOnly (contains extent args) :=
  he.bind fun _ => (readOnly_argument _ _).bind fun _ => (readOnly_findSlot _ _ _ _).bind fun _ =>
    .pure _

theorem readOnly_expect (receiver : Value) : ReadOnly (expect receiver) := by
  cases receiver with
  | object ref =>
    have hobject : ReadOnly (Host.access (Heap.object ref)) := by
      intro h
      unfold Settles Host.access Heap.object
      cases h.objects.get? ref <;> exact rfl
    refine hobject.bind fun o => ?_
    split
    · exact .pure _
    · exact .trap _
  | _ => exact .trap _

/-! ## Indices -/

def natural? : Value → Option Nat
  | .int n => if 0 ≤ n.toInt then some n.toInt.toNat else none
  | _ => none

theorem checkedIndex_cases (index : Value) (n : Nat) (h : Heap) :
    (∃ i, natural? index = some i ∧ i < n ∧ checkedIndex index n h = .ok i h) ∨
      (∀ i, natural? index = some i → n ≤ i) ∧
        ∃ cause, checkedIndex index n h = .error (.trap cause) h := by
  cases index with
  | int k =>
    by_cases hk : 0 ≤ k.toInt ∧ k.toInt.toNat < n
    · exact .inl ⟨_, if_pos hk.1, hk.2, by simp only [checkedIndex, hk, and_self, if_true]; rfl⟩
    · refine .inr ⟨fun i hi => ?_, _, by simp only [checkedIndex, hk, if_false]; rfl⟩
      obtain ⟨hpos, rfl⟩ := Option.ite_none_right_eq_some.mp hi |>.imp_right Option.some.inj
      exact Nat.le_of_not_lt fun hlt => hk ⟨hpos, hlt⟩
  | _ => exact .inr ⟨by simp [natural?], _, rfl⟩

/-! ## Arrays -/

structure Assigns (ref : Handle) (fields : List (Nat × Value)) (h h' : Heap) : Prop where
  run : ∀ {α : Type} (next : Host α),
    fields.foldr (fun f next => setField ref f.1 f.2 >>= fun _ => next) next h = next h'
  field? : ∀ n, h'.field? ref n = (fields.reverse.lookup n).or (h.field? ref n)
  blocks : h'.blocks = h.blocks
  moves : ∀ own, Moves ref own own h h'

theorem Assigns.holds {fields : List (Nat × Value)} (ha : Assigns ref fields h h')
    (hh : h.Holds b capacity vs) : h'.Holds b capacity vs := hh.of_get? (by rw [ha.blocks])

theorem exists_assigns {w : Nat} (hs : h.Sound) (hw : h.width? ref = some w)
    (fields : List (Nat × Value)) (hn : ∀ f ∈ fields, f.1 < w) :
    ∃ h', Assigns ref fields h h' := by
  induction fields generalizing h with
  | nil => exact ⟨h, fun _ => rfl, fun _ => rfl, rfl, .refl hs⟩
  | cons f fields ih =>
    obtain ⟨hf, hn⟩ := List.forall_mem_cons.mp hn
    have hm : ∀ own, Moves ref own own h _ := fun own => moves_assigned hs own f.1 f.2
    obtain ⟨h', hrun, hfield, hblocks, hmoves⟩ :=
      ih (hm []).sound ((width?_assigned h ref f.1 f.2 ref).trans hw) hn
    refine ⟨h', fun next => (bind_of_ok (setField_eq hw hf f.2)).trans (hrun next), fun n => ?_,
      hblocks, fun own => (hm own).trans (hmoves own)⟩
    rw [hfield, List.reverse_cons, List.lookup_append, Option.or_assoc]
    congr 1
    by_cases hne : n = f.1
    · rw [hne, field?_assigned_self hw hf, List.lookup_cons_self]
      rfl
    · rw [field?_assigned_of_ne hne, List.lookup_cons, beq_false_of_ne hne]
      rfl

theorem width?_of_field? {u : Value} (hu : h.field? ref n = some u) :
    ∃ w, h.width? ref = some w ∧ n < w := by
  obtain ⟨o, ho, hu⟩ := Option.bind_eq_some_iff.mp hu
  exact ⟨o.fields.size, by rw [width?, ho, Option.map_some],
    (Array.getElem?_eq_some_iff.mp (Option.join_eq_some_iff.mp hu)).1⟩

/-- A full collection grows unless it has as many slots as a block may have. -/
theorem grownCapacity_spec {limit : Nat} (hroom : minCapacity ≤ capacity) (hlt : capacity < 2 ^ 63)
    (hle : capacity ≤ limit) : capacity < grownCapacity limit capacity ∧
      (grownCapacity limit capacity ≤ limit ↔ capacity ≠ limit) := by
  unfold grownCapacity
  unfold minCapacity at hroom ⊢
  simp only [UInt64.size]
  split <;> omega

/-- An array with its elements in the first slots of a block. -/
structure ArrayAt (h : Heap) (ref b : Handle) (capacity : Nat) (vs : List Value) : Prop where
  storage_eq : h.field? ref Array.storageField = some (.pointer ⟨b, 0⟩)
  count_eq : h.field? ref Array.countField = some (sizeValue vs.length)
  capacity_eq : h.field? ref Array.capacityField = some (sizeValue capacity)
  holds : h.Holds b capacity vs
  room : minCapacity ≤ capacity
  limit : capacity ≤ h.maxBlockSlots

namespace ArrayAt

variable (ha : ArrayAt h ref b capacity vs)
include ha

theorem count_lt (hl : h.maxBlockSlots < UInt64.size) : vs.length < UInt64.size :=
  Nat.lt_of_le_of_lt (Nat.le_trans ha.holds.length_le ha.limit) hl

theorem frame (hf : ∀ n, h'.field? ref n = h.field? ref n)
    (hb : h'.blocks.get? b = h.blocks.get? b) (hlimit : h'.maxBlockSlots = h.maxBlockSlots) :
    ArrayAt h' ref b capacity vs where
  storage_eq := (hf _).trans ha.storage_eq
  count_eq := (hf _).trans ha.count_eq
  capacity_eq := (hf _).trans ha.capacity_eq
  holds := ha.holds.of_get? hb
  room := ha.room
  limit := hlimit ▸ ha.limit

theorem setCount (hr : Rewrites b h h') {ws : List Value} (hh : h'.Holds b capacity ws) :
    ∃ h'', setField ref Array.countField (sizeValue ws.length) h' = .ok () h'' ∧
      ArrayAt h'' ref b capacity ws ∧ Moves ref [b] [b] h h'' := by
  have hmoves := (hr.moves (List.mem_singleton_self b) ref)
  obtain ⟨w, hw, hn⟩ := width?_of_field? ((hr.field? ref _).trans ha.count_eq)
  obtain ⟨h'', hset⟩ := exists_assigns hr.sound hw [(Array.countField, sizeValue ws.length)]
    (by simpa using hn)
  have hmoves' := hmoves.trans (hset.moves [b])
  have hold := fun n => (hset.field? n).trans (congrArg _ (hr.field? ref n))
  exact ⟨h'', (congrFun bind_pure_unit.symm h').trans (hset.run (pure ())),
    ⟨(hold _).trans ha.storage_eq, hset.field? _, (hold _).trans ha.capacity_eq, hset.holds hh,
      ha.room, hmoves'.limit ▸ ha.limit⟩, hmoves'⟩

end ArrayAt

namespace Array

section Changes

variable (hs : h.Sound) (hl : h.maxBlockSlots < UInt64.size) (ha : ArrayAt h ref b capacity vs)
include hs hl ha

theorem ensureRoom_eq (hroom : h.blocks.size < 2 ^ 32) (hlt : capacity < 2 ^ 63)
    (hne : vs.length ≠ h.maxBlockSlots) :
    ∃ b' capacity' h', ensureRoom ref ⟨b, 0⟩ vs.length capacity h = .ok ⟨b', 0⟩ h' ∧
      ArrayAt h' ref b' capacity' vs ∧ vs.length < capacity' ∧ Moves ref [b] [b'] h h' := by
  have hle := ha.holds.length_le
  have hmin := ha.room
  have hlimit := ha.limit
  unfold ensureRoom
  split
  case isFalse hfull => exact ⟨b, capacity, h, rfl, ha, by omega, .refl hs _⟩
  rename_i hfull
  obtain ⟨hgrown, hfits⟩ := grownCapacity_spec hmin hlt hlimit
  have hfits := hfits.mpr (hfull ▸ hne)
  generalize hg : grownCapacity h.maxBlockSlots capacity = grown at hgrown hfits
  obtain ⟨b', h₁, hre, hobjects, -, hheld, -, hmoves⟩ :=
    reallocate_eq hs hroom hl ha.holds hlimit (by omega) hfits
  have hmoves := hmoves ref [] []
  have hfield : ∀ n, h₁.field? ref n = h.field? ref n := fun n => by
    rw [Heap.field?, hobjects, ← Heap.field?]
  obtain ⟨_, hwidth, hn⟩ := width?_of_field? ((hfield _).trans ha.capacity_eq)
  obtain ⟨h₂, hset⟩ := exists_assigns hmoves.sound hwidth
    [(storageField, .pointer ⟨b', 0⟩), (capacityField, sizeValue grown)]
    (by simp [hn, Nat.zero_lt_of_lt hn, storageField])
  have hmoves := hmoves.trans (hset.moves [b'])
  refine ⟨b', grown, h₂, ?_, ⟨hset.field? _, ?_, hset.field? _, hset.holds hheld, by omega,
    hmoves.limit ▸ hfits⟩, by omega, hmoves⟩
  · rw [bind_of_ok (get_eq_ok h), hg, bind_of_ok hre]
    exact hset.run _
  · exact (hset.field? _).trans ((hfield _).trans ha.count_eq)

omit hs hl in
theorem ensureRoom_fails (hlt : capacity < 2 ^ 63) (hfull : vs.length = h.maxBlockSlots) :
    ∃ n, ensureRoom ref ⟨b, 0⟩ vs.length capacity h =
      .error (.trap (.allocationTooLarge n h.maxBlockSlots)) h := by
  have hle := ha.holds.length_le
  have hlimit := ha.limit
  obtain ⟨-, hfits⟩ := grownCapacity_spec ha.room hlt hlimit
  rw [ensureRoom, if_pos (by omega), bind_of_ok (get_eq_ok h)]
  exact ⟨_, bind_of_error (reallocate_fails (fun hfit => hfits.mp hfit (by omega)) _ _)⟩

theorem append_eq (hroom : h.blocks.size < 2 ^ 32) (hlt : capacity < 2 ^ 63)
    (hne : vs.length ≠ h.maxBlockSlots) (v : Value) :
    ∃ b' capacity' h', append ref v h = .ok () h' ∧ ArrayAt h' ref b' capacity' (vs ++ [v]) ∧
      Moves ref [b] [b'] h h' := by
  have hle := ha.holds.length_le
  obtain ⟨b', capacity', h₁, hensure, ha₁, hlen, hmoves⟩ := ensureRoom_eq hs hl ha hroom hlt hne
  have hc : capacity' ≤ UInt64.size := by
    have := ha₁.limit
    have := hmoves.limit
    omega
  have hstored := rewrites_stored hmoves.sound b' vs.length v
  obtain ⟨h₂, hset, ha₂, hmoves₂⟩ := ha₁.setCount hstored (ha₁.holds.push hlen v)
  rw [List.length_append, List.length_singleton] at hset
  refine ⟨b', capacity', h₂, ?_, ha₂, hmoves.trans hmoves₂⟩
  rw [append, bind_of_ok (sizeField_eq ha.count_eq (by omega)),
    bind_of_ok (sizeField_eq ha.capacity_eq hlt), bind_of_ok (pointerField_eq ha.storage_eq),
    bind_of_ok hensure, bind_of_ok (store_eq ha₁.holds hc hlen v), hset]

omit hs hl in
theorem append_fails (hlt : capacity < 2 ^ 63) (hfull : vs.length = h.maxBlockSlots) (v : Value) :
    ∃ n, append ref v h = .error (.trap (.allocationTooLarge n h.maxBlockSlots)) h := by
  have hle := ha.holds.length_le
  obtain ⟨n, hn⟩ := ensureRoom_fails ha hlt hfull
  refine ⟨n, ?_⟩
  rw [append, bind_of_ok (sizeField_eq ha.count_eq (by omega)),
    bind_of_ok (sizeField_eq ha.capacity_eq hlt), bind_of_ok (pointerField_eq ha.storage_eq),
    bind_of_error hn]

theorem append_settles (hroom : h.blocks.size < 2 ^ 32) (v : Value) :
    Settles (append ref v) h fun _ h' => ∃ b' capacity',
      ArrayAt h' ref b' capacity' (vs ++ [v]) ∧ Moves ref [b] [b'] h h' := by
  rcases sizeField_cases ha.count_eq (ha.count_lt hl) with ⟨-, hcount⟩ | hfails
  case inr => exact .stop hfails
  rcases sizeField_cases ha.capacity_eq (by have := ha.limit; omega) with ⟨hlt, -⟩ | hfails
  case inr => exact .read hcount (.stop hfails)
  by_cases hfull : vs.length = h.maxBlockSlots
  · obtain ⟨n, hn⟩ := append_fails ha hlt hfull v
    exact .of_error ⟨_, hn⟩
  · obtain ⟨b', capacity', h', hok, ha', hmoves⟩ := append_eq hs hl ha hroom hlt hfull v
    exact .of_ok hok ⟨b', capacity', ha', hmoves⟩

omit hs in
/-- The slot that an index names, if it is that of an element. -/
theorem slot_settles {β : Type} {rest : Nat → Nat → Host β} {R : β → Heap → Prop} (index : Value)
    (hrest : ∀ i < vs.length, Settles (rest vs.length i) h R) :
    Settles (do
      let count ← sizeField ref countField
      rest count (← checkedIndex index count)) h R := by
  rcases sizeField_cases ha.count_eq (ha.count_lt hl) with ⟨-, hcount⟩ | hfails
  case inr => exact .stop hfails
  refine .read hcount ?_
  rcases checkedIndex_cases index vs.length h with ⟨i, -, hi, hok⟩ | ⟨-, hfails⟩
  · exact .read hok (hrest i hi)
  · exact .stop ⟨_, hfails.choose_spec⟩

theorem replace_eq {i : Nat} (hi : i < vs.length) (v : Value) :
    ∃ h', (do store (← pointerField ref storageField) i v : Host Unit) h = .ok () h' ∧
      ArrayAt h' ref b capacity (vs.set i v) ∧ Moves ref [b] [b] h h' := by
  have hlimit := ha.limit
  have hle := ha.holds.length_le
  have hstored := rewrites_stored hs b i v
  refine ⟨_, (bind_of_ok (pointerField_eq ha.storage_eq)).trans
    (store_eq ha.holds (by omega) (by omega) v), ?_, hstored.moves (List.mem_singleton_self b) ref⟩
  exact ⟨(hstored.field? _ _).trans ha.storage_eq,
    by rw [hstored.field?, ha.count_eq, List.length_set],
    (hstored.field? _ _).trans ha.capacity_eq, ha.holds.set i v, ha.room, ha.limit⟩

theorem set_settles (index v : Value) : Settles (set ref index v) h fun _ h' => ∃ vs',
    ArrayAt h' ref b capacity vs' ∧ Moves ref [b] [b] h h' := by
  refine slot_settles hl ha index fun i hi => ?_
  obtain ⟨h', hok, ha', hmoves⟩ := replace_eq hs hl ha hi v
  exact .of_ok hok ⟨_, ha', hmoves⟩

theorem erase_eq {i : Nat} (hi : i < vs.length) : ∃ h', (do
      let storage ← pointerField ref storageField
      let removed ← load storage i
      shiftDown storage (i + 1) (vs.length - (i + 1))
      setField ref countField (sizeValue (vs.length - 1))
      pure removed : Host Value) h = .ok vs[i] h' ∧
    ArrayAt h' ref b capacity (vs.eraseIdx i) ∧ Moves ref [b] [b] h h' := by
  have hlimit := ha.limit
  have hle := ha.holds.length_le
  have hsplit : vs.take i ++ vs[i] :: vs.drop (i + 1) = vs := by
    rw [← List.drop_eq_getElem_cons hi, List.take_append_drop]
  have hleft : (vs.take i).length = i := List.length_take_of_le (Nat.le_of_lt hi)
  have hright : (vs.drop (i + 1)).length = vs.length - (i + 1) := List.length_drop
  have hload : load ⟨b, 0⟩ i h = .ok vs[i] h :=
    load_eq ha.holds (by omega) (List.getElem?_eq_getElem hi)
  obtain ⟨h₁, w, hshift, hr, hheld⟩ :=
    shiftDown_eq hs (show h.Holds b capacity (vs.take i ++ vs[i] :: vs.drop (i + 1)) from
      hsplit.symm ▸ ha.holds) (by omega)
  rw [hleft, hright] at hshift
  have hkept := hheld.take (vs.take i ++ vs.drop (i + 1)).length
  rw [List.take_left, ← List.eraseIdx_eq_take_drop_succ] at hkept
  obtain ⟨h₂, hset, ha₂, hmoves⟩ := ha.setCount hr hkept
  rw [List.length_eraseIdx_of_lt hi] at hset
  refine ⟨h₂, ?_, ha₂, hmoves⟩
  rw [bind_of_ok (pointerField_eq ha.storage_eq), bind_of_ok hload, bind_of_ok hshift,
    bind_of_ok hset]
  rfl

theorem remove_settles (index : Value) : Settles (remove ref index) h fun _ h' => ∃ vs',
    ArrayAt h' ref b capacity vs' ∧ Moves ref [b] [b] h h' := by
  refine slot_settles hl ha index fun i hi => ?_
  obtain ⟨h', hok, ha', hmoves⟩ := erase_eq hs hl ha hi
  exact .of_ok hok ⟨_, ha', hmoves⟩

end Changes

variable {type : StructType}

theorem create_eq (hs : h.Sound) (hroom : h.blocks.size < 2 ^ 32)
    (hobjects : h.objects.size < 2 ^ 32)
    (hl : h.maxBlockSlots < UInt64.size) (hw : 3 ≤ type.propertyCount) (vs : List Value)
    (hfits : max vs.length minCapacity ≤ h.maxBlockSlots) :
    ∃ ref b h', create type vs h = .ok (.object ref) h' ∧ h.objects.get? ref = none ∧
      ArrayAt h' ref b (max vs.length minCapacity) vs ∧ Moves ref [] [b] h h' ∧
      h'.type? ref = some type := by
  unfold create
  generalize hc : max vs.length minCapacity = capacity at hfits ⊢
  obtain ⟨b, h₁, hnew, ha⟩ := exists_newBlock hs hroom hfits
  obtain ⟨h₂, hall, hr, hheld⟩ := storeAll_eq ha.sound ha.empty (by omega)
    (show ([] : List Value).length + vs.length ≤ capacity by simp; omega)
  have hall : storeAll ⟨b, 0⟩ 0 vs h₁ = .ok () h₂ := hall
  obtain ⟨ref, h₃, hmake, hi⟩ :=
    exists_newObject hr.sound (by rwa [hr.objects, ha.objects]) type
  have hmoves := ((ha.moves ref [] []).trans (hr.moves (List.mem_singleton_self b) ref)).trans
    (hi.moves [b])
  have hfresh : h.objects.get? ref = none := by rw [← ha.objects, ← hr.objects, hi.fresh]
  have hheld := hheld.of_get? (congrArg (Arena.get? · b) hi.blocks)
  obtain ⟨h₄, hset⟩ := exists_assigns hmoves.sound hi.width_eq [(storageField, .pointer ⟨b, 0⟩),
    (countField, sizeValue vs.length), (capacityField, sizeValue capacity)] (by
      simp [storageField, countField, capacityField]
      omega)
  have hmoves := hmoves.trans (hset.moves [b])
  refine ⟨ref, b, h₄, ?_, hfresh, ⟨hset.field? _, hset.field? _, hset.field? _, hset.holds hheld,
    by omega, hmoves.limit ▸ hfits⟩, hmoves, (hset.moves []).types ref type hi.type_eq⟩
  rw [bind_of_ok hnew, bind_of_ok hall, bind_of_ok hmake]
  exact hset.run _

theorem create_fails {vs : List Value} (hn : ¬ max vs.length minCapacity ≤ h.maxBlockSlots) :
    create type vs h =
      .error (.trap (.allocationTooLarge (max vs.length minCapacity) h.maxBlockSlots)) h :=
  bind_of_error (newBlock_fails hn)

theorem create_settles (hs : h.Sound) (hroom : h.blocks.size < 2 ^ 32)
    (hobjects : h.objects.size < 2 ^ 32) (hl : h.maxBlockSlots < UInt64.size)
    (hw : 3 ≤ type.propertyCount) (vs : List Value) :
    Settles (create type vs) h fun r h' => ∃ ref b capacity, r = .object ref ∧
      h.objects.get? ref = none ∧ ArrayAt h' ref b capacity vs ∧ Moves ref [] [b] h h' ∧
      h'.type? ref = some type := by
  by_cases hfits : max vs.length minCapacity ≤ h.maxBlockSlots
  · obtain ⟨ref, b, h', hok, hnew⟩ := create_eq hs hroom hobjects hl hw vs hfits
    exact .of_ok hok ⟨ref, b, _, rfl, hnew⟩
  · exact .of_error ⟨_, create_fails hfits⟩

end Array

/-! ## Dictionaries -/

/-- A dictionary with its keys and values in the first slots of two blocks. -/
structure DictionaryAt (h : Heap) (ref k w : Handle) (capacity : Nat) (keys values : List Value) :
    Prop where
  keys_eq : h.field? ref Dictionary.keysField = some (.pointer ⟨k, 0⟩)
  values_eq : h.field? ref Dictionary.valuesField = some (.pointer ⟨w, 0⟩)
  count_eq : h.field? ref Dictionary.countField = some (sizeValue keys.length)
  capacity_eq : h.field? ref Dictionary.capacityField = some (sizeValue capacity)
  holdsKeys : h.Holds k capacity keys
  holdsValues : h.Holds w capacity values
  length_eq : values.length = keys.length
  unequal : Unequal keys
  ne : k ≠ w
  room : minCapacity ≤ capacity
  limit : capacity ≤ h.maxBlockSlots

variable {k w : Handle} {keys values : List Value}

namespace DictionaryAt

variable (hd : DictionaryAt h ref k w capacity keys values)
include hd

theorem count_lt (hl : h.maxBlockSlots < UInt64.size) : keys.length < UInt64.size :=
  Nat.lt_of_le_of_lt (Nat.le_trans hd.holdsKeys.length_le hd.limit) hl

theorem capacity_le (hl : h.maxBlockSlots < UInt64.size) : capacity ≤ UInt64.size :=
  Nat.le_of_lt (Nat.lt_of_le_of_lt hd.limit hl)

theorem find (hl : h.maxBlockSlots < UInt64.size) (key : Value) :
    findSlot ⟨k, 0⟩ key 0 keys.length h = .ok (keys.findIdx? (· == key)) h :=
  findSlot_start hd.holdsKeys (hd.capacity_le hl)

theorem frame (hf : ∀ n, h'.field? ref n = h.field? ref n)
    (hk : h'.blocks.get? k = h.blocks.get? k) (hw : h'.blocks.get? w = h.blocks.get? w)
    (hlimit : h'.maxBlockSlots = h.maxBlockSlots) :
    DictionaryAt h' ref k w capacity keys values where
  keys_eq := (hf _).trans hd.keys_eq
  values_eq := (hf _).trans hd.values_eq
  count_eq := (hf _).trans hd.count_eq
  capacity_eq := (hf _).trans hd.capacity_eq
  holdsKeys := hd.holdsKeys.of_get? hk
  holdsValues := hd.holdsValues.of_get? hw
  length_eq := hd.length_eq
  unequal := hd.unequal
  ne := hd.ne
  room := hd.room
  limit := hlimit ▸ hd.limit

theorem setCount (ho : h'.objects = h.objects) (hm : Moves ref [k, w] [k, w] h h')
    {keys' values' : List Value} (hk : h'.Holds k capacity keys') (hw : h'.Holds w capacity values')
    (hlen : values'.length = keys'.length) (hu : Unequal keys') :
    ∃ h'', setField ref Dictionary.countField (sizeValue keys'.length) h' = .ok () h'' ∧
      DictionaryAt h'' ref k w capacity keys' values' ∧ Moves ref [k, w] [k, w] h h'' := by
  have hfield : ∀ n, h'.field? ref n = h.field? ref n := fun n => by
    rw [Heap.field?, ho, ← Heap.field?]
  obtain ⟨_, hwidth, hn⟩ := width?_of_field? ((hfield _).trans hd.count_eq)
  obtain ⟨h'', hset⟩ := exists_assigns hm.sound hwidth
    [(Dictionary.countField, sizeValue keys'.length)] (by simpa using hn)
  have hm := hm.trans (hset.moves _)
  have hold := fun n => (hset.field? n).trans (congrArg _ (hfield n))
  exact ⟨h'', (congrFun bind_pure_unit.symm h').trans (hset.run (pure ())),
    ⟨(hold _).trans hd.keys_eq, (hold _).trans hd.values_eq, hset.field? _,
      (hold _).trans hd.capacity_eq, hset.holds hk, hset.holds hw, hlen, hu, hd.ne, hd.room,
      hm.limit ▸ hd.limit⟩, hm⟩

end DictionaryAt

namespace Dictionary

theorem extent_fails (hf : ∃ e, sizeField ref countField h = .error e h) :
    ∃ e, extent ref h = .error e h := by
  obtain ⟨e, he⟩ := hf
  exact ⟨e, bind_of_error he⟩

section Changes

variable (hs : h.Sound) (hl : h.maxBlockSlots < UInt64.size)
  (hd : DictionaryAt h ref k w capacity keys values)
include hs hl hd

variable {key : Value}

theorem add_eq (hroom : keys.length < capacity) (hnew : keys.findIdx? (· == key) = none)
    (v : Value) :
    ∃ h', (do
        store ⟨k, 0⟩ keys.length key
        store ⟨w, 0⟩ keys.length v
        setField ref countField (sizeValue (keys.length + 1)) : Host Unit) h = .ok () h' ∧
      DictionaryAt h' ref k w capacity (keys ++ [key]) (values ++ [v]) ∧
      Moves ref [k, w] [k, w] h h' := by
  have hc := hd.capacity_le hl
  have hkey := rewrites_stored hs k keys.length key
  have hvalue := rewrites_stored hkey.sound w keys.length v
  have hvalues := hkey.holds (Ne.symm hd.ne) hd.holdsValues
  have hpushed := hvalues.push (by rw [hd.length_eq]; exact hroom) v
  rw [hd.length_eq] at hpushed
  obtain ⟨h', hset, hd', hmoves⟩ := hd.setCount (hvalue.objects.trans hkey.objects)
    ((hkey.moves (by simp) ref).trans (hvalue.moves (by simp) ref))
    (hvalue.holds hd.ne (hd.holdsKeys.push hroom key)) hpushed (by simp [hd.length_eq])
    (unequal_push hd.unequal hnew)
  rw [List.length_append, List.length_singleton] at hset
  exact ⟨h', (bind_of_ok (store_eq hd.holdsKeys hc hroom key)).trans
    ((bind_of_ok (store_eq hvalues hc hroom v)).trans hset), hd', hmoves⟩

theorem replace_eq {slot : Nat} (hslot : slot < keys.length) (v : Value) :
    ∃ h', store ⟨w, 0⟩ slot v h = .ok () h' ∧
      DictionaryAt h' ref k w capacity keys (values.set slot v) ∧ Moves ref [k, w] [k, w] h h' := by
  have hle := hd.holdsKeys.length_le
  have hr := rewrites_stored hs w slot v
  refine ⟨_, store_eq hd.holdsValues (hd.capacity_le hl) (by omega) v, ?_, hr.moves (by simp) ref⟩
  exact ⟨(hr.field? _ _).trans hd.keys_eq, (hr.field? _ _).trans hd.values_eq,
    (hr.field? _ _).trans hd.count_eq, (hr.field? _ _).trans hd.capacity_eq,
    hr.holds hd.ne hd.holdsKeys, hd.holdsValues.set slot v, by rw [List.length_set, hd.length_eq],
    hd.unequal, hd.ne, hd.room, hd.limit⟩

theorem ensureRoom_eq (hroom : keys.length = capacity → h.blocks.size < 2 ^ 32)
    (hlt : capacity < 2 ^ 63) (hne : keys.length ≠ h.maxBlockSlots) :
    ∃ k' w' capacity' h',
      ensureRoom ref ⟨k, 0⟩ ⟨w, 0⟩ keys.length capacity h = .ok (⟨k', 0⟩, ⟨w', 0⟩) h' ∧
      DictionaryAt h' ref k' w' capacity' keys values ∧ keys.length < capacity' ∧
      Moves ref [k, w] [k', w'] h h' ∧
      (keys.length < capacity → k' = k ∧ w' = w ∧ capacity' = capacity) := by
  have hle := hd.holdsKeys.length_le
  have hmin := hd.room
  have hlimit := hd.limit
  unfold ensureRoom
  split
  case isFalse hfull =>
    exact ⟨k, w, capacity, h, rfl, hd, by omega, .refl hs _, fun _ => ⟨rfl, rfl, rfl⟩⟩
  rename_i hfull
  obtain ⟨hgrown, hfits⟩ := grownCapacity_spec hmin hlt hlimit
  have hfits := hfits.mpr (hfull ▸ hne)
  generalize hg : grownCapacity h.maxBlockSlots capacity = grown at hgrown hfits
  obtain ⟨k', h₁, hkeys, ho, hfresh, hheld, hkept, hmoves⟩ :=
    reallocate_eq hs (hroom hfull) hl hd.holdsKeys hlimit (by omega) hfits
  have hmoves := hmoves ref [] [w]
  have hsize : h₁.blocks.size = h.blocks.size := Nat.add_right_cancel hmoves.size
  have hvalues := hkept w capacity values (Ne.symm hd.ne) hd.holdsValues
  obtain ⟨w', h₂, hvals, ho', hfresh', hheld', hkept', hmoves'⟩ :=
    reallocate_eq hmoves.sound (hsize ▸ hroom hfull) (by rw [hmoves.limit]; exact hl) hvalues
      (by rw [hmoves.limit]; exact hlimit) (show values.length ≤ grown by
        rw [hd.length_eq]; omega) (by rw [hmoves.limit]; exact hfits)
  have hmoves := hmoves.trans (hmoves' ref [k'] [])
  rw [hd.length_eq] at hvals
  have hk'w : k' ≠ w := by
    rintro rfl
    obtain ⟨block, hb, -⟩ := hd.holdsValues
    rw [hfresh] at hb
    cases hb
  have hkw : k' ≠ w' := by
    rintro rfl
    obtain ⟨block, hb, -⟩ := hheld
    rw [hfresh'] at hb
    cases hb
  have hfield : ∀ n, h₂.field? ref n = h.field? ref n := fun n => by
    rw [Heap.field?, ho', ho, ← Heap.field?]
  obtain ⟨_, hwidth, hn⟩ := width?_of_field? ((hfield _).trans hd.capacity_eq)
  obtain ⟨h₃, hset⟩ := exists_assigns hmoves.sound hwidth [(keysField, .pointer ⟨k', 0⟩),
    (valuesField, .pointer ⟨w', 0⟩), (capacityField, sizeValue grown)] (by
      simp [keysField, valuesField, capacityField] at hn ⊢
      omega)
  have hmoves := hmoves.trans (hset.moves _)
  refine ⟨k', w', grown, h₃, ?_, ⟨hset.field? _, hset.field? _, ?_, hset.field? _,
    hset.holds (hkept' _ _ _ hk'w hheld), hset.holds hheld', hd.length_eq, hd.unequal, hkw,
    by omega,
    hmoves.limit ▸ hfits⟩, by omega, hmoves, fun hlt => absurd hfull (Nat.ne_of_lt hlt)⟩
  · rw [bind_of_ok (get_eq_ok h), hg, bind_of_ok hkeys, bind_of_ok hvals]
    exact hset.run _
  · exact (hset.field? _).trans ((hfield _).trans hd.count_eq)

omit hs hl in
theorem ensureRoom_fails (hlt : capacity < 2 ^ 63) (hfull : keys.length = h.maxBlockSlots) :
    ∃ n, ensureRoom ref ⟨k, 0⟩ ⟨w, 0⟩ keys.length capacity h =
      .error (.trap (.allocationTooLarge n h.maxBlockSlots)) h := by
  have hle := hd.holdsKeys.length_le
  have hlimit := hd.limit
  obtain ⟨-, hfits⟩ := grownCapacity_spec hd.room hlt hlimit
  rw [ensureRoom, if_pos (by omega), bind_of_ok (get_eq_ok h)]
  exact ⟨_, bind_of_error (reallocate_fails (fun hfit => hfits.mp hfit (by omega)) _ _)⟩

omit hs in
theorem set_start (hlt : capacity < 2 ^ 63) (key v : Value) : set ref key v h =
    (match keys.findIdx? (· == key) with
      | some slot => store ⟨w, 0⟩ slot v h
      | none => (do
        let (keys', values') ← ensureRoom ref ⟨k, 0⟩ ⟨w, 0⟩ keys.length capacity
        store keys' keys.length key
        store values' keys.length v
        setField ref countField (sizeValue (keys.length + 1)) : Host Unit) h) := by
  have hle := hd.holdsKeys.length_le
  rw [set, bind_of_ok (sizeField_eq hd.count_eq (by omega)),
    bind_of_ok (pointerField_eq hd.keys_eq),
    bind_of_ok (pointerField_eq hd.values_eq), bind_of_ok (hd.find hl key)]
  cases keys.findIdx? (· == key) with
  | some slot => rfl
  | none => exact bind_of_ok (sizeField_eq hd.capacity_eq hlt)

theorem set_eq (hroom : keys.length = capacity → h.blocks.size < 2 ^ 32) (hlt : capacity < 2 ^ 63)
    (key v : Value)
    (hne : keys.findIdx? (· == key) = none → keys.length ≠ h.maxBlockSlots) :
    ∃ k' w' capacity' h', set ref key v h = .ok () h' ∧
      DictionaryAt h' ref k' w' capacity' (put keys values key v).1 (put keys values key v).2 ∧
      Moves ref [k, w] [k', w'] h h' ∧
      (keys.length < capacity → k' = k ∧ w' = w ∧ capacity' = capacity) := by
  rw [set_start hl hd hlt, put]
  cases hfound : keys.findIdx? (· == key) with
  | some slot =>
    obtain ⟨h', hstore, hd', hmoves⟩ := replace_eq hs hl hd (lt_of_findIdx? hfound) v
    exact ⟨k, w, capacity, h', hstore, hd', hmoves, fun _ => ⟨rfl, rfl, rfl⟩⟩
  | none =>
    obtain ⟨k', w', capacity', h₁, hensure, hd₁, hlt', hmoves, hsame⟩ :=
      ensureRoom_eq hs hl hd hroom hlt (hne hfound)
    obtain ⟨h₂, hadd, hd₂, hmoves₂⟩ :=
      add_eq hmoves.sound (by rw [hmoves.limit]; exact hl) hd₁ hlt' hfound v
    exact ⟨k', w', capacity', h₂, (bind_of_ok hensure).trans hadd, hd₂, hmoves.trans hmoves₂, hsame⟩

omit hs in
theorem set_fails (hlt : capacity < 2 ^ 63) (hnone : keys.findIdx? (· == key) = none)
    (hfull : keys.length = h.maxBlockSlots) (v : Value) :
    ∃ n, set ref key v h = .error (.trap (.allocationTooLarge n h.maxBlockSlots)) h := by
  obtain ⟨n, hn⟩ := ensureRoom_fails hd hlt hfull
  rw [set_start hl hd hlt, hnone]
  exact ⟨n, bind_of_error hn⟩

theorem set_settles (hroom : h.blocks.size < 2 ^ 32) (key v : Value) :
    Settles (set ref key v) h fun _ h' =>
      ∃ k' w' capacity' keys' values', DictionaryAt h' ref k' w' capacity' keys' values' ∧
        Moves ref [k, w] [k', w'] h h' := by
  by_cases hlt : capacity < 2 ^ 63
  case neg =>
    rcases sizeField_cases hd.count_eq (hd.count_lt hl) with ⟨-, hcount⟩ | hfails
    case inr => exact .stop hfails
    refine .read hcount (.read (pointerField_eq hd.keys_eq) (.read (pointerField_eq hd.values_eq)
      (.read (hd.find hl key) ?_)))
    cases hfound : keys.findIdx? (· == key) with
    | some slot =>
      obtain ⟨h', hstore, hd', hmoves⟩ := replace_eq hs hl hd (lt_of_findIdx? hfound) v
      exact .of_ok hstore ⟨k, w, capacity, keys, _, hd', hmoves⟩
    | none =>
      rcases sizeField_cases hd.capacity_eq (by have := hd.limit; omega) with ⟨hlt', -⟩ | hfails
      · exact absurd hlt' hlt
      · exact .stop hfails
  by_cases hfull : keys.findIdx? (· == key) = none ∧ keys.length = h.maxBlockSlots
  · obtain ⟨n, hn⟩ := set_fails hl hd hlt hfull.1 hfull.2 v
    exact .of_error ⟨_, hn⟩
  · obtain ⟨k', w', capacity', h', hok, hd', hmoves, -⟩ :=
      set_eq hs hl hd (fun _ => hroom) hlt key v fun hnone he => hfull ⟨hnone, he⟩
    exact .of_ok hok ⟨k', w', capacity', _, _, hd', hmoves⟩

theorem setAll_eq (hlt : capacity < 2 ^ 63) {entries : List (Value × Value)}
    (hroom : keys.length + entries.length ≤ capacity) :
    ∃ h', setAll ref entries h = .ok () h' ∧ DictionaryAt h' ref k w capacity
      (putAll keys values entries).1 (putAll keys values entries).2 ∧
      Moves ref [k, w] [k, w] h h' := by
  have hlimit := hd.limit
  induction entries generalizing h keys values with
  | nil => exact ⟨h, rfl, hd, .refl hs _⟩
  | cons entry entries ih =>
    rw [List.length_cons] at hroom
    obtain ⟨k', w', capacity', h₁, hset, hd₁, hmoves, hsame⟩ :=
      set_eq hs hl hd (fun hfull => by omega) hlt entry.1 entry.2 fun _ => by omega
    obtain ⟨rfl, rfl, rfl⟩ := hsame (by omega)
    have hlen := length_put_le keys values entry.1 entry.2
    obtain ⟨h₂, hall, hd₂, hmoves₂⟩ :=
      ih hmoves.sound (by rw [hmoves.limit]; exact hl) hd₁ (by omega) hd₁.limit
    exact ⟨h₂, (bind_of_ok hset).trans hall, hd₂, hmoves.trans hmoves₂⟩

omit hs hl in
theorem extent_eq (hlt : keys.length < 2 ^ 63) : extent ref h = .ok (⟨k, 0⟩, keys.length) h :=
  (bind_of_ok (sizeField_eq hd.count_eq hlt)).trans (bind_of_ok (pointerField_eq hd.keys_eq))

theorem erase_eq (hlt : keys.length < 2 ^ 63) {slot : Nat}
    (hfound : keys.findIdx? (· == key) = some slot) :
    ∃ h' v, remove ref key h = .ok v h' ∧ values[slot]? = some v ∧
      DictionaryAt h' ref k w capacity (swapRemove slot keys) (swapRemove slot values) ∧
      Moves ref [k, w] [k, w] h h' := by
  have hc := hd.capacity_le hl
  have hle := hd.holdsKeys.length_le
  have hlen := hd.length_eq
  have hslot := lt_of_findIdx? hfound
  have hslot' : slot < values.length := by omega
  obtain ⟨lastKey, hlast⟩ : ∃ x, keys[keys.length - 1]? = some x :=
    ⟨_, List.getElem?_eq_getElem (by omega)⟩
  obtain ⟨lastValue, hlast'⟩ : ∃ x, values[keys.length - 1]? = some x :=
    ⟨_, List.getElem?_eq_getElem (by omega)⟩
  have hdrop : ∀ {h₁ : Heap} {keys₁ values₁ : List Value}, h₁.objects = h.objects →
      Moves ref [k, w] [k, w] h h₁ → h₁.Holds k capacity keys₁ → h₁.Holds w capacity values₁ →
      keys₁.length = keys.length → values₁.length = keys.length → Unequal keys₁.dropLast →
      ∃ h₂, setField ref countField (sizeValue (keys.length - 1)) h₁ = .ok () h₂ ∧
        DictionaryAt h₂ ref k w capacity keys₁.dropLast values₁.dropLast ∧
          Moves ref [k, w] [k, w] h h₂ := by
    intro h₁ keys₁ values₁ ho hm hk hw hlen₁ hlen₂ hu
    have hlen : keys₁.dropLast.length = keys.length - 1 := by rw [List.length_dropLast, hlen₁]
    obtain ⟨h₂, hset, hd₂, hm₂⟩ := hd.setCount ho hm (List.dropLast_eq_take ▸ hk.take _)
      (List.dropLast_eq_take ▸ hw.take _) (by rw [hlen, List.length_dropLast, hlen₂]) hu
    exact ⟨h₂, hlen ▸ hset, hd₂, hm₂⟩
  have hkeys : keys.getLast?.getD .none = lastKey := by
    rw [List.getLast?_eq_getElem?, hlast, Option.getD_some]
  have hvalues : values.getLast?.getD .none = lastValue := by
    rw [List.getLast?_eq_getElem?, hlen, hlast', Option.getD_some]
  rw [remove, bind_of_ok (extent_eq hd hlt)]
  dsimp only
  rw [bind_of_ok (hd.find hl key), hfound]
  dsimp only
  rw [bind_of_ok (pointerField_eq hd.values_eq),
    bind_of_ok (load_eq hd.holdsValues hc (List.getElem?_eq_getElem hslot'))]
  split
  · have hkey := rewrites_stored hs k slot lastKey
    have hheld := hkey.holds (Ne.symm hd.ne) hd.holdsValues
    have hvalue := rewrites_stored hkey.sound w slot lastValue
    obtain ⟨h₂, hset, hd₂, hm₂⟩ := hdrop (hvalue.objects.trans hkey.objects)
      ((hkey.moves (by simp) ref).trans (hvalue.moves (by simp) ref))
      (hvalue.holds hd.ne (hd.holdsKeys.set slot _)) (hheld.set slot _)
      List.length_set (by rw [List.length_set, hlen]) (hkeys ▸ unequal_swapRemove hd.unequal hslot)
    refine ⟨h₂, values[slot], ?_, List.getElem?_eq_getElem hslot', ?_, hm₂⟩
    · rw [bind_of_ok (load_eq hd.holdsKeys hc hlast), bind_of_ok (load_eq hd.holdsValues hc hlast'),
        bind_of_ok (store_eq hd.holdsKeys hc (by omega) _),
        bind_of_ok (store_eq hheld hc (by omega) _), bind_of_ok hset]
      rfl
    · rwa [swapRemove, swapRemove, hkeys, hvalues]
  · rename_i hsame
    obtain rfl : slot = keys.length - 1 := by omega
    obtain ⟨_, rfl⟩ := List.getElem?_eq_some_iff.mp hlast
    obtain ⟨_, rfl⟩ := List.getElem?_eq_some_iff.mp hlast'
    have hsame : swapRemove (keys.length - 1) keys = keys.dropLast := by
      rw [swapRemove, hkeys, List.set_getElem_self]
    have hsame' : swapRemove (keys.length - 1) values = values.dropLast := by
      rw [swapRemove, hvalues, List.set_getElem_self]
    obtain ⟨h₂, hset, hd₂, hm₂⟩ := hdrop rfl (.refl hs _) hd.holdsKeys hd.holdsValues rfl hlen
      (hsame ▸ unequal_swapRemove hd.unequal hslot)
    refine ⟨h₂, _, ?_, List.getElem?_eq_getElem hslot', ?_, hm₂⟩
    · rw [bind_of_ok hset]
      rfl
    · rwa [hsame, hsame']

theorem remove_settles (key : Value) : Settles (remove ref key) h fun _ h' => ∃ keys' values',
    DictionaryAt h' ref k w capacity keys' values' ∧ Moves ref [k, w] [k, w] h h' := by
  rcases sizeField_cases hd.count_eq (hd.count_lt hl) with ⟨hlt, -⟩ | hfails
  case inr => exact .stop (extent_fails hfails)
  cases hfound : keys.findIdx? (· == key) with
  | none =>
    refine .read (extent_eq hd hlt) (.read (hd.find hl key) ?_)
    rw [hfound]
    exact .of_ok rfl ⟨keys, values, hd, .refl hs _⟩
  | some slot =>
    obtain ⟨h', v, hok, -, hd', hm⟩ := erase_eq hs hl hd hlt hfound
    exact .of_ok hok ⟨_, _, hd', hm⟩

end Changes

variable {type : StructType} {entries : List (Value × Value)}

theorem create_eq (hs : h.Sound) (hroom : h.blocks.size + 1 < 2 ^ 32)
    (hobjects : h.objects.size < 2 ^ 32) (hl : h.maxBlockSlots < UInt64.size)
    (hwidth : 4 ≤ type.propertyCount) (hentries : entries.length < 2 ^ 63)
    (hfits : max entries.length minCapacity ≤ h.maxBlockSlots) :
    ∃ ref k w h', create type entries h = .ok (.object ref) h' ∧ h.objects.get? ref = none ∧
      DictionaryAt h' ref k w (max entries.length minCapacity) (putAll [] [] entries).1
        (putAll [] [] entries).2 ∧ Moves ref [] [k, w] h h' ∧ h'.type? ref = some type := by
  unfold create
  have hmin : minCapacity < 2 ^ 63 := by decide
  generalize hc : max entries.length minCapacity = capacity at hfits ⊢
  obtain ⟨k, h₁, hkeys, hk⟩ := exists_newBlock hs (by omega) hfits
  have hsize : h₁.blocks.size = h.blocks.size + 1 := (hk.moves k [] []).size
  obtain ⟨w, h₂, hvalues, hw⟩ :=
    exists_newBlock hk.sound (hsize ▸ hroom) (hk.limit.symm ▸ hfits)
  obtain ⟨ref, h₃, hmake, hi⟩ :=
    exists_newObject hw.sound (by rwa [hw.objects, hk.objects]) type
  have hmoves := ((hk.moves ref [] []).trans (hw.moves ref [k] [])).trans (hi.moves [k, w])
  have hfresh : h.objects.get? ref = none := by rw [← hk.objects, ← hw.objects, hi.fresh]
  have hheldKeys := (hw.kept hk.empty).of_get? (congrArg (Arena.get? · k) hi.blocks)
  have hheldValues := hw.empty.of_get? (congrArg (Arena.get? · w) hi.blocks)
  obtain ⟨h₄, hset⟩ := exists_assigns hmoves.sound hi.width_eq [(keysField, .pointer ⟨k, 0⟩),
    (valuesField, .pointer ⟨w, 0⟩), (countField, sizeValue 0), (capacityField, sizeValue capacity)]
    (by
      simp [keysField, valuesField, countField, capacityField]
      omega)
  have hmoves := hmoves.trans (hset.moves _)
  have hempty : DictionaryAt h₄ ref k w capacity [] [] :=
    ⟨hset.field? _, hset.field? _, hset.field? _, hset.field? _, hset.holds hheldKeys,
      hset.holds hheldValues, rfl, by simp [Unequal], hw.ne hk.empty, by omega,
      hmoves.limit ▸ hfits⟩
  obtain ⟨h₅, hall, hd, hmoves'⟩ := setAll_eq hmoves.sound
    (by rw [hmoves.limit]; exact hl) hempty (by omega)
    (show [].length + entries.length ≤ capacity by
      simp; omega)
  refine ⟨ref, k, w, h₅, ?_, hfresh, hd, hmoves.trans hmoves',
    hmoves'.types ref type ((hset.moves []).types ref type hi.type_eq)⟩
  rw [bind_of_ok hkeys, bind_of_ok hvalues, bind_of_ok hmake]
  exact (hset.run _).trans (bind_of_ok hall)

theorem create_fails (hn : ¬ max entries.length minCapacity ≤ h.maxBlockSlots) :
    create type entries h =
      .error (.trap (.allocationTooLarge (max entries.length minCapacity) h.maxBlockSlots)) h :=
  bind_of_error (newBlock_fails hn)

theorem create_settles (hs : h.Sound) (hroom : h.blocks.size + 1 < 2 ^ 32)
    (hobjects : h.objects.size < 2 ^ 32) (hl : h.maxBlockSlots < UInt64.size)
    (hwidth : 4 ≤ type.propertyCount) (hentries : entries.length < 2 ^ 63) :
    Settles (create type entries) h fun r h' => ∃ ref k w capacity keys values, r = .object ref ∧
      h.objects.get? ref = none ∧ DictionaryAt h' ref k w capacity keys values ∧
        Moves ref [] [k, w] h h' ∧ h'.type? ref = some type := by
  by_cases hfits : max entries.length minCapacity ≤ h.maxBlockSlots
  · obtain ⟨ref, k, w, h', hok, hnew⟩ := create_eq hs hroom hobjects hl hwidth hentries hfits
    exact .of_ok hok ⟨ref, k, w, _, _, _, rfl, hnew⟩
  · exact .of_error ⟨_, create_fails hfits⟩

end Dictionary

end Collection

end StackCode
