import Mathlib.Data.Finmap
import StackCode.Proofs.Storage

/-! # Arenas as finite maps

An arena whose list of free slots is in order behaves as a finite map from handles to values. Over
any history of operations, handles are never given out twice and denote nothing once they were
removed, as long as there is a handle for every slot and no slot is emptied so often that its
generations start anew.
-/

namespace StackCode

theorem Handle.ext {h h' : Handle} (hi : h.index = h'.index) (hg : h.generation = h'.generation) :
    h = h' := by
  obtain ⟨index, generation⟩ := h
  cases hi
  cases hg
  rfl

namespace Arena

variable {α : Type} {a : Arena α}

/-! ## Slots -/

variable {v : α} {h : Handle}

theorem get?_eq_some_iff :
    a.get? h = some v ↔ a.slots[h.index.toNat]? = some ⟨h.generation, some v⟩ := by
  unfold get?
  cases a.slots[h.index.toNat]? with
  | none => simp
  | some slot =>
    obtain ⟨generation, content⟩ := slot
    by_cases hg : generation = h.generation <;> simp [hg]

theorem get?_eq_none_iff : a.get? h = none ↔
    ∀ slot, a.slots[h.index.toNat]? = some slot → slot.generation = h.generation →
      slot.content = none := by
  unfold get?
  cases a.slots[h.index.toNat]? with
  | none => simp
  | some slot => by_cases hg : slot.generation = h.generation <;> simp [hg]

/-- There is a handle for every slot. -/
def Fits (a : Arena α) : Prop := a.slots.size ≤ 2 ^ 32

/-- The list of free slots has every empty slot exactly once, and all others are counted. -/
structure Sound (a : Arena α) : Prop where
  fits : a.Fits
  nodup : a.free.Nodup
  mem_free : ∀ i, i ∈ a.free ↔ ∃ slot, a.slots[i.toNat]? = some slot ∧ slot.content = none
  size_add : a.size + a.free.length = a.slots.size

theorem sound_empty : Sound ({} : Arena α) := ⟨Nat.zero_le _, List.nodup_nil, by simp, rfl⟩

theorem Sound.toNat_ofNat_size (ha : a.Sound) (hroom : a.size < 2 ^ 32) (hfree : a.free = []) :
    (UInt32.ofNat a.slots.size).toNat = a.slots.size := by
  have hsize := ha.size_add
  rw [hfree, List.length_nil, Nat.add_zero] at hsize
  exact UInt32.toNat_ofNat_of_lt' (hsize ▸ hroom)

/-- The slot that takes the next value: a new one, or an empty one of the handle's generation. -/
theorem Sound.slot_insert (ha : a.Sound) (hroom : a.size < 2 ^ 32) (v : α) :
    a.slots[(a.insert v).1.index.toNat]? = none ∧ (a.insert v).1.generation = 0 ∨
      a.slots[(a.insert v).1.index.toNat]? = some ⟨(a.insert v).1.generation, none⟩ := by
  unfold insert
  cases hfree : a.free with
  | nil =>
    refine .inl ⟨Array.getElem?_eq_none ?_, rfl⟩
    dsimp only
    rw [ha.toNat_ofNat_size hroom hfree]
  | cons i free =>
    obtain ⟨slot, hslot, hempty⟩ := (ha.mem_free i).mp (hfree ▸ List.mem_cons_self)
    dsimp only
    rw [hslot]
    exact .inr (congrArg some (congrArg (ArenaSlot.mk slot.generation) hempty))

theorem Sound.slots_insert (ha : a.Sound) (hroom : a.size < 2 ^ 32) (v : α) (k : Nat) :
    (a.insert v).2.slots[k]? = if k = (a.insert v).1.index.toNat then
      some ⟨(a.insert v).1.generation, some v⟩ else a.slots[k]? := by
  have hslot := ha.slot_insert hroom v
  unfold insert at hslot ⊢
  cases hfree : a.free with
  | nil =>
    dsimp only
    rw [ha.toNat_ofNat_size hroom hfree]
    exact Array.getElem?_push
  | cons i free =>
    rw [hfree] at hslot
    dsimp only at hslot ⊢
    rw [Array.getElem?_modify]
    by_cases hk : i.toNat = k
    · subst hk
      rw [if_pos rfl, if_pos rfl]
      rcases hslot with ⟨hnone, -⟩ | hsome
      · have hmem : i ∈ a.free := hfree ▸ List.mem_cons_self
        obtain ⟨slot, hslot, -⟩ := (ha.mem_free i).mp hmem
        cases hnone.symm.trans hslot
      · rw [hsome]
        rfl
    · rw [if_neg hk, if_neg (Ne.symm hk)]

theorem slots_erase (a : Arena α) (h : Handle) (k : Nat) :
    (a.erase h).slots[k]? = if h.index.toNat = k then
      a.slots[k]?.map fun slot => ⟨slot.generation + 1, none⟩ else a.slots[k]? :=
  Array.getElem?_modify

/-! ## Values -/

theorem Sound.get?_insert_index (ha : a.Sound) (hroom : a.size < 2 ^ 32) (v : α)
    (hi : h.index = (a.insert v).1.index) : a.get? h = none := by
  rw [get?_eq_none_iff, hi]
  intro slot hslot _
  rcases ha.slot_insert hroom v with ⟨hnone, -⟩ | hempty
  · cases hnone.symm.trans hslot
  · cases hempty.symm.trans hslot
    rfl

/-- The handle of a new value did not denote anything before. -/
theorem Sound.get?_insert_self (ha : a.Sound) (hroom : a.size < 2 ^ 32) (v : α) :
    a.get? (a.insert v).1 = none :=
  ha.get?_insert_index hroom v rfl

theorem Sound.get?_insert (ha : a.Sound) (hroom : a.size < 2 ^ 32) (v : α) (h : Handle) :
    (a.insert v).2.get? h = if h = (a.insert v).1 then some v else a.get? h := by
  by_cases hh : h = (a.insert v).1
  · rw [if_pos hh, get?_eq_some_iff, ha.slots_insert hroom, hh, if_pos rfl]
  rw [if_neg hh]
  by_cases hi : h.index = (a.insert v).1.index
  · rw [ha.get?_insert_index hroom v hi, get?_eq_none_iff, ha.slots_insert hroom,
      if_pos (congrArg UInt32.toNat hi)]
    intro slot hslot hg
    cases hslot
    exact absurd (Handle.ext hi hg.symm) hh
  · unfold get?
    rw [ha.slots_insert hroom, if_neg (hi ∘ UInt32.toNat_inj.mp)]

theorem get?_erase (hh : a.contains h = true) (h' : Handle) :
    (a.erase h).get? h' = if h' = h then none else a.get? h' := by
  obtain ⟨v, hv⟩ := Option.isSome_iff_exists.mp hh
  have hslot := get?_eq_some_iff.mp hv
  by_cases hi : h.index = h'.index
  · have hafter : (a.erase h).get? h' = none := by
      rw [get?_eq_none_iff, slots_erase, if_pos (congrArg UInt32.toNat hi), ← hi, hslot]
      intro slot hs _
      cases hs
      rfl
    rw [hafter]
    split
    · rfl
    · rename_i hne
      rw [eq_comm, get?_eq_none_iff, ← hi, hslot]
      intro slot hs hg
      cases hs
      exact absurd (Handle.ext hi.symm hg.symm) hne
  · rw [if_neg (fun he => hi (congrArg Handle.index he.symm))]
    unfold get?
    rw [slots_erase, if_neg (hi ∘ UInt32.toNat_inj.mp)]

/-! ## The list of free slots -/

theorem size_insert (a : Arena α) (v : α) : (a.insert v).2.size = a.size + 1 := by
  unfold Arena.insert Arena.size
  cases a.free <;> rfl

theorem length_le_of_nodup {is : List UInt32} {n : Nat} (hnodup : is.Nodup)
    (hlt : ∀ i ∈ is, i.toNat < n) : is.length ≤ n := by
  have hsub : is.map UInt32.toNat ⊆ List.range n := by
    intro k hk
    obtain ⟨i, hi, rfl⟩ := List.mem_map.mp hk
    exact List.mem_range.mpr (hlt i hi)
  have hmap := hnodup.map fun _ _ => UInt32.toNat_inj.mp
  simpa using (hmap.subperm hsub).length_le

theorem Sound.insert (ha : a.Sound) (hroom : a.size < 2 ^ 32) (v : α) :
    (a.insert v).2.Sound := by
  have hslots := ha.slots_insert hroom v
  have hmem : ∀ i, i ∈ (a.insert v).2.free ↔ i ≠ (a.insert v).1.index ∧ i ∈ a.free := by
    intro i
    have hnodup := ha.nodup
    unfold Arena.insert
    cases hfree : a.free with
    | nil => simp
    | cons k free =>
      rw [hfree, List.nodup_cons] at hnodup
      dsimp only
      rw [List.mem_cons]
      refine ⟨fun hi => ⟨fun he => hnodup.1 (he ▸ hi), .inr hi⟩, fun hi => hi.2.resolve_left hi.1⟩
  refine ⟨?_, ?_, fun i => ?_, ?_⟩
  · have hsize := ha.size_add
    have hfits := ha.fits
    unfold Arena.insert Fits at *
    cases hfree : a.free with
    | nil =>
      simp only [hfree, List.length_nil, Array.size_push] at hsize ⊢
      omega
    | cons i free => rwa [Array.size_modify]
  · have hnodup := ha.nodup
    unfold Arena.insert
    cases hfree : a.free with
    | nil => simp
    | cons k free =>
      rw [hfree] at hnodup
      exact hnodup.of_cons
  · rw [hmem, hslots]
    by_cases hi : i = (a.insert v).1.index
    · simp [hi]
    · rw [if_neg (hi ∘ UInt32.toNat_inj.mp), ← ha.mem_free]
      exact ⟨And.right, fun h => ⟨hi, h⟩⟩
  · have hsize := ha.size_add
    unfold Arena.insert Arena.size at *
    cases hfree : a.free with
    | nil => simpa [hfree] using hsize
    | cons i free =>
      simp only [hfree, List.length_cons, Array.size_modify] at hsize ⊢
      omega

theorem Sound.erase (ha : a.Sound) (hh : a.contains h = true) : (a.erase h).Sound := by
  obtain ⟨v, hv⟩ := Option.isSome_iff_exists.mp hh
  have hslot := get?_eq_some_iff.mp hv
  have hnodup : (h.index :: a.free).Nodup := by
    refine List.nodup_cons.mpr ⟨fun hmem => ?_, ha.nodup⟩
    obtain ⟨slot, hslot', hempty⟩ := (ha.mem_free _).mp hmem
    cases hslot.symm.trans hslot'
    cases hempty
  refine ⟨?_, hnodup, fun i => ?_, ?_⟩
  · rw [Fits, Arena.erase, Array.size_modify]
    exact ha.fits
  · rw [slots_erase]
    change i ∈ h.index :: a.free ↔ _
    rw [List.mem_cons, ha.mem_free]
    by_cases hi : h.index = i
    · subst hi
      rw [if_pos rfl, hslot]
      exact ⟨fun _ => ⟨_, rfl, rfl⟩, fun _ => .inl rfl⟩
    · rw [if_neg (hi ∘ UInt32.toNat_inj.mp)]
      exact ⟨fun h => h.resolve_left (Ne.symm hi), .inr⟩
  · have hsize := ha.size_add
    have hlength : (h.index :: a.free).length ≤ a.slots.size := by
      refine length_le_of_nodup hnodup fun i hi => ?_
      rcases List.mem_cons.mp hi with rfl | hi
      · exact (Array.getElem?_eq_some_iff.mp hslot).1
      · obtain ⟨slot, hi, -⟩ := (ha.mem_free i).mp hi
        exact (Array.getElem?_eq_some_iff.mp hi).1
    change a.size - 1 + (h.index :: a.free).length = (a.slots.modify _ _).size
    rw [Array.size_modify]
    rw [List.length_cons] at hlength ⊢
    omega

theorem Sound.size_erase (ha : a.Sound) (hh : a.contains h = true) :
    (a.erase h).size + 1 = a.size := by
  have hsize := ha.size_add
  have herase := (ha.erase hh).size_add
  rw [Arena.erase, Array.size_modify, List.length_cons] at herase
  change (a.erase h).size + _ = _ at herase
  omega

/-- An arena has at most as many values as there are handles that denote one. -/
theorem Sound.size_le (ha : a.Sound) {hs : List Handle}
    (hall : ∀ h, a.get? h ≠ none → h ∈ hs) : a.size ≤ hs.length := by
  have hsub : List.range a.slots.size ⊆
      a.free.map UInt32.toNat ++ hs.map (·.index.toNat) := by
    intro i hi
    have hlt := List.mem_range.mp hi
    have hindex : (UInt32.ofNat i).toNat = i :=
      UInt32.toNat_ofNat_of_lt' (Nat.lt_of_lt_of_le hlt ha.fits)
    have hslot := Array.getElem?_eq_getElem hlt
    refine List.mem_append.mpr ?_
    cases hcontent : a.slots[i].content with
    | none =>
      refine .inl (List.mem_map.mpr ⟨UInt32.ofNat i, (ha.mem_free _).mpr ?_, hindex⟩)
      exact ⟨_, hindex.symm ▸ hslot, hcontent⟩
    | some v =>
      refine .inr (List.mem_map.mpr ⟨⟨UInt32.ofNat i, a.slots[i].generation⟩, hall _ ?_, hindex⟩)
      have hv : a.get? ⟨UInt32.ofNat i, a.slots[i].generation⟩ = some v := by
        rw [get?_eq_some_iff, hindex, hslot, ← hcontent]
      rw [hv]
      exact Option.some_ne_none v
  have hle := (List.nodup_range.subperm hsub).length_le
  have hsize := ha.size_add
  simp only [List.length_range, List.length_append, List.length_map] at hle
  omega

theorem Sound.modify (ha : a.Sound) (h : Handle) (f : α → α) : (a.modify h f).Sound := by
  have hsize : (a.modify h f).slots.size = a.slots.size := by rw [Arena.modify, Array.size_modify]
  refine ⟨hsize.trans_le ha.fits, ha.nodup, fun i => (ha.mem_free i).trans ?_,
    ha.size_add.trans hsize.symm⟩
  change _ ↔ ∃ slot, (a.slots.modify h.index.toNat _)[i.toNat]? = some slot ∧ slot.content = none
  rw [Array.getElem?_modify]
  split
  · cases a.slots[i.toNat]? with
    | none => simp
    | some slot =>
      by_cases hg : slot.generation = h.generation <;> simp [hg]
  · rfl

/-! ## Histories -/

inductive Operation (α : Type) where
  | insert (v : α)
  | read (h : Handle)
  | update (h : Handle) (f : α → α)
  | remove (h : Handle)

/-- An operation with its answer. -/
inductive Event (α : Type) where
  | inserted (h : Handle) (v : α)
  | read (h : Handle) (found : Option α)
  | updated (h : Handle) (f : α → α) (found : Option α)
  | removed (h : Handle) (found : Option α)

namespace Event

def handle : Event α → Handle
  | inserted h _ | read h _ | updated h _ _ | removed h _ => h

def issued? : Event α → Option Handle
  | inserted h _ => some h
  | _ => none

def empties (index : UInt32) : Event α → Bool
  | removed h (some _) => h.index == index
  | _ => false

/-- The finite map that holds what handles denote, after an operation. -/
def apply (m : Finmap fun _ : Handle => α) : Event α → Finmap fun _ : Handle => α
  | inserted h v => m.insert h v
  | read .. => m
  | updated h f _ =>
    match m.lookup h with
    | some v => m.insert h (f v)
    | none => m
  | removed h _ => m.erase h

def Answers (m : Finmap fun _ : Handle => α) : Event α → Prop
  | inserted h _ => h ∉ m
  | read h found | updated h _ found | removed h found => found = m.lookup h

end Event

/-- Operations that were done one after another on an empty arena, with their answers. -/
structure History (α : Type) where
  log : List (Event α) := []
  arena : Arena α := {}

def perform (a : Arena α) : Operation α → Event α × Arena α
  | .insert v => (.inserted (a.insert v).1 v, (a.insert v).2)
  | .read h => (.read h (a.get? h), a)
  | .update h f => (.updated h f (a.get? h), a.modify h f)
  | .remove h =>
    match a.remove h with
    | some (v, a) => (.removed h (some v), a)
    | none => (.removed h none, a)

namespace History

def next (s : History α) (op : Operation α) : History α :=
  ⟨s.log ++ [(s.arena.perform op).1], (s.arena.perform op).2⟩

def ofOperations (ops : List (Operation α)) : History α := ops.foldl next {}

/-- What handles denote as a finite map. -/
def contents (s : History α) : Finmap fun _ : Handle => α := s.log.foldl Event.apply ∅

def issued (s : History α) : List Handle := s.log.filterMap Event.issued?

def removals (s : History α) (index : UInt32) : Nat := s.log.countP (Event.empties index)

/-- Every operation was answered as by the finite map after those before it. -/
def Answered (s : History α) : Prop :=
  ∀ before e after, s.log = before ++ e :: after → e.Answers (before.foldl Event.apply ∅)

end History

/-! ## One operation -/

theorem perform_remove_of_get? (hv : a.get? h = some v) :
    a.perform (.remove h) = (.removed h (some v), a.erase h) := by
  simp [perform, remove, hv]

theorem perform_remove_of_none (hn : a.get? h = none) :
    a.perform (.remove h) = (.removed h none, a) := by
  simp [perform, remove, hn]

theorem contains_of_get? (hv : a.get? h = some v) : a.contains h = true := by
  rw [contains, hv]
  rfl

theorem fits_of_perform {op : Operation α} (h : (a.perform op).2.Fits) : a.Fits := by
  refine Nat.le_trans ?_ h
  cases op with
  | insert v =>
    change _ ≤ (a.insert v).2.slots.size
    unfold insert
    cases a.free <;> simp
  | read k => exact Nat.le_refl _
  | update k f => exact (Array.size_modify ..).ge
  | remove k =>
    cases hv : a.get? k with
    | some v =>
      rw [perform_remove_of_get? hv]
      exact (Array.size_modify ..).ge
    | none =>
      rw [perform_remove_of_none hv]

theorem Sound.size_lt (ha : a.Sound) (h : (a.insert v).2.Fits) : a.size < 2 ^ 32 := by
  have hsize := ha.size_add
  unfold Fits Arena.insert at h
  cases hfree : a.free with
  | nil =>
    simp only [hfree, Array.size_push, List.length_nil] at h hsize
    omega
  | cons i free =>
    simp only [hfree, Array.size_modify, List.length_cons] at h hsize
    omega

theorem Sound.perform (ha : a.Sound) {op : Operation α} (hfit : (a.perform op).2.Fits) :
    (a.perform op).2.Sound := by
  cases op with
  | insert v => exact ha.insert (ha.size_lt hfit) v
  | read h => exact ha
  | update h f => exact ha.modify h f
  | remove h =>
    cases hv : a.get? h with
    | some v =>
      rw [perform_remove_of_get? hv]
      exact ha.erase (contains_of_get? hv)
    | none =>
      rw [perform_remove_of_none hv]
      exact ha

/-- An operation leaves what other handles denote as it is. -/
theorem Sound.get?_perform_of_ne (ha : a.Sound) {op : Operation α}
    (hfit : (a.perform op).2.Fits) (hne : h ≠ (a.perform op).1.handle) :
    (a.perform op).2.get? h = a.get? h := by
  cases op with
  | insert v => exact (ha.get?_insert (ha.size_lt hfit) v h).trans (if_neg hne)
  | read k => rfl
  | update k f => exact (get?_modify a k f h).trans (if_neg hne)
  | remove k =>
    cases hv : a.get? k with
    | some v =>
      rw [perform_remove_of_get? hv] at hne ⊢
      exact (get?_erase (contains_of_get? hv) h).trans (if_neg hne)
    | none => rw [perform_remove_of_none hv]

def generationAt (a : Arena α) (i : UInt32) : UInt32 :=
  (a.slots[i.toNat]?.map (·.generation)).getD 0

theorem generation_of_get? (hv : a.get? h = some v) :
    h.generation = a.generationAt h.index := by
  rw [generationAt, get?_eq_some_iff.mp hv]
  rfl

theorem Sound.generation_insert (ha : a.Sound) (hroom : a.size < 2 ^ 32) (v : α) :
    (a.insert v).1.generation = a.generationAt (a.insert v).1.index := by
  rcases ha.slot_insert hroom v with ⟨hnone, hzero⟩ | hempty
  · rw [generationAt, hnone, hzero]
    rfl
  · rw [generationAt, hempty]
    rfl

/-- Only the removal of its value takes a slot to its next generation. -/
theorem Sound.generationAt_perform (ha : a.Sound) {op : Operation α}
    (hfit : (a.perform op).2.Fits) (i : UInt32) : (a.perform op).2.generationAt i =
      a.generationAt i + if (a.perform op).1.empties i then 1 else 0 := by
  cases op with
  | insert v =>
    change (a.insert v).2.generationAt i = a.generationAt i + 0
    rw [UInt32.add_zero]
    have hroom := ha.size_lt hfit
    by_cases hi : i = (a.insert v).1.index
    · rw [hi, ← ha.generation_insert hroom, generationAt, ha.slots_insert hroom, if_pos rfl]
      rfl
    · rw [generationAt, ha.slots_insert hroom, if_neg (hi ∘ UInt32.toNat_inj.mp), ← generationAt]
  | read h => exact (UInt32.add_zero _).symm
  | update h f =>
    change (a.modify h f).generationAt i = a.generationAt i + 0
    rw [UInt32.add_zero, generationAt, generationAt, Arena.modify, Array.getElem?_modify]
    split
    · cases a.slots[i.toNat]? with
      | none => rfl
      | some slot => by_cases hg : slot.generation = h.generation <;> simp [hg]
    · rfl
  | remove h =>
    cases hv : a.get? h with
    | none =>
      rw [perform_remove_of_none hv]
      exact (UInt32.add_zero _).symm
    | some v =>
      rw [perform_remove_of_get? hv, generationAt, slots_erase, Event.empties]
      by_cases hi : h.index = i
      · subst hi
        simp [generationAt, get?_eq_some_iff.mp hv]
      · simp [generationAt, hi, UInt32.toNat_inj]

section Map

variable {m : Finmap fun _ : Handle => α} (hm : ∀ h, a.get? h = m.lookup h) {op : Operation α}
  (hfit : (a.perform op).2.Fits)
include hm hfit

theorem Sound.answers (ha : a.Sound) : (a.perform op).1.Answers m := by
  cases op with
  | insert v =>
    exact Finmap.lookup_eq_none.mp ((hm _).symm.trans (ha.get?_insert_self (ha.size_lt hfit) v))
  | read h => exact hm h
  | update h f => exact hm h
  | remove h =>
    cases hv : a.get? h with
    | some v =>
      rw [perform_remove_of_get? hv]
      exact hv.symm.trans (hm h)
    | none =>
      rw [perform_remove_of_none hv]
      exact hv.symm.trans (hm h)

theorem Sound.get?_perform (ha : a.Sound) (h : Handle) :
    (a.perform op).2.get? h = ((a.perform op).1.apply m).lookup h := by
  cases op with
  | insert v =>
    change (a.insert v).2.get? h = (m.insert (a.insert v).1 v).lookup h
    rw [ha.get?_insert (ha.size_lt hfit), hm]
    split
    · rename_i he
      rw [he, Finmap.lookup_insert]
    · rename_i hne
      rw [Finmap.lookup_insert_of_ne m hne]
  | read k => exact hm h
  | update k f =>
    change (a.modify k f).get? h = ((Event.updated k f (a.get? k)).apply m).lookup h
    rw [get?_modify, Event.apply, hm]
    by_cases he : h = k
    · subst he
      cases hv : m.lookup h with
      | some v => rw [if_pos rfl, Finmap.lookup_insert, Option.map_some]
      | none => rw [if_pos rfl, Option.map_none, hv]
    · rw [if_neg he]
      cases m.lookup k with
      | some v => rw [Finmap.lookup_insert_of_ne m he]
      | none => rfl
  | remove k =>
    cases hv : a.get? k with
    | some v =>
      rw [perform_remove_of_get? hv, get?_erase (contains_of_get? hv), hm]
      by_cases he : h = k
      · rw [if_pos he, he, Event.apply, Finmap.lookup_erase]
      · rw [if_neg he, Event.apply, Finmap.lookup_erase_ne he]
    | none =>
      rw [perform_remove_of_none hv, hm, Event.apply]
      by_cases he : h = k
      · rw [he, Finmap.lookup_erase, ← hm, hv]
      · rw [Finmap.lookup_erase_ne he]

theorem Sound.size_perform (ha : a.Sound) (hsize : a.size = m.keys.card) :
    (a.perform op).2.size = ((a.perform op).1.apply m).keys.card := by
  have hinsert : ∀ h v, (m.insert h v).keys = Insert.insert h m.keys := by
    intro h v
    ext h'
    simp [Finmap.mem_keys, Finmap.mem_insert]
  cases op with
  | insert v =>
    have hfresh : (a.insert v).1 ∉ m.keys := ha.answers hm hfit
    change (a.insert v).2.size = (m.insert (a.insert v).1 v).keys.card
    rw [size_insert, hinsert, Finset.card_insert_of_notMem hfresh, hsize]
  | read h => exact hsize
  | update h f =>
    change a.size = ((Event.updated h f (a.get? h)).apply m).keys.card
    rw [hsize, Event.apply]
    cases hv : m.lookup h with
    | some v =>
      have hmem : h ∈ m.keys := Finmap.mem_of_lookup_eq_some hv
      rw [hinsert, Finset.insert_eq_self.mpr hmem]
    | none => rfl
  | remove h =>
    cases hv : a.get? h with
    | some v =>
      have hmem : h ∈ m.keys := Finmap.mem_of_lookup_eq_some ((hm h).symm.trans hv)
      rw [perform_remove_of_get? hv, Event.apply, Finmap.keys_erase,
        Finset.card_erase_of_mem hmem, ← hsize]
      rfl
    | none =>
      have hmem : h ∉ m.keys := Finmap.lookup_eq_none.mp ((hm h).symm.trans hv)
      rw [perform_remove_of_none hv, Event.apply, Finmap.keys_erase, Finset.erase_eq_of_notMem hmem,
        hsize]

end Map

/-! ## All operations -/

namespace History

variable {s : History α}

theorem ofOperations_append (ops : List (Operation α)) (op : Operation α) :
    ofOperations (ops ++ [op]) = (ofOperations ops).next op := by
  simp [ofOperations]

theorem contents_next (s : History α) (op : Operation α) :
    (s.next op).contents = (s.arena.perform op).1.apply s.contents := by
  simp [contents, next]

theorem removals_next (s : History α) (op : Operation α) (index : UInt32) :
    (s.next op).removals index =
      s.removals index + if (s.arena.perform op).1.empties index then 1 else 0 := by
  simp [removals, next, List.countP_cons]

theorem removals_le_next (s : History α) (op : Operation α) (index : UInt32) :
    s.removals index ≤ (s.next op).removals index := by
  rw [removals_next]
  exact Nat.le_add_right _ _

theorem issued_next (s : History α) (op : Operation α) :
    (∃ v, op = .insert v ∧ (s.next op).issued = s.issued ++ [(s.arena.insert v).1]) ∨
      (s.next op).issued = s.issued := by
  have happend : (s.next op).issued =
      s.issued ++ ((s.arena.perform op).1.issued?).toList := by
    rw [issued, next, List.filterMap_append]
    cases he : (s.arena.perform op).1.issued? <;> simp [he, issued]
  rw [happend]
  cases op with
  | insert v => exact .inl ⟨v, rfl, rfl⟩
  | read k | update k f => exact .inr (List.append_nil _)
  | remove k =>
    right
    cases hv : s.arena.get? k with
    | some w =>
      rw [perform_remove_of_get? hv]
      exact List.append_nil _
    | none =>
      rw [perform_remove_of_none hv]
      exact List.append_nil _

/-- The handle belongs to an earlier generation of its slot. -/
def Outdated (s : History α) (h : Handle) : Prop :=
  ∃ n < s.removals h.index, h.generation = UInt32.ofNat n

theorem Outdated.next {h : Handle} (ho : s.Outdated h) (op : Operation α) :
    (s.next op).Outdated h := by
  obtain ⟨n, hn, hg⟩ := ho
  exact ⟨n, Nat.lt_of_lt_of_le hn (s.removals_le_next op _), hg⟩

/-- What a history tells about the slots of the arena: the map holds the values of the slots, a
slot is of the generation of its removals, and a handle denotes a value or is outdated. -/
structure Represents (s : History α) : Prop where
  sound : s.arena.Sound
  lookup : ∀ h, s.arena.get? h = s.contents.lookup h
  size : s.arena.size = s.contents.keys.card
  generation : ∀ i, s.arena.generationAt i = UInt32.ofNat (s.removals i)
  issued : ∀ h ∈ s.issued, s.arena.contains h = true ∨ s.Outdated h
  removed : ∀ h v, .removed h (some v) ∈ s.log → s.Outdated h

theorem represents_empty : Represents ({} : History α) where
  sound := sound_empty
  lookup _ := rfl
  size := rfl
  generation _ := rfl
  issued _ h := absurd h List.not_mem_nil
  removed _ _ h := absurd h List.not_mem_nil

namespace Represents

theorem outdated_of_removed (h : s.Represents) {k : Handle} {v : α}
    (hv : s.arena.get? k = some v) : (s.next (.remove k)).Outdated k := by
  refine ⟨s.removals k.index, ?_, (generation_of_get? hv).trans (h.generation _)⟩
  rw [removals_next, perform_remove_of_get? hv, Event.empties, if_pos (beq_self_eq_true _)]
  exact Nat.lt_succ_self _

theorem contains_next (h : s.Represents) {k : Handle} (hk : s.arena.contains k = true)
    {op : Operation α} (hfit : (s.next op).arena.Fits) :
    (s.next op).arena.contains k = true ∨ (s.next op).Outdated k := by
  obtain ⟨v, hv⟩ := Option.isSome_iff_exists.mp hk
  change (s.arena.perform op).2.contains k = true ∨ _
  rw [contains]
  by_cases hne : k = (s.arena.perform op).1.handle
  · cases op with
    | insert w =>
      have hnone := h.sound.get?_insert_self (h.sound.size_lt hfit) w
      cases hv.symm.trans ((congrArg s.arena.get? hne).trans hnone)
    | read k' => exact .inl hk
    | update k' f =>
      refine .inl ?_
      change ((s.arena.modify k' f).get? k).isSome = true
      rw [get?_modify, hv]
      split <;> rfl
    | remove k' =>
      have hk' : k = k' := by
        cases hv' : s.arena.get? k' with
        | some w => rwa [perform_remove_of_get? hv'] at hne
        | none => rwa [perform_remove_of_none hv'] at hne
      subst hk'
      exact .inr (h.outdated_of_removed hv)
  · rw [h.sound.get?_perform_of_ne hfit hne, hv]
    exact .inl rfl

theorem next (h : s.Represents) {op : Operation α} (hfit : (s.next op).arena.Fits) :
    (s.next op).Represents where
  sound := h.sound.perform hfit
  lookup k := by
    rw [contents_next]
    exact h.sound.get?_perform h.lookup hfit k
  size := by
    rw [contents_next]
    exact h.sound.size_perform h.lookup hfit h.size
  generation i := by
    rw [removals_next]
    refine (h.sound.generationAt_perform hfit i).trans ?_
    rw [h.generation, UInt32.ofNat_add]
    split <;> rfl
  issued k hk := by
    have hold : k ∈ s.issued → (s.next op).arena.contains k = true ∨ (s.next op).Outdated k :=
      fun hk => (h.issued k hk).elim (h.contains_next · hfit) fun hout => .inr (hout.next op)
    rcases s.issued_next op with ⟨v, rfl, he⟩ | he
    · rw [he, List.mem_append, List.mem_singleton] at hk
      refine hk.elim hold fun hk => .inl ?_
      change ((s.arena.insert v).2.get? k).isSome = true
      rw [h.sound.get?_insert (h.sound.size_lt hfit), if_pos hk]
      rfl
    · exact hold (he ▸ hk)
  removed k v hk := by
    rw [History.next, List.mem_append, List.mem_singleton] at hk
    rcases hk with hk | hk
    · exact (h.removed k v hk).next op
    · cases op with
      | insert w | read k' | update k' f => cases hk
      | remove k' =>
        cases hv : s.arena.get? k' with
        | some w =>
          rw [perform_remove_of_get? hv] at hk
          cases hk
          exact h.outdated_of_removed hv
        | none =>
          rw [perform_remove_of_none hv] at hk
          cases hk

end Represents

theorem represents {ops : List (Operation α)} (hfit : (ofOperations ops).arena.Fits) :
    (ofOperations ops).Represents := by
  induction ops using List.reverseRecOn with
  | nil => exact represents_empty
  | append_singleton ops op ih =>
    rw [ofOperations_append] at hfit ⊢
    exact (ih (fits_of_perform hfit)).next hfit

theorem answered {ops : List (Operation α)} (hfit : (ofOperations ops).arena.Fits) :
    (ofOperations ops).Answered := by
  induction ops using List.reverseRecOn with
  | nil => exact fun before e after he => absurd he.symm (by simp [ofOperations])
  | append_singleton ops op ih =>
    rw [ofOperations_append] at hfit ⊢
    have hbefore := fits_of_perform hfit
    intro before e after he
    have h := represents hbefore
    change (ofOperations ops).log ++ [_] = _ at he
    rcases List.eq_nil_or_concat after with rfl | ⟨after, e', rfl⟩
    · obtain ⟨hlog, hevent⟩ := List.append_inj' he rfl
      obtain ⟨rfl, -⟩ := List.cons_eq_cons.mp hevent
      subst hlog
      exact h.sound.answers h.lookup hfit
    · rw [List.concat_eq_append, ← List.cons_append, ← List.append_assoc] at he
      exact ih hbefore before e after (List.append_inj' he rfl).1

/-! ## Generations that do not start anew -/

def Bounded (s : History α) : Prop := ∀ index, s.removals index < 2 ^ 32

theorem Outdated.generation_ne (h : s.Represents) (hb : s.Bounded) {k : Handle}
    (ho : s.Outdated k) : k.generation ≠ s.arena.generationAt k.index := by
  obtain ⟨n, hn, hg⟩ := ho
  have hlt := hb k.index
  rw [h.generation, hg]
  intro he
  have he := congrArg UInt32.toNat he
  rw [UInt32.toNat_ofNat_of_lt' (by rw [UInt32.size]; omega),
    UInt32.toNat_ofNat_of_lt' (by rw [UInt32.size]; omega)] at he
  omega

theorem nodup_issued {ops : List (Operation α)} (hfit : (ofOperations ops).arena.Fits)
    (hb : (ofOperations ops).Bounded) : (ofOperations ops).issued.Nodup := by
  induction ops using List.reverseRecOn with
  | nil => exact List.nodup_nil
  | append_singleton ops op ih =>
    rw [ofOperations_append] at hfit hb ⊢
    have hbefore : (ofOperations ops).Bounded := fun index =>
      Nat.lt_of_le_of_lt (removals_le_next _ op index) (hb index)
    have h := represents (fits_of_perform hfit)
    have ih := ih (fits_of_perform hfit)
    generalize ofOperations ops = s at ih hfit hbefore h hb
    rcases s.issued_next op with ⟨v, rfl, he⟩ | he
    · rw [he]
      refine List.nodup_append.mpr ⟨ih hbefore, List.nodup_singleton _, fun k hk k' hk' hkk => ?_⟩
      have hk : (s.arena.insert v).1 ∈ s.issued := List.mem_singleton.mp hk' ▸ hkk ▸ hk
      rcases h.issued _ hk with hlive | hout
      · rw [contains, h.sound.get?_insert_self (h.sound.size_lt hfit)] at hlive
        cases hlive
      · exact hout.generation_ne h hbefore (h.sound.generation_insert (h.sound.size_lt hfit) v)
    · rw [he]
      exact ih hbefore

/-- As long as there are at most 2^32 slots and none is emptied 2^32 times, an arena is a finite
map: no handle is given out twice, every operation is answered as by the map, a handle denotes what
the map holds and nothing once it was removed, and the next operation changes nothing for other
handles. The size is the number of live handles, and every empty slot is free exactly once. -/
theorem refines_finmap (ops : List (Operation α))
    (hslots : (ofOperations ops).arena.slots.size ≤ 2 ^ 32)
    (hbound : ∀ index, (ofOperations ops).removals index < 2 ^ 32) :
    (ofOperations ops).issued.Nodup ∧ (ofOperations ops).Answered ∧
    (∀ h, (ofOperations ops).arena.get? h = (ofOperations ops).contents.lookup h) ∧
    (∀ h v, .removed h (some v) ∈ (ofOperations ops).log →
      (ofOperations ops).arena.get? h = none) ∧
    (∀ op h, ((ofOperations ops).arena.perform op).2.slots.size ≤ 2 ^ 32 →
      h ≠ ((ofOperations ops).arena.perform op).1.handle →
      ((ofOperations ops).arena.perform op).2.get? h = (ofOperations ops).arena.get? h) ∧
    (ofOperations ops).arena.size = (ofOperations ops).contents.keys.card ∧
    (ofOperations ops).arena.free.Nodup ∧
    ∀ i : Nat, i ∈ (ofOperations ops).arena.free.map UInt32.toNat ↔
      ∃ slot, (ofOperations ops).arena.slots[i]? = some slot ∧ slot.content = none := by
  have h := represents hslots
  refine ⟨nodup_issued hslots hbound, answered hslots, h.lookup, fun k v hk => ?_,
    fun op k hfit hne => h.sound.get?_perform_of_ne hfit hne, h.size, h.sound.nodup, fun i => ?_⟩
  · rw [Option.eq_none_iff_forall_ne_some]
    intro w hw
    exact (h.removed k v hk).generation_ne h hbound (generation_of_get? hw)
  · rw [List.mem_map]
    constructor
    · rintro ⟨k, hk, rfl⟩
      exact (h.sound.mem_free k).mp hk
    · rintro ⟨slot, hslot, hempty⟩
      have hlt := (Array.getElem?_eq_some_iff.mp hslot).1
      have hi : (UInt32.ofNat i).toNat = i :=
        UInt32.toNat_ofNat_of_lt' (Nat.lt_of_lt_of_le hlt hslots)
      exact ⟨UInt32.ofNat i, (h.sound.mem_free _).mpr ⟨slot, hi.symm ▸ hslot, hempty⟩, hi⟩

/-- Two values are stored, the first one is removed, and its slot is used again. -/
def recycling : List (Operation Nat) :=
  [.insert 5, .insert 7, .remove ⟨0, 0⟩, .insert 9, .update ⟨1, 0⟩ (· + 1), .remove ⟨0, 0⟩]

/-- The old handle of the slot stays without a value, while the new one denotes the new value. -/
theorem refines_finmap_recycling : (ofOperations recycling).arena.slots.size ≤ 2 ^ 32 ∧
    (∀ index, (ofOperations recycling).removals index < 2 ^ 32) ∧
    (ofOperations recycling).issued = [⟨0, 0⟩, ⟨1, 0⟩, ⟨0, 1⟩] ∧
    (ofOperations recycling).issued.Nodup ∧ (ofOperations recycling).arena.get? ⟨0, 0⟩ = none ∧
    (ofOperations recycling).arena.get? ⟨0, 1⟩ = some 9 ∧
    (ofOperations recycling).contents.lookup ⟨1, 0⟩ = some 8 ∧
    (ofOperations recycling).contents.keys.card = 2 := by
  have hbound : ∀ index, (ofOperations recycling).removals index < 2 ^ 32 := fun index =>
    Nat.lt_of_le_of_lt List.countP_le_length (by decide)
  have hslots : (ofOperations recycling).arena.slots.size ≤ 2 ^ 32 := by decide
  obtain ⟨hnodup, -, hlookup, hremoved, -, hsize, -⟩ := refines_finmap recycling hslots hbound
  refine ⟨hslots, hbound, rfl, hnodup, hremoved ⟨0, 0⟩ 5 ?_, rfl, ?_, ?_⟩
  · exact List.mem_of_getElem? (show (ofOperations recycling).log[2]? = _ from rfl)
  · rw [← hlookup]
    rfl
  · rw [← hsize]
    rfl

end History

end Arena

end StackCode
