import StackCode.Proofs.Arenas

/-! # Blocks and who owns them

What the operations on blocks and properties do to a heap, told by what handles denote. An operation
of a collection works with the blocks that belong to it, and moves from one such list of blocks to
another; all other blocks and all other instances stay as they are.
-/

namespace StackCode

namespace Heap

variable {h h' h'' : Heap} {b ref : Handle} {capacity i n : Nat} {vs : List Value} {v : Value}

def field? (h : Heap) (ref : Handle) (n : Nat) : Option Value :=
  (h.objects.get? ref).bind fun o => o.fields[n]?.join

def width? (h : Heap) (ref : Handle) : Option Nat :=
  (h.objects.get? ref).map fun o => o.fields.size

def type? (h : Heap) (ref : Handle) : Option StructType := (h.objects.get? ref).map (·.type)

def Holds (h : Heap) (b : Handle) (capacity : Nat) (vs : List Value) : Prop :=
  ∃ block, h.blocks.get? b = some block ∧ block.size = capacity ∧
    ∀ (i : Nat) v, vs[i]? = some v → block[i]? = some (some v)

structure Sound (h : Heap) : Prop where
  objects : h.objects.Sound
  blocks : h.blocks.Sound

theorem Holds.length_le (hh : h.Holds b capacity vs) : vs.length ≤ capacity := by
  obtain ⟨block, -, rfl, hvs⟩ := hh
  by_contra hlt
  have hlast := hvs block.size _ (List.getElem?_eq_getElem (Nat.lt_of_not_le hlt))
  rw [Array.getElem?_eq_none (Nat.le_refl _)] at hlast
  cases hlast

theorem Holds.take (hh : h.Holds b capacity vs) (n : Nat) : h.Holds b capacity (vs.take n) := by
  obtain ⟨block, hb, hsize, hvs⟩ := hh
  refine ⟨block, hb, hsize, fun i v hi => hvs i v ?_⟩
  rw [List.getElem?_take] at hi
  split at hi
  · exact hi
  · cases hi

theorem Holds.of_get? (hh : h.Holds b capacity vs) (hb : h'.blocks.get? b = h.blocks.get? b) :
    h'.Holds b capacity vs := by
  obtain ⟨block, hblock, hsize, hvs⟩ := hh
  exact ⟨block, hb.trans hblock, hsize, hvs⟩

/-! ## Changes that a list of blocks accounts for -/

/-- From the first heap to the second, one instance gave up blocks and took others, and nothing else
changed but what belongs to it. -/
structure Moves (ref : Handle) (own own' : List Handle) (h h' : Heap) : Prop where
  sound : h'.Sound
  limit : h'.maxBlockSlots = h.maxBlockSlots
  objects : ∀ x, x ≠ ref → h'.objects.get? x = h.objects.get? x
  types : ∀ x type, h.type? x = some type → h'.type? x = some type
  blocks : ∀ x block, x ∉ own → h.blocks.get? x = some block → h'.blocks.get? x = some block
  fresh : ∀ x ∈ own', x ∉ own → h.blocks.get? x = none
  size : h'.blocks.size + own.length = h.blocks.size + own'.length

theorem Moves.refl (hs : h.Sound) (own : List Handle) : Moves ref own own h h :=
  ⟨hs, rfl, fun _ _ => rfl, fun _ _ => id, fun _ _ _ => id, fun _ hx hx' => absurd hx hx', rfl⟩

theorem Moves.trans {own own' own'' : List Handle} (hm : Moves ref own own' h h')
    (hm' : Moves ref own' own'' h' h'') : Moves ref own own'' h h'' where
  sound := hm'.sound
  limit := hm'.limit.trans hm.limit
  objects x hx := (hm'.objects x hx).trans (hm.objects x hx)
  types x type hx := hm'.types x type (hm.types x type hx)
  blocks x block hx hb := by
    have hx' : x ∉ own' := fun hmem => by
      rw [hm.fresh x hmem hx] at hb
      cases hb
    exact hm'.blocks x block hx' (hm.blocks x block hx hb)
  fresh x hx hx' := by
    by_cases hmem : x ∈ own'
    · exact hm.fresh x hmem hx'
    · cases hb : h.blocks.get? x with
      | none => rfl
      | some block =>
        rw [← hm'.fresh x hx hmem, hm.blocks x block hx' hb]
  size := by
    have := hm.size
    have := hm'.size
    omega

structure Touches (b : Handle) (h h' : Heap) : Prop where
  sound : h'.Sound
  objects : h'.objects = h.objects
  limit : h'.maxBlockSlots = h.maxBlockSlots
  others : ∀ x, x ≠ b → h'.blocks.get? x = h.blocks.get? x

namespace Touches

theorem refl (hs : h.Sound) (b : Handle) : Touches b h h := ⟨hs, rfl, rfl, fun _ _ => rfl⟩

theorem trans (ht : Touches b h h') (ht' : Touches b h' h'') : Touches b h h'' :=
  ⟨ht'.sound, ht'.objects.trans ht.objects, ht'.limit.trans ht.limit,
    fun x hx => (ht'.others x hx).trans (ht.others x hx)⟩

theorem field? (ht : Touches b h h') (x : Handle) (n : Nat) : h'.field? x n = h.field? x n := by
  rw [Heap.field?, ht.objects, ← Heap.field?]

theorem holds (ht : Touches b h h') {x : Handle} (hx : x ≠ b) (hh : h.Holds x capacity vs) :
    h'.Holds x capacity vs := hh.of_get? (ht.others x hx)

theorem moves (ht : Touches b h h') {own own' : List Handle}
    (hown : ∀ block, b ∉ own → h.blocks.get? b = some block → h'.blocks.get? b = some block)
    (hfresh : ∀ x ∈ own', x ∉ own → h.blocks.get? x = none)
    (hsize : h'.blocks.size + own.length = h.blocks.size + own'.length) (ref : Handle) :
    Moves ref own own' h h' where
  sound := ht.sound
  limit := ht.limit
  objects x _ := by rw [ht.objects]
  types x type hx := by rwa [type?, ht.objects]
  blocks x block hx hb := by
    by_cases hxb : x = b
    · subst hxb
      exact hown block hx hb
    · rw [ht.others x hxb, hb]
  fresh := hfresh
  size := hsize

end Touches

structure Rewrites (b : Handle) (h h' : Heap) : Prop extends Touches b h h' where
  size : h'.blocks.size = h.blocks.size

theorem Rewrites.refl (hs : h.Sound) (b : Handle) : Rewrites b h h := ⟨.refl hs b, rfl⟩

theorem Rewrites.trans (hr : Rewrites b h h') (hr' : Rewrites b h' h'') : Rewrites b h h'' :=
  ⟨hr.toTouches.trans hr'.toTouches, hr'.size.trans hr.size⟩

theorem Rewrites.moves (hr : Rewrites b h h') {own : List Handle} (hb : b ∈ own) (ref : Handle) :
    Moves ref own own h h' :=
  hr.toTouches.moves (fun _ hn => absurd hb hn) (fun _ hx hn => absurd hx hn) (by rw [hr.size]) ref

/-! ## Blocks -/

def stored (h : Heap) (b : Handle) (i : Nat) (v : Value) : Heap :=
  { h with blocks := h.blocks.modify b (·.setIfInBounds i (some v)) }

theorem get?_stored (h : Heap) (b : Handle) (i : Nat) (v : Value) :
    (h.stored b i v).blocks.get? b = (h.blocks.get? b).map (·.setIfInBounds i (some v)) := by
  rw [stored, Arena.get?_modify, if_pos rfl]

theorem rewrites_stored (hs : h.Sound) (b : Handle) (i : Nat) (v : Value) :
    Rewrites b h (h.stored b i v) where
  sound := ⟨hs.objects, hs.blocks.modify _ _⟩
  objects := rfl
  limit := rfl
  others x hx := by rw [stored, Arena.get?_modify, if_neg hx]
  size := rfl

theorem Holds.stored (hh : h.Holds b capacity vs) {ws : List Value}
    (hws : ∀ (j : Nat) w, ws[j]? = some w → j = i ∧ w = v ∧ i < capacity ∨
      j ≠ i ∧ vs[j]? = some w) :
    (h.stored b i v).Holds b capacity ws := by
  obtain ⟨block, hb, rfl, hvs⟩ := hh
  refine ⟨block.setIfInBounds i (some v), by rw [get?_stored, hb, Option.map_some],
    Array.size_setIfInBounds, fun j w hj => ?_⟩
  rw [Array.getElem?_setIfInBounds]
  rcases hws j w hj with ⟨rfl, rfl, hlt⟩ | ⟨hne, hw⟩
  · rw [if_pos rfl, if_pos hlt]
  · rw [if_neg (Ne.symm hne)]
    exact hvs j w hw

theorem Holds.set (hh : h.Holds b capacity vs) (i : Nat) (v : Value) :
    (h.stored b i v).Holds b capacity (vs.set i v) := by
  have hle := hh.length_le
  refine hh.stored fun j w hj => ?_
  rw [List.getElem?_set] at hj
  split at hj
  · rename_i hij
    split at hj
    · cases hj
      exact .inl ⟨hij.symm, rfl, by omega⟩
    · cases hj
  · rename_i hij
    exact .inr ⟨Ne.symm hij, hj⟩

theorem Holds.push (hh : h.Holds b capacity vs) (hlt : vs.length < capacity) (v : Value) :
    (h.stored b vs.length v).Holds b capacity (vs ++ [v]) := by
  refine hh.stored fun j w hj => ?_
  rcases Nat.lt_trichotomy j vs.length with hj' | rfl | hj'
  · rw [List.getElem?_append_left hj'] at hj
    exact .inr ⟨Nat.ne_of_lt hj', hj⟩
  · rw [List.getElem?_append_right (Nat.le_refl _), Nat.sub_self] at hj
    cases hj
    exact .inl ⟨rfl, rfl, hlt⟩
  · have hlen : (vs ++ [v]).length ≤ j := by
      rw [List.length_append, List.length_singleton]
      exact hj'
    rw [List.getElem?_eq_none hlen] at hj
    cases hj

structure Allocates (b : Handle) (n : Nat) (h h' : Heap) : Prop extends Touches b h h' where
  fresh : h.blocks.get? b = none
  empty : h'.Holds b n []
  moves : ∀ ref left right, Moves ref (left ++ right) (left ++ b :: right) h h'

theorem Allocates.ne (ha : Allocates b n h h') {x : Handle} (hx : h.Holds x capacity vs) :
    x ≠ b := by
  rintro rfl
  obtain ⟨block, hb, -⟩ := hx
  rw [ha.fresh] at hb
  cases hb

theorem Allocates.kept (ha : Allocates b n h h') {x : Handle} (hx : h.Holds x capacity vs) :
    h'.Holds x capacity vs := ha.toTouches.holds (ha.ne hx) hx

theorem allocates_insert (hs : h.Sound) (hroom : h.blocks.size < 2 ^ 32) (n : Nat) :
    Allocates (h.blocks.insert (Array.replicate n none)).1 n h
      { h with blocks := (h.blocks.insert (Array.replicate n none)).2 } := by
  have hsound : ({ h with blocks := (h.blocks.insert (Array.replicate n none)).2 } : Heap).Sound :=
    ⟨hs.objects, hs.blocks.insert hroom _⟩
  have hget := hs.blocks.get?_insert hroom (Array.replicate n none)
  have hsize := Arena.size_insert h.blocks (Array.replicate n none)
  have hfresh := hs.blocks.get?_insert_self hroom (Array.replicate n none)
  generalize h.blocks.insert (Array.replicate n none) = r at hsound hget hsize hfresh ⊢
  have ht : Touches r.1 h { h with blocks := r.2 } :=
    ⟨hsound, rfl, rfl, fun x hx => (hget x).trans (if_neg hx)⟩
  refine ⟨ht, hfresh, ?_, fun ref left right => ?_⟩
  · exact ⟨Array.replicate n none, (hget _).trans (if_pos rfl), Array.size_replicate, by simp⟩
  · refine ht.moves (fun block _ hb => ?_) (fun x hx hn => ?_) ?_ ref
    · rw [hfresh] at hb
      cases hb
    · have : x = r.1 := by
        simp only [List.mem_append, List.mem_cons] at hx hn
        rcases hx with hx | rfl | hx
        · exact absurd (.inl hx) hn
        · rfl
        · exact absurd (.inr hx) hn
      rw [this, hfresh]
    · simp only [hsize, List.length_append, List.length_cons]
      omega

def freed (h : Heap) (b : Handle) : Heap := { h with blocks := h.blocks.erase b }

theorem touches_freed (hs : h.Sound) (hb : h.blocks.contains b = true) :
    Touches b h (h.freed b) where
  sound := ⟨hs.objects, hs.blocks.erase hb⟩
  objects := rfl
  limit := rfl
  others x hx := (Arena.get?_erase hb x).trans (if_neg hx)

theorem moves_freed (hs : h.Sound) (hb : h.blocks.contains b = true) (left right : List Handle)
    (ref : Handle) : Moves ref (left ++ b :: right) (left ++ right) h (h.freed b) := by
  refine (touches_freed hs hb).moves (fun block hn => absurd (by simp) hn) (fun x hx hn => ?_)
    ?_ ref
  · refine absurd ?_ hn
    simp only [List.mem_append, List.mem_cons] at hx ⊢
    exact hx.imp_right .inr
  · rw [← hs.blocks.size_erase hb]
    simp only [freed, List.length_append, List.length_cons]
    omega

/-! ## Properties -/

def assigned (h : Heap) (ref : Handle) (n : Nat) (v : Value) : Heap :=
  { h with objects := h.objects.modify ref fun o =>
      { o with fields := o.fields.setIfInBounds n (some v) } }

theorem width?_assigned (h : Heap) (ref : Handle) (n : Nat) (v : Value) (x : Handle) :
    (h.assigned ref n v).width? x = h.width? x := by
  rw [width?, assigned, Arena.get?_modify, width?]
  split
  · rw [Option.map_map]
    congr 1
    funext o
    exact Array.size_setIfInBounds
  · rfl

theorem field?_assigned_self {w : Nat} (hw : h.width? ref = some w) (hn : n < w) (v : Value) :
    (h.assigned ref n v).field? ref n = some v := by
  obtain ⟨o, ho, rfl⟩ := Option.map_eq_some_iff.mp hw
  rw [field?, assigned, Arena.get?_modify, if_pos rfl, ho]
  simp [hn]

theorem field?_assigned_of_ne {m : Nat} (hm : m ≠ n) (h : Heap) (v : Value) (x : Handle) :
    (h.assigned ref n v).field? x m = h.field? x m := by
  rw [field?, assigned, Arena.get?_modify, field?]
  split
  · cases h.objects.get? x with
    | none => rfl
    | some o => simp [Ne.symm hm]
  · rfl

theorem moves_assigned (hs : h.Sound) (own : List Handle) (n : Nat) (v : Value) :
    Moves ref own own h (h.assigned ref n v) where
  sound := ⟨hs.objects.modify _ _, hs.blocks⟩
  limit := rfl
  objects x hx := by rw [assigned, Arena.get?_modify, if_neg hx]
  types x type hx := by
    rw [type?, assigned, Arena.get?_modify]
    split
    · rwa [Option.map_map]
    · exact hx
  blocks _ _ _ hb := hb
  fresh _ hx hn := absurd hx hn
  size := rfl

structure Instantiates (ref : Handle) (type : StructType) (h h' : Heap) : Prop where
  fresh : h.objects.get? ref = none
  type_eq : h'.type? ref = some type
  width_eq : h'.width? ref = some type.propertyCount
  blocks : h'.blocks = h.blocks
  moves : ∀ own, Moves ref own own h h'

theorem instantiates_insert (hs : h.Sound) (hroom : h.objects.size < 2 ^ 32)
    (type : StructType) :
    Instantiates (h.objects.insert ⟨type, Array.replicate type.propertyCount none⟩).1 type h
      { h with
        objects := (h.objects.insert ⟨type, Array.replicate type.propertyCount none⟩).2 } where
  fresh := hs.objects.get?_insert_self hroom _
  type_eq := by
    rw [type?, hs.objects.get?_insert hroom, if_pos rfl]
    rfl
  width_eq := by
    rw [width?, hs.objects.get?_insert hroom, if_pos rfl]
    simp
  blocks := rfl
  moves own := {
    sound := ⟨hs.objects.insert hroom _, hs.blocks⟩
    limit := rfl
    objects := fun x hx => (hs.objects.get?_insert hroom _ x).trans (if_neg hx)
    types := fun x t hx => by
      rw [Heap.type?, hs.objects.get?_insert hroom, if_neg]
      · exact hx
      · rintro rfl
        rw [Heap.type?, hs.objects.get?_insert_self hroom] at hx
        cases hx
    blocks := fun _ _ _ hb => hb
    fresh := fun _ hx hn => absurd hx hn
    size := rfl }

end Heap

/-! ## Operations on the heap -/

namespace Collection

open Heap

variable {h : Heap} {b b' ref : Handle} {capacity capacity' i n : Nat} {vs ws : List Value}
  {v : Value}

section Slots

variable (hs : h.Sound) (hh : h.Holds b capacity vs) (hc : capacity ≤ UInt64.size)

theorem slotOf_start (hi : i < UInt64.size) (h : Heap) : slotOf ⟨b, 0⟩ i h = .ok ⟨b, i⟩ h := by
  simp [slotOf, hi, pure, EStateM.pure]

include hh hc in
theorem load_eq (hv : vs[i]? = some v) : load ⟨b, 0⟩ i h = .ok v h := by
  have hlt := (List.getElem?_eq_some_iff.mp hv).1
  have hle := hh.length_le
  obtain ⟨block, hb, -, hvs⟩ := hh
  rw [load, bind_of_ok (slotOf_start (by omega) h), Host.access, Heap.load]
  simp only [hb, hvs i v hv]

include hh hc in
theorem store_eq (hi : i < capacity) (v : Value) :
    store ⟨b, 0⟩ i v h = .ok () (h.stored b i v) := by
  obtain ⟨block, hb, rfl, -⟩ := hh
  rw [store, bind_of_ok (slotOf_start (by omega) h), Host.access, Heap.store]
  simp only [hb, hi, if_true, stored]

include hs hh hc in
theorem storeAll_eq (hlen : vs.length + ws.length ≤ capacity) :
    ∃ h', storeAll ⟨b, 0⟩ vs.length ws h = .ok () h' ∧ Rewrites b h h' ∧
      h'.Holds b capacity (vs ++ ws) := by
  induction ws generalizing h vs with
  | nil => exact ⟨h, rfl, .refl hs b, by rwa [List.append_nil]⟩
  | cons w ws ih =>
    rw [List.length_cons] at hlen
    have hstored := rewrites_stored hs b vs.length w
    have hpush := hh.push (by omega) w
    obtain ⟨h', hall, hr, hh'⟩ := ih hstored.sound hpush (by
      rw [List.length_append, List.length_singleton]; omega)
    rw [List.length_append, List.length_singleton] at hall
    refine ⟨h', ?_, hstored.trans hr, by rwa [List.append_assoc] at hh'⟩
    rw [storeAll, bind_of_ok (store_eq hh hc (by omega) w), hall]

include hh hc in
/-- The slot in which a value is found is the first one of a value that equals it. -/
theorem findSlot_eq (hws : ∀ (j : Nat) w, ws[j]? = some w → vs[i + j]? = some w) :
    findSlot ⟨b, 0⟩ v i ws.length h = .ok ((ws.findIdx? (· == v)).map (i + ·)) h := by
  induction ws generalizing i with
  | nil => rfl
  | cons w ws ih =>
    have hload : load ⟨b, 0⟩ i h = .ok w h := load_eq hh hc (hws 0 w rfl)
    rw [List.length_cons, findSlot, bind_of_ok hload, List.findIdx?_cons]
    split
    · rfl
    · rw [ih fun j w hj => by
        rw [Nat.add_assoc, Nat.add_comm 1 j]
        exact hws (j + 1) w hj]
      simp [Option.map_map, Function.comp_def, Nat.add_comm, Nat.add_left_comm]

include hh hc in
theorem findSlot_start : findSlot ⟨b, 0⟩ v 0 vs.length h = .ok (vs.findIdx? (· == v)) h := by
  have hfind : findSlot ⟨b, 0⟩ v 0 vs.length h = .ok ((vs.findIdx? (· == v)).map (0 + ·)) h :=
    findSlot_eq hh hc fun j w hj => by rwa [Nat.zero_add]
  simpa using hfind

end Slots

theorem shiftDown_eq {left right : List Value} (hs : h.Sound)
    (hh : h.Holds b capacity (left ++ v :: right)) (hc : capacity ≤ UInt64.size) :
    ∃ h' w, shiftDown ⟨b, 0⟩ (left.length + 1) right.length h = .ok () h' ∧ Rewrites b h h' ∧
      h'.Holds b capacity (left ++ right ++ [w]) := by
  induction right generalizing h left v with
  | nil => exact ⟨h, v, rfl, .refl hs b, by simpa using hh⟩
  | cons y right ih =>
    have hle := hh.length_le
    rw [List.length_append, List.length_cons] at hle
    have hload : load ⟨b, 0⟩ (left.length + 1) h = .ok y h := load_eq hh hc (by simp)
    have hstore := store_eq hh hc (show left.length < capacity by omega) y
    have hstored := rewrites_stored hs b left.length y
    have hset := hh.set left.length y
    have hlist : (left ++ v :: y :: right).set left.length y = left ++ [y] ++ y :: right := by simp
    rw [hlist] at hset
    obtain ⟨h', w, hshift, hr, hh'⟩ := ih hstored.sound hset
    refine ⟨h', w, ?_, hstored.trans hr, by simpa using hh'⟩
    rw [List.length_append, List.length_singleton] at hshift
    rw [List.length_cons, shiftDown, bind_of_ok hload, Nat.add_sub_cancel, bind_of_ok hstore,
      hshift]

theorem copySlots_eq (hs : h.Sound) (hh : h.Holds b capacity vs) (hc : capacity ≤ UInt64.size)
    (hh' : h.Holds b' capacity' (vs.take i)) (hc' : capacity' ≤ UInt64.size) (hne : b ≠ b')
    (hlen : i + n ≤ vs.length) (hroom : i + n ≤ capacity') :
    ∃ h', copySlots ⟨b, 0⟩ ⟨b', 0⟩ i n h = .ok () h' ∧ Rewrites b' h h' ∧
      h'.Holds b' capacity' (vs.take (i + n)) := by
  induction n generalizing h i with
  | zero => exact ⟨h, rfl, .refl hs b', hh'⟩
  | succ n ih =>
    have hlt : i < vs.length := by omega
    have hload := load_eq hh hc (List.getElem?_eq_getElem hlt)
    have hlength : (vs.take i).length = i := List.length_take_of_le (Nat.le_of_lt hlt)
    have hstored := rewrites_stored hs b' i vs[i]
    have hstore := store_eq hh' hc' (show i < capacity' by omega) vs[i]
    have hpush := hh'.push (by omega) vs[i]
    rw [hlength, List.take_append_getElem hlt] at hpush
    obtain ⟨h', hcopy, hr, hcopied⟩ :=
      ih hstored.sound (hstored.holds hne hh) hpush (by omega) (by omega)
    refine ⟨h', ?_, hstored.trans hr, ?_⟩
    · rw [copySlots, bind_of_ok hload, bind_of_ok hstore, hcopy]
    · rwa [Nat.add_assoc, Nat.add_comm 1 n] at hcopied

theorem exists_newBlock (hs : h.Sound) (hroom : h.blocks.size < 2 ^ 32)
    (hn : n ≤ h.maxBlockSlots) :
    ∃ b h', Host.access (Heap.newBlock n) h = .ok ⟨b, 0⟩ h' ∧ Allocates b n h h' := by
  refine ⟨_, _, ?_, allocates_insert hs hroom n⟩
  simp only [Host.access, Heap.newBlock, hn, if_true]

theorem exists_newObject (hs : h.Sound) (hroom : h.objects.size < 2 ^ 32) (type : StructType) :
    ∃ ref h', Host.access (Heap.newObject type) h = .ok ref h' ∧
      Instantiates ref type h h' :=
  ⟨_, _, rfl, instantiates_insert hs hroom type⟩

theorem newBlock_fails (hn : ¬ n ≤ h.maxBlockSlots) : Host.access (Heap.newBlock n) h =
    .error (.trap (.allocationTooLarge n h.maxBlockSlots)) h := by
  simp only [Host.access, Heap.newBlock, hn, if_false]
  rfl

theorem freeBlock_eq (hb : h.blocks.contains b = true) :
    Host.access (Heap.freeBlock ⟨b, 0⟩) h = .ok () (h.freed b) := by
  simp only [Host.access, Heap.freeBlock, hb, if_true]
  rfl

/-- The values move to a new block, and the old one is given up. -/
theorem reallocate_eq (hs : h.Sound) (hroom : h.blocks.size < 2 ^ 32)
    (hlimit : h.maxBlockSlots < UInt64.size) (hh : h.Holds b capacity vs)
    (hc : capacity ≤ h.maxBlockSlots) (hlen : vs.length ≤ capacity')
    (hc' : capacity' ≤ h.maxBlockSlots) :
    ∃ b' h', reallocate ⟨b, 0⟩ vs.length capacity' h = .ok ⟨b', 0⟩ h' ∧
      h'.objects = h.objects ∧ h.blocks.get? b' = none ∧ h'.Holds b' capacity' vs ∧
      (∀ x capacity vs, x ≠ b → h.Holds x capacity vs → h'.Holds x capacity vs) ∧
      ∀ ref left right, Moves ref (left ++ b :: right) (left ++ b' :: right) h h' := by
  obtain ⟨b', h₁, hnew, ha⟩ := exists_newBlock hs hroom hc'
  have hne := ha.ne hh
  have hstart : h₁.Holds b' capacity' (vs.take 0) := ha.empty
  obtain ⟨h₂, hcopy, hr, hheld⟩ := copySlots_eq ha.sound (ha.kept hh) (by omega) hstart (by omega)
    hne (Nat.le_of_eq (Nat.zero_add _)) (by omega)
  rw [Nat.zero_add, List.take_length] at hheld
  have hlive : h₂.blocks.contains b = true := by
    obtain ⟨block, hb, -⟩ := hr.holds hne (ha.kept hh)
    exact Arena.contains_of_get? hb
  have hf := touches_freed hr.sound hlive
  refine ⟨b', h₂.freed b, ?_, ?_, ha.fresh, hf.holds (Ne.symm hne) hheld, ?_, ?_⟩
  · rw [reallocate, bind_of_ok hnew, bind_of_ok hcopy, bind_of_ok (freeBlock_eq hlive)]
    rfl
  · rw [hf.objects, hr.objects, ha.objects]
  · intro x capacity vs hx hxh
    exact hf.holds hx (hr.holds (ha.ne hxh) (ha.kept hxh))
  · intro ref left right
    have hcopied : Moves ref (left ++ b' :: b :: right) (left ++ b' :: b :: right) h₁ h₂ :=
      hr.moves (by simp) ref
    have hfreed := moves_freed hr.sound hlive (left ++ [b']) right ref
    rw [List.append_assoc, List.append_assoc] at hfreed
    exact ((ha.moves ref left (b :: right)).trans hcopied).trans hfreed

theorem reallocate_fails (hn : ¬ capacity' ≤ h.maxBlockSlots) (p : Pointer) (count : Nat) :
    reallocate p count capacity' h =
      .error (.trap (.allocationTooLarge capacity' h.maxBlockSlots)) h := by
  rw [reallocate, bind_of_error (newBlock_fails hn)]

/-! ## Reading and writing properties -/

theorem getField_eq (hv : h.field? ref n = some v) :
    Host.access (Heap.getField ref n) h = .ok v h := by
  obtain ⟨o, ho, hv⟩ := Option.bind_eq_some_iff.mp hv
  simp only [Host.access, Heap.getField, ho, Option.join_eq_some_iff.mp hv]

theorem getField_fails (hv : h.field? ref n = none) :
    ∃ e, Host.access (Heap.getField ref n) h = .error e h := by
  simp only [Host.access, Heap.getField]
  cases ho : h.objects.get? ref with
  | none => exact ⟨_, rfl⟩
  | some o =>
    rw [field?, ho] at hv
    cases hf : o.fields[n]? with
    | none => exact ⟨_, by simp only [hf]; rfl⟩
    | some slot =>
      cases slot with
      | none => exact ⟨_, by simp only [hf]; rfl⟩
      | some v =>
        rw [Option.bind_some, hf] at hv
        cases hv

theorem pointerField_eq {p : Pointer} (hp : h.field? ref n = some (.pointer p)) :
    pointerField ref n h = .ok p h := by
  rw [pointerField, bind_of_ok (getField_eq hp)]
  rfl

theorem pointerField_fails (hp : ∀ p, h.field? ref n ≠ some (.pointer p)) :
    ∃ e, pointerField ref n h = .error e h := by
  rw [pointerField]
  cases hv : h.field? ref n with
  | none =>
    obtain ⟨e, he⟩ := getField_fails hv
    exact ⟨e, bind_of_error he⟩
  | some v =>
    rw [bind_of_ok (getField_eq hv)]
    cases v with
    | pointer p => exact absurd hv (hp p)
    | _ => exact ⟨_, rfl⟩

theorem sizeField_fails (hn : ∀ k, h.field? ref n ≠ some (.int k)) :
    ∃ e, sizeField ref n h = .error e h := by
  rw [sizeField]
  cases hv : h.field? ref n with
  | none =>
    obtain ⟨e, he⟩ := getField_fails hv
    exact ⟨e, bind_of_error he⟩
  | some v =>
    rw [bind_of_ok (getField_eq hv)]
    cases v with
    | int k => exact absurd hv (hn k)
    | _ => exact ⟨_, rfl⟩

theorem sizeField_eq {size : Nat} (hn : h.field? ref n = some (sizeValue size))
    (hsize : size < 2 ^ 63) : sizeField ref n h = .ok size h := by
  have hint : (Int64.ofNat size).toInt = size := Int64.toInt_ofNat_of_lt hsize
  rw [sizeField, bind_of_ok (getField_eq hn)]
  simp only [sizeValue, hint, Int.natCast_nonneg, if_true, Int.toNat_natCast]
  rfl

theorem sizeField_cases {size : Nat} (hn : h.field? ref n = some (sizeValue size))
    (hsize : size < UInt64.size) :
    size < 2 ^ 63 ∧ sizeField ref n h = .ok size h ∨ ∃ e, sizeField ref n h = .error e h := by
  by_cases hlt : size < 2 ^ 63
  · exact .inl ⟨hlt, sizeField_eq hn hlt⟩
  · right
    have hneg : (Int64.ofNat size).toInt < 0 := by
      rw [Int64.toInt_ofNat', Int.bmod_def]
      simp only [UInt64.size, Int64.size] at hsize ⊢
      omega
    rw [sizeField, bind_of_ok (getField_eq hn)]
    simp only [sizeValue, show ¬ 0 ≤ (Int64.ofNat size).toInt by omega, if_false]
    exact ⟨_, rfl⟩

theorem setField_eq {w : Nat} (hw : h.width? ref = some w) (hn : n < w) (v : Value) :
    setField ref n v h = .ok () (h.assigned ref n v) := by
  obtain ⟨o, ho, rfl⟩ := Option.map_eq_some_iff.mp hw
  simp only [setField, Host.access, Heap.setField, ho, hn, if_true]
  rfl

end Collection

end StackCode
