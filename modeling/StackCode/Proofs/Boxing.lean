import StackCode.Proofs.Arenas
import StackCode.Proofs.Actions
import StackCode.Proofs.Renaming

/-! # A machine that boxes all locals

Locals are plain values until a closure captures them. Here is a machine that puts every local into
a cell as soon as it is bound, and what it means for a state of the one machine to stand for a
state of the other: a cell of the machine that boxes has its place in the other one in a cell or in
a slot of a frame.
-/

namespace StackCode

namespace Machine

/-! ## The machine -/

namespace Boxed

def box (i : Nat) : Exec Unit := do
  match (← get).frame.slot i with
  | .value _ => let _ ← promote i
  | _ => pure ()

/-- Moves so many locals into cells of their own, the first one first. -/
def boxAll : Nat → Exec Unit
  | 0 => pure ()
  | n + 1 => do
    boxAll n
    box n

/-- Executes an instruction other than a return. A local that is bound gets a fresh cell, and a
frame that is entered has its receiver and its arguments in fresh cells. -/
def execute (p : Program) : Instruction → Exec Unit
  | ⟨.defineLocal, i⟩ => Machine.execute p ⟨.defineCell, i⟩
  | i => do
    let depth := (← get).callers.size
    Machine.execute p i
    let s ← get
    if depth < s.callers.size then boxAll s.frame.locals.size

def step (p : Program) : Exec (Option Value) := do
  let i ← fetch
  if i.opcode = .ret then leave p (← pop)
  else
    execute p i
    return none

def runFrom (p : Program) (s : State) : Nat → Ending × Remains
  | 0 => (.unfinished, s.remains)
  | fuel + 1 =>
    match step p s with
    | .error (.trap cause) s => (.trap (.ofTrace cause s.trace), s.remains)
    | .error .fault s => (.fault, s.remains)
    | .ok (some v) s => (.value v, s.remains)
    | .ok none s => runFrom p s fuel

def runOnce (p : Program) (fuel : Nat) : Ending × Remains := runFrom p (start p p.heap 0) fuel

end Boxed

end Machine

/-! ## Cells -/

namespace Machine

/-- Where the one machine keeps what the machine that boxes has in a cell. -/
inductive Place where
  | cell (c : Handle)
  /-- A slot of the frame below which so many others wait. -/
  | slot (depth i : Nat)

def Places : Type := Handle → Option Place

namespace Places

def Shares (w : Places) (c c' : Handle) : Prop := w c' = some (.cell c)

def Grows (w w₁ : Places) : Prop := ∀ c c', w.Shares c c' → w₁.Shares c c'

theorem Grows.refl (w : Places) : w.Grows w := fun _ _ => id

theorem Grows.trans {w w₁ w₂ : Places} (h : w.Grows w₁) (h' : w₁.Grows w₂) : w.Grows w₂ :=
  fun c c' hc => h' c c' (h c c' hc)

def put (w : Places) (a : Handle) (place : Place) : Places :=
  fun c' => if c' = a then some place else w c'

variable {w : Places} {a c c' : Handle} {place : Place}

theorem put_self : w.put a place a = some place := if_pos rfl

theorem put_ne (h : c' ≠ a) : w.put a place c' = w c' := if_neg h

end Places

variable {w w₁ : Places} {m m₁ m' m'₁ : Arena Value} {a c c' : Handle} {d i : Nat}

/-- Cells that are shared hold alike values, and all cells of the one machine are shared. -/
structure Memory (w : Places) (m m' : Arena Value) : Prop where
  sound : m.Sound
  sound' : m'.Sound
  unique : ∀ {c a b}, w.Shares c a → w.Shares c b → a = b
  content : ∀ {c c'}, w.Shares c c' →
    ∃ v v', m.get? c = some v ∧ m'.get? c' = some v' ∧ v.Alike w.Shares v'
  shared : ∀ {c v}, m.get? c = some v → ∃ c', w.Shares c c'

/-- Nothing changes but the place and the content of one cell of the machine that boxes. -/
structure Changes (a : Handle) (w w₁ : Places) (m' m'₁ : Arena Value) : Prop where
  place : ∀ c', c' ≠ a → w₁ c' = w c'
  content : ∀ c', c' ≠ a → m'₁.get? c' = m'.get? c'
  shared : ∀ c, w.Shares c a → w₁.Shares c a

theorem Changes.grows (h : Changes a w w₁ m' m'₁) : w.Grows w₁ := by
  intro c c' hc
  by_cases ha : c' = a
  · subst ha
    exact h.shared c hc
  · rw [Places.Shares, h.place c' ha]
    exact hc

/-- The memory after a change of one cell of the machine that boxes, which is then shared with no
other cell than before. -/
theorem Memory.change (h : Memory w m m') (hc : Changes a w w₁ m' m'₁) (hsound : m₁.Sound)
    (hsound' : m'₁.Sound)
    (hm : ∀ c c', c' ≠ a → w.Shares c c' → m₁.get? c = m.get? c)
    (ha : ∀ c, w₁.Shares c a → (∀ c', w.Shares c c' → c' = a) ∧
      ∃ v v', m₁.get? c = some v ∧ m'₁.get? a = some v' ∧ v.Alike w₁.Shares v')
    (hs : ∀ c v, m₁.get? c = some v → (m.get? c).isSome = true ∨ w₁.Shares c a) :
    Memory w₁ m₁ m'₁ where
  sound := hsound
  sound' := hsound'
  unique := by
    intro c x y hx hy
    by_cases hxa : x = a
    · subst hxa
      by_cases hya : y = x
      · exact hya.symm
      · rw [Places.Shares, hc.place y hya] at hy
        exact ((ha c hx).1 y hy).symm
    · rw [Places.Shares, hc.place x hxa] at hx
      by_cases hya : y = a
      · subst hya
        exact (ha c hy).1 x hx
      · rw [Places.Shares, hc.place y hya] at hy
        exact h.unique hx hy
  content := by
    intro c c' hcc
    by_cases hca : c' = a
    · subst hca
      exact (ha c hcc).2
    · rw [Places.Shares, hc.place c' hca] at hcc
      obtain ⟨v, v', hv, hv', hvv⟩ := h.content hcc
      exact ⟨v, v', (hm c c' hca hcc).trans hv, (hc.content c' hca).trans hv', hvv.mono hc.grows⟩
  shared := by
    intro c v hv
    rcases hs c v hv with hold | hnew
    · obtain ⟨x, hx⟩ := Option.isSome_iff_exists.mp hold
      obtain ⟨c', hc'⟩ := h.shared hx
      exact ⟨c', hc.grows c c' hc'⟩
    · exact ⟨a, hnew⟩

/-! ## States -/

/-- Slots that hold the same, for the machine that boxes perhaps in a cell that no other slot and no
closure has. -/
inductive Slot.Alike (w : Places) (m' : Arena Value) (d i : Nat) : Slot → Slot → Prop where
  | empty : Alike w m' d i .empty .empty
  | value {v v' : Value} (h : v.Alike w.Shares v') : Alike w m' d i (.value v) (.value v')
  | boxed {v v' : Value} {c' : Handle} (hw : w c' = some (.slot d i)) (hc : m'.get? c' = some v')
    (h : v.Alike w.Shares v') : Alike w m' d i (.value v) (.cell c')
  | shared {c c' : Handle} (h : w.Shares c c') : Alike w m' d i (.cell c) (.cell c')

def Avoids (w : Places) (m' : Arena Value) (a : Handle) (d i : Nat) : Prop :=
  m'.get? a = none ∨ w a ≠ some (.slot d i)

theorem Slot.Alike.change {x x' : Slot} (h : Slot.Alike w m' d i x x')
    (hc : Changes a w w₁ m' m'₁) (ha : Avoids w m' a d i) : Slot.Alike w₁ m'₁ d i x x' := by
  cases h with
  | empty => exact .empty
  | value h => exact .value (h.mono hc.grows)
  | @boxed v v' c' hw hv h =>
    have hne : c' ≠ a := by
      rintro rfl
      rcases ha with ha | ha
      · rw [ha] at hv
        cases hv
      · exact ha hw
    exact .boxed ((hc.place c' hne).trans hw) ((hc.content c' hne).trans hv) (h.mono hc.grows)
  | shared h => exact .shared (hc.grows _ _ h)

structure Frame.Alike (w : Places) (m' : Arena Value) (d : Nat) (f f' : Frame) : Prop where
  closure : f.closure.Alike w.Shares f'.closure
  next : f'.next = f.next
  base : f'.base = f.base
  slots : ∀ i, Slot.Alike w m' d i (f.slot i) (f'.slot i)

theorem Frame.Alike.change {f f' : Frame} (h : Frame.Alike w m' d f f')
    (hc : Changes a w w₁ m' m'₁) (ha : ∀ i, Avoids w m' a d i) : Frame.Alike w₁ m'₁ d f f' where
  closure := { h.closure with cells := h.closure.cells.mono hc.grows }
  next := h.next
  base := h.base
  slots i := (h.slots i).change hc (ha i)

/-- States of the two machines that stand for each other. -/
structure State.Alike (w : Places) (s s' : State) : Prop where
  stack : Pointwise (Value.Alike w.Shares) s.stack s'.stack
  frame : s.frame.Alike w s'.heap.cells s.callers.size s'.frame
  callers : ∀ d : Nat, Option.Rel (Frame.Alike w s'.heap.cells d) s.callers[d]? s'.callers[d]?
  heap : s.heap.Alike (.renaming w.Shares s.heap s'.heap) s'.heap
  memory : Memory w s.heap.cells s'.heap.cells
  values : ∀ k, Option.Rel (Value.Alike w.Shares) (s.values.get? k) (s'.values.get? k)
  closures : s'.closures = s.closures
  output : s'.output = s.output
  current : s'.current = s.current

end Machine

theorem Object.Alike.mono {V V' : Value → Value → Prop} {o o' : Object} (h : o.Alike V o')
    (hV : ∀ v v', V v v' → V' v v') : o.Alike V' o' :=
  ⟨h.type, h.fields.mono fun _ _ hx => rel_mono hx hV, h.shaped⟩

theorem Arena.Alike.mono {α : Type} {r r' : α → α → Prop} {x y : Arena α} (h : x.Alike r y)
    (hr : ∀ u v, r u v → r' u v) : x.Alike r' y :=
  ⟨h.slots.mono fun _ _ hs => ⟨hs.1, rel_mono hs.2 hr⟩, h.free, h.live⟩

namespace Machine

variable {w w₁ : Places} {m₁ m'₁ : Arena Value} {a c c' : Handle} {i : Nat} {s s' : State}
  {f' f : Frame}

theorem State.Alike.change (h : s.Alike w s') (hc : Changes a w w₁ s'.heap.cells m'₁)
    (hm : Memory w₁ m₁ m'₁) (ha : ∀ d i, d < s.callers.size → Avoids w s'.heap.cells a d i)
    (hf : Frame.Alike w₁ m'₁ s.callers.size f f') :
    State.Alike w₁ { s with heap := { s.heap with cells := m₁ }, frame := f }
      { s' with heap := { s'.heap with cells := m'₁ }, frame := f' } where
  stack := h.stack.mono fun _ _ hv => hv.mono hc.grows
  frame := hf
  callers d := by
    have hd := h.callers d
    by_cases hlt : d < s.callers.size
    · exact rel_mono hd fun _ _ hg => hg.change hc fun i => ha d i hlt
    · have hnone : s.callers[d]? = none := Array.getElem?_eq_none (by omega)
      have hnone' := (eq_none_iff_of_rel hd).mp hnone
      dsimp only
      rw [hnone, hnone']
      exact .none
  heap := {
    cells := ⟨rfl, rfl⟩
    objects := h.heap.objects.mono fun _ _ ho => ho.mono fun _ _ hv => hv.mono hc.grows
    blocks := h.heap.blocks.mono fun _ _ hb => hb.mono fun _ _ hx =>
      rel_mono hx fun _ _ hv => hv.mono hc.grows
    limit := rfl
    limit' := h.heap.limit' }
  memory := hm
  values k := rel_mono (h.values k) fun _ _ hv => hv.mono hc.grows
  closures := h.closures
  output := h.output
  current := h.current

theorem Frame.Alike.rebind {m' : Arena Value} {d : Nat} {g g' : Frame} {x x' : Slot}
    (h : Frame.Alike w m' d f f') (hw : w.Grows w₁)
    (hothers : ∀ j, j ≠ i → Slot.Alike w₁ m'₁ d j (f.slot j) (f'.slot j)) (hg : Rebinds i x f g)
    (hg' : Rebinds i x' f' g') (hx : Slot.Alike w₁ m'₁ d i x x') :
    Frame.Alike w₁ m'₁ d g g' where
  closure := by
    rw [hg.closure, hg'.closure]
    exact { h.closure with cells := h.closure.cells.mono hw }
  next := by rw [hg.next, hg'.next, h.next]
  base := by rw [hg.base, hg'.base, h.base]
  slots j := by
    by_cases hj : j = i
    · subst hj
      rw [hg.slot, hg'.slot]
      exact hx
    · rw [hg.others j hj, hg'.others j hj]
      exact hothers j hj

theorem Frame.Alike.setSlot {m' : Arena Value} {d : Nat} {x x' : Slot} (h : Frame.Alike w m' d f f')
    (hx : Slot.Alike w m' d i x x') :
    Frame.Alike w m' d (f.setSlot i x) (f'.setSlot i x') :=
  h.rebind (.refl w) (fun j _ => h.slots j) (rebinds_setSlot _ _ _) (rebinds_setSlot _ _ _) hx

namespace State.Alike

variable {f f' : Frame} {x x' : Slot} {v v' : Value}

/-- A slot of the running frame is bound again, in a cell that no other slot has. -/
theorem rebind (h : s.Alike w s') (hc : Changes a w w₁ s'.heap.cells m'₁) (hm : Memory w₁ m₁ m'₁)
    (ha : s'.heap.cells.get? a = none ∨ w a = some (.slot s.callers.size i))
    (hf : Rebinds i x s.frame f) (hf' : Rebinds i x' s'.frame f')
    (hx : Slot.Alike w₁ m'₁ s.callers.size i x x') :
    State.Alike w₁ { s with heap := { s.heap with cells := m₁ }, frame := f }
      { s' with heap := { s'.heap with cells := m'₁ }, frame := f' } := by
  have havoids : ∀ d j, ¬ (d = s.callers.size ∧ j = i) → Avoids w s'.heap.cells a d j := by
    intro d j hne
    rcases ha with ha | ha
    · exact .inl ha
    · right
      rw [ha]
      intro he
      injection he with he
      injection he with hd hj
      exact hne ⟨hd.symm, hj.symm⟩
  refine h.change hc hm (fun d j hd => havoids d j fun he => ?_)
    (h.frame.rebind hc.grows (fun j hj => (h.frame.slots j).change hc (havoids _ j fun he => ?_))
      hf hf' hx)
  · omega
  · exact hj he.2

/-- The machine that boxes binds a slot in a fresh cell, the other one does not. -/
theorem box (h : s.Alike w s') (hroom : s'.heap.cells.size < 2 ^ 32) (hv : v.Alike w.Shares v')
    (hf : Rebinds i (.value v) s.frame f)
    (hf' : Rebinds i (.cell (s'.heap.cells.insert v').1) s'.frame f') :
    ∃ w₁, w.Grows w₁ ∧ State.Alike w₁ { s with frame := f }
      { s' with heap := { s'.heap with cells := (s'.heap.cells.insert v').2 }, frame := f' } := by
  have hfresh := h.memory.sound'.get?_insert_self hroom v'
  have hget := h.memory.sound'.get?_insert hroom v'
  generalize hnew : (s'.heap.cells.insert v').1 = a at hf' hfresh hget
  have hc : Changes a w (w.put a (.slot s.callers.size i)) s'.heap.cells
      (s'.heap.cells.insert v').2 := by
    refine ⟨fun c' hc' => Places.put_ne hc', fun c' hc' => by rw [hget, if_neg hc'],
      fun c hc => ?_⟩
    obtain ⟨_, _, -, hlive, -⟩ := h.memory.content hc
    rw [hfresh] at hlive
    cases hlive
  have hm : Memory (w.put a (.slot s.callers.size i)) s.heap.cells
      (s'.heap.cells.insert v').2 := by
    refine h.memory.change hc h.memory.sound (h.memory.sound'.insert hroom v')
      (fun _ _ _ _ => rfl) (fun c hs => ?_) fun c u hu => .inl (by rw [hu]; rfl)
    rw [Places.Shares, Places.put_self] at hs
    cases hs
  refine ⟨_, hc.grows, h.rebind hc hm (.inl hfresh) hf hf' (.boxed Places.put_self ?_
    (hv.mono hc.grows))⟩
  rw [hget, if_pos rfl]

/-- A slot moves into a fresh cell that is shared from now on, for the machine that boxes perhaps
together with the cell in which it is. -/
theorem share (h : s.Alike w s') (hroom : s.heap.cells.size < 2 ^ 32) (hv : v.Alike w.Shares v')
    (ha : s'.heap.cells.get? a = none ∨ w a = some (.slot s.callers.size i))
    (hsound : m'₁.Sound) (hget : m'₁.get? a = some v')
    (hothers : ∀ c', c' ≠ a → m'₁.get? c' = s'.heap.cells.get? c')
    (hf : Rebinds i (.cell (s.heap.cells.insert v).1) s.frame f)
    (hf' : Rebinds i (.cell a) s'.frame f') :
    ∃ w₁, w.Grows w₁ ∧ w₁.Shares (s.heap.cells.insert v).1 a ∧ State.Alike w₁
      { s with heap := { s.heap with cells := (s.heap.cells.insert v).2 }, frame := f }
      { s' with heap := { s'.heap with cells := m'₁ }, frame := f' } := by
  have hfresh := h.memory.sound.get?_insert_self hroom v
  have hins := h.memory.sound.get?_insert hroom v
  generalize hnew : (s.heap.cells.insert v).1 = c at hf hfresh hins
  have hunshared : ∀ x, ¬ w.Shares x a := by
    intro x hx
    rcases ha with ha | ha
    · obtain ⟨_, _, -, hlive, -⟩ := h.memory.content hx
      rw [ha] at hlive
      cases hlive
    · rw [Places.Shares, ha] at hx
      cases hx
  have hnone : ∀ x, ¬ w.Shares c x := by
    intro x hx
    obtain ⟨_, _, hlive, -, -⟩ := h.memory.content hx
    rw [hfresh] at hlive
    cases hlive
  have hc : Changes a w (w.put a (.cell c)) s'.heap.cells m'₁ :=
    ⟨fun c' hc' => Places.put_ne hc', hothers, fun x hx => absurd hx (hunshared x)⟩
  have hshares : (w.put a (.cell c)).Shares c a := Places.put_self
  have hm : Memory (w.put a (.cell c)) (s.heap.cells.insert v).2 m'₁ := by
    refine h.memory.change hc (h.memory.sound.insert hroom v) hsound (fun x c' _ hx => ?_)
      (fun x hx => ?_) fun x u hu => ?_
    · rw [hins, if_neg]
      rintro rfl
      exact hnone c' hx
    · rw [Places.Shares, Places.put_self] at hx
      injection hx with hx
      injection hx with hx
      subst hx
      exact ⟨fun c' hc' => absurd hc' (hnone c'), v, v', by rw [hins, if_pos rfl], hget,
        hv.mono hc.grows⟩
    · rw [hins] at hu
      split at hu
      · rename_i hx
        exact .inr (hx ▸ hshares)
      · exact .inl (by rw [hu]; rfl)
  exact ⟨_, hc.grows, hshares, h.rebind hc hm ha hf hf' (.shared hshares)⟩

/-- The machine that boxes writes to the cell of a slot, the other one to the slot. -/
theorem writeBoxed (h : s.Alike w s') (ha : w a = some (.slot s.callers.size i))
    (hslot : s'.frame.slot i = .cell a) (hv : v.Alike w.Shares v')
    (hlive : (s'.heap.cells.get? a).isSome = true) :
    State.Alike w { s with frame := s.frame.setSlot i (.value v) }
      { s' with heap := { s'.heap with cells := s'.heap.cells.modify a fun _ => v' } } := by
  have hget := Arena.get?_modify s'.heap.cells a fun _ => v'
  have hc : Changes a w w s'.heap.cells (s'.heap.cells.modify a fun _ => v') :=
    ⟨fun _ _ => rfl, fun c' hc' => by rw [hget, if_neg hc'], fun _ => id⟩
  have hm : Memory w s.heap.cells (s'.heap.cells.modify a fun _ => v') := by
    refine h.memory.change hc h.memory.sound (h.memory.sound'.modify _ _) (fun _ _ _ _ => rfl)
      (fun c hs => ?_)
      fun c u hu => .inl (by rw [hu]; rfl)
    rw [Places.Shares, ha] at hs
    cases hs
  obtain ⟨u, hu⟩ := Option.isSome_iff_exists.mp hlive
  refine h.rebind hc hm (.inr ha) (rebinds_setSlot _ _ _) (rebinds_self hslot) (.boxed ha ?_ hv)
  rw [hget, if_pos rfl, hu, Option.map_some]

theorem writeShared (h : s.Alike w s') (hc : w.Shares c c') (hv : v.Alike w.Shares v') :
    State.Alike w { s with heap := { s.heap with cells := s.heap.cells.modify c fun _ => v } }
      { s' with heap := { s'.heap with cells := s'.heap.cells.modify c' fun _ => v' } } := by
  have hget := Arena.get?_modify s.heap.cells c fun _ => v
  have hget' := Arena.get?_modify s'.heap.cells c' fun _ => v'
  obtain ⟨u, u', hu, hu', -⟩ := h.memory.content hc
  have hch : Changes c' w w s'.heap.cells (s'.heap.cells.modify c' fun _ => v') :=
    ⟨fun _ _ => rfl, fun x hx => by rw [hget', if_neg hx], fun _ => id⟩
  have havoids : ∀ d j, Avoids w s'.heap.cells c' d j := by
    intro d j
    right
    rw [show w c' = some (.cell c) from hc]
    intro he
    cases he
  have hm : Memory w (s.heap.cells.modify c fun _ => v) (s'.heap.cells.modify c' fun _ => v') := by
    refine h.memory.change hch (h.memory.sound.modify _ _) (h.memory.sound'.modify _ _)
      (fun x y hy hx => ?_) (fun x hx => ?_)
      fun x y hx => ?_
    · rw [hget, if_neg]
      rintro rfl
      exact hy (h.memory.unique hx hc)
    · have hxc : x = c := by
        rw [Places.Shares, show w c' = some (.cell c) from hc] at hx
        injection hx with hx
        injection hx with hx
        exact hx.symm
      subst hxc
      exact ⟨fun y hy => h.memory.unique hy hc, v, v',
        by rw [hget, if_pos rfl, hu, Option.map_some],
        by rw [hget', if_pos rfl, hu', Option.map_some], hv⟩
    · rw [hget] at hx
      split at hx
      · rename_i hxc
        rw [hxc, hu]
        exact .inl rfl
      · exact .inl (by rw [hx]; rfl)
  exact h.change hch hm (fun d j _ => havoids d j)
    (h.frame.change hch fun j => havoids s.callers.size j)

theorem setSlot (h : s.Alike w s') (hx : Slot.Alike w s'.heap.cells s.callers.size i x x') :
    State.Alike w { s with frame := s.frame.setSlot i x }
      { s' with frame := s'.frame.setSlot i x' } :=
  { h with frame := h.frame.setSlot hx }

end State.Alike

end Machine

end StackCode
