import StackCode.Proofs.Boxing
import StackCode.Proofs.Steps

/-! # Promotion is invisible

A machine that moves locals into cells when closures capture them computes the same as one that has
all locals in cells, up to the names of cells.
-/

namespace StackCode

namespace Machine

variable {p : Program} {w : Places} {v v' : Value} {vs vs' : List Value} {s s' : State} {α β : Type}
  {c : Handle} {i : Nat}

theorem get_bind (rest : State → Exec α) (s : State) :
    (get >>= rest : Exec α) s = rest s s := rfl

/-! ## The stack -/

theorem push_alike (p : Program) (hv : v.Alike w.Shares v') :
    Parallel (State.Alike w) Eq (push p v) (push p v') := by
  intro s s' h
  unfold push
  rw [h.stack.size_eq]
  split
  · exact .ok ⟨rfl, { h with stack := h.stack.push hv }⟩
  · exact .error _ h

theorem pop_alike : Parallel (State.Alike w) (Value.Alike w.Shares) pop pop := by
  intro s s' h
  have hback := h.stack.back?
  unfold pop
  generalize s.stack.back? = x at hback
  generalize s'.stack.back? = x' at hback
  cases hback with
  | some hv => exact .ok ⟨hv, { h with stack := h.stack.pop }⟩
  | none => exact .error _ h

theorem peek_alike : Parallel (State.Alike w) (Value.Alike w.Shares) peek peek := by
  intro s s' h
  have hback := h.stack.back?
  unfold peek
  generalize s.stack.back? = x at hback
  generalize s'.stack.back? = x' at hback
  cases hback with
  | some hv => exact .ok ⟨hv, h⟩
  | none => exact .error _ h

theorem trap_alike {r : α → β → Prop} (cause : Cause) :
    Parallel (State.Alike w) r (Exec.trap cause : Exec α) (Exec.trap cause : Exec β) := .fails _

theorem ofOption_alike {r : α → β → Prop} {x : Option α} {y : Option β} (h : Option.Rel r x y)
    (cause : Cause) :
    Parallel (State.Alike w) r (Exec.ofOption x cause) (Exec.ofOption y cause) := by
  cases h with
  | some h => exact .done h
  | none => exact trap_alike cause

theorem cutAbove_alike (height : Nat) :
    Parallel (State.Alike w) (List.Forall₂ (Value.Alike w.Shares)) (cutAbove height)
      (cutAbove height) :=
  fun _ _ h => .ok ⟨h.stack.extract height, { h with stack := h.stack.shrink height }⟩

theorem popMany_alike (n : Nat) :
    Parallel (State.Alike w) (List.Forall₂ (Value.Alike w.Shares)) (popMany n) (popMany n) := by
  refine Parallel.read.bind fun s s' h => ?_
  rw [h.stack.size_eq]
  dsimp only
  split
  · exact cutAbove_alike _
  · exact trap_alike _

theorem calleeHeight_alike (n : Nat) :
    Parallel (State.Alike w) Eq (calleeHeight n) (calleeHeight n) := by
  refine Parallel.read.bind fun s s' h => ?_
  rw [h.stack.size_eq]
  dsimp only
  split
  · exact .done rfl
  · exact trap_alike _

theorem valueAt_alike (height : Nat) :
    Parallel (State.Alike w) (Value.Alike w.Shares) (valueAt height) (valueAt height) :=
  Parallel.read.bind fun _ _ h => ofOption_alike (h.stack height) _

/-! ## The heap, locals and captures -/

theorem host_alike {r : α → β → Prop} {op : Host α} {op' : Host β}
    (hop : ∀ h h', Host.Joint (.renaming w.Shares h h') r op op') :
    Parallel (State.Alike w) r (Exec.host op) (Exec.host op') := by
  intro s s' h
  have hr := hop _ _ _ _ h.heap
  unfold Exec.host
  dsimp only
  have hstate : ∀ t t' : Heap, t.Alike (.renaming w.Shares s.heap s'.heap) t' →
      State.Alike w { s with heap := t } { s' with heap := t' } := by
    intro t t' ht
    refine { h with frame := ?_, callers := ?_, heap := ?_, memory := ?_ }
    · rw [ht.cells.2]
      exact h.frame
    · rw [ht.cells.2]
      exact h.callers
    · exact { ht with
        cells := ⟨rfl, rfl⟩, limit := rfl, limit' := ht.limit'.trans ht.limit.symm }
    · rw [ht.cells.1, ht.cells.2]
      exact h.memory
  generalize op s.heap = x at hr
  generalize op' s'.heap = x' at hr
  cases hr with
  | ok hr => exact .ok ⟨hr.1, hstate _ _ hr.2⟩
  | error e hr => exact .error e (hstate _ _ hr.2)

theorem readCell_run (hc : s.heap.cells.get? c = some v) :
    Exec.access (Heap.readCell c) s = .ok v s := by
  simp only [Exec.access, Exec.host, Host.access, Heap.readCell, hc]

theorem readCell_alike {c' : Handle} (hc : w.Shares c c') :
    Parallel (State.Alike w) (Value.Alike w.Shares) (Exec.access (Heap.readCell c))
      (Exec.access (Heap.readCell c')) := by
  intro s s' h
  obtain ⟨v, v', hv, hv', hvv⟩ := h.memory.content hc
  rw [readCell_run hv, readCell_run hv']
  exact .ok ⟨hvv, h⟩

theorem writeCell_run (hc : (s.heap.cells.get? c).isSome = true) :
    Exec.access (Heap.writeCell c v) s =
      .ok () { s with heap := { s.heap with cells := s.heap.cells.modify c fun _ => v } } := by
  simp only [Exec.access, Exec.host, Host.access, Heap.writeCell, Arena.contains, hc, if_true]

theorem writeCell_alike {c' : Handle} (hc : w.Shares c c') (hv : v.Alike w.Shares v') :
    Parallel (State.Alike w) Eq (Exec.access (Heap.writeCell c v))
      (Exec.access (Heap.writeCell c' v')) := by
  intro s s' h
  obtain ⟨u, u', hu, hu', -⟩ := h.memory.content hc
  rw [writeCell_run (by rw [hu]; rfl), writeCell_run (by rw [hu']; rfl)]
  exact .ok ⟨rfl, h.writeShared hc hv⟩

theorem captured_alike (i : Nat) : Parallel (State.Alike w) w.Shares (captured i) (captured i) :=
  Parallel.read.bind fun _ _ h => ofOption_alike (h.frame.closure.cells i) _

theorem getLocal_alike (i : Nat) :
    Parallel (State.Alike w) (Value.Alike w.Shares) (getLocal i) (getLocal i) := by
  intro s s' h
  have hslot := h.frame.slots i
  unfold getLocal
  rw [get_bind, get_bind]
  generalize s.frame.slot i = x at hslot
  generalize s'.frame.slot i = x' at hslot
  cases hslot with
  | empty => exact .error _ h
  | value hv => exact .ok ⟨hv, h⟩
  | shared hc => exact readCell_alike hc s s' h
  | boxed hw hc hv =>
    dsimp only
    rw [readCell_run hc]
    exact .ok ⟨hv, h⟩

theorem setLocal_alike (i : Nat) (hv : v.Alike w.Shares v') :
    Parallel (State.Alike w) Eq (setLocal i v) (setLocal i v') := by
  intro s s' h
  have hslot := h.frame.slots i
  unfold setLocal
  rw [get_bind, get_bind]
  generalize hx : s.frame.slot i = x at hslot
  generalize hx' : s'.frame.slot i = x' at hslot
  cases hslot with
  | empty | value _ => exact .ok ⟨rfl, h.setSlot (.value hv)⟩
  | shared hc => exact writeCell_alike hc hv s s' h
  | @boxed _ _ c' hw hc _ =>
    have hlive : (s'.heap.cells.get? c').isSome = true := by
      rw [hc]
      rfl
    dsimp only
    rw [writeCell_run hlive]
    exact .ok ⟨rfl, h.writeBoxed hw hx' hv hlive⟩

/-! ## Computations that make cells -/

def CellsFit : EStateM.Result Failure State α → Prop :=
  Meets (fun _ s => s.heap.cells.Fits) fun _ s => s.heap.cells.Fits

/-- The computation takes no cell away. -/
def Retains (m : Exec α) : Prop := ∀ s, Meets
  (fun _ t => s.heap.cells.slots.size ≤ t.heap.cells.slots.size)
  (fun _ t => s.heap.cells.slots.size ≤ t.heap.cells.slots.size) (m s)

theorem Retains.bind {m : Exec α} {rest : α → Exec β} (h : Retains m)
    (h' : ∀ a, Retains (rest a)) : Retains (m >>= rest) := by
  intro s
  refine Meets.bind (h s) fun a t ht => ?_
  exact (h' a t).mono (fun _ _ => ht.trans) fun _ _ => ht.trans

theorem retains_of_heap {m : Exec α}
    (h : ∀ s, Meets (fun _ t => t.heap = s.heap) (fun _ t => t.heap = s.heap) (m s)) :
    Retains m := by
  intro s
  refine (h s).mono (fun _ t ht => ?_) fun _ t ht => ?_ <;> rw [ht]

theorem retains_pure (a : α) : Retains (pure a : Exec α) := retains_of_heap fun _ => rfl

theorem retains_read {rest : State → Exec α} (h : ∀ s, Retains (rest s)) :
    Retains (get >>= rest) := (retains_of_heap fun _ => rfl : Retains get).bind h

theorem CellsFit.of_bind {m : Exec α} {rest : α → Exec β} (h : ∀ a, Retains (rest a)) {s : State}
    (hfits : CellsFit ((m >>= rest) s)) : CellsFit (m s) := by
  cases hm : m s with
  | error e t => rwa [bind_of_error hm] at hfits
  | ok a t =>
    have ht := h a t
    rw [bind_of_ok hm] at hfits
    cases hrest : rest a t with
    | ok b u | error e u =>
      rw [hrest] at hfits ht
      exact Nat.le_trans ht hfits

/-! ## Computations that share cells -/

section Evolves

variable {α β α' β' : Type} {r : Places → α → β → Prop} {r' : Places → α' → β' → Prop}
  {m : Exec α} {m' : Exec β}

/-- From alike states, the computations lead to related results and alike states, or they fail in
the same way in alike states, as long as there are handles for all cells. They may share more cells
than before. -/
def Evolves (w : Places) (r : Places → α → β → Prop) (m : Exec α) (m' : Exec β) : Prop :=
  ∀ s s', s.Alike w s' → CellsFit (m s) → CellsFit (m' s') → Paired
    (fun a t b t' => ∃ w₁, w.Grows w₁ ∧ r w₁ a b ∧ t.Alike w₁ t')
    (fun _ t t' => ∃ w₁, State.Alike w₁ t t') (m s) (m' s')

theorem Evolves.of {x : α → β → Prop} (h : Parallel (State.Alike w) x m m')
    (hr : ∀ a b, x a b → r w a b) : Evolves w r m m' := by
  intro s s' hs _ _
  refine (h s s' hs).mono (fun a t b t' hab => ?_) fun _ t t' ht => ⟨w, ht⟩
  exact ⟨w, .refl w, hr a b hab.1, hab.2⟩

theorem Evolves.after {x : α → β → Prop} {rest : α → Exec α'} {rest' : β → Exec β'}
    (h : Parallel (State.Alike w) x m m') (h' : ∀ a b, x a b → Evolves w r' (rest a) (rest' b)) :
    Evolves w r' (m >>= rest) (m' >>= rest') := by
  intro s s' hs hfits hfits'
  have hm := h s s' hs
  generalize hx : m s = x at hm
  generalize hx' : m' s' = x' at hm
  cases hm with
  | ok hab =>
    rw [bind_of_ok hx] at hfits ⊢
    rw [bind_of_ok hx'] at hfits' ⊢
    exact h' _ _ hab.1 _ _ hab.2 hfits hfits'
  | error e ht =>
    rw [bind_of_error hx, bind_of_error hx']
    exact .error e ⟨w, ht⟩

theorem Evolves.bind {rest : α → Exec α'} {rest' : β → Exec β'} (h : Evolves w r m m')
    (hg : ∀ a, Retains (rest a)) (hg' : ∀ b, Retains (rest' b))
    (h' : ∀ w₁, w.Grows w₁ → ∀ a b, r w₁ a b → Evolves w₁ r' (rest a) (rest' b)) :
    Evolves w r' (m >>= rest) (m' >>= rest') := by
  intro s s' hs hfits hfits'
  have hm := h s s' hs (hfits.of_bind hg) (hfits'.of_bind hg')
  generalize hx : m s = x at hm
  generalize hx' : m' s' = x' at hm
  cases hm with
  | error e ht =>
    rw [bind_of_error hx, bind_of_error hx']
    exact .error e ht
  | ok hab =>
    obtain ⟨w₁, hw, hr, ht⟩ := hab
    rw [bind_of_ok hx] at hfits ⊢
    rw [bind_of_ok hx'] at hfits' ⊢
    refine (h' w₁ hw _ _ hr _ _ ht hfits hfits').mono (fun x u y u' hxy => ?_) fun _ _ _ => id
    obtain ⟨w₂, hw₂, hr₂, hu⟩ := hxy
    exact ⟨w₂, hw.trans hw₂, hr₂, hu⟩

end Evolves

def State.promoted (s : State) (i : Nat) (v : Value) : State :=
  { s with
    heap := { s.heap with cells := (s.heap.cells.insert v).2 }
    frame := s.frame.setSlot i (.cell (s.heap.cells.insert v).1) }

theorem promote_cell (h : s.frame.slot i = .cell c) :
    promote i s = .ok c s := by
  unfold promote
  rw [get_bind, h]
  rfl

theorem promote_value (h : s.frame.slot i = .value v) :
    promote i s = .ok (s.heap.cells.insert v).1 (s.promoted i v) := by
  unfold promote
  rw [get_bind, h]
  rfl

theorem promote_empty (h : s.frame.slot i = .empty) :
    promote i s = .ok (s.heap.cells.insert .none).1 (s.promoted i .none) := by
  unfold promote
  rw [get_bind, h]
  rfl

theorem State.Alike.promoted (h : s.Alike w s') (hv : v.Alike w.Shares v') (i : Nat)
    (hfits : (s.promoted i v).heap.cells.Fits) (hfits' : (s'.promoted i v').heap.cells.Fits) :
    ∃ w₁, w.Grows w₁ ∧ w₁.Shares (s.heap.cells.insert v).1 (s'.heap.cells.insert v').1 ∧
      (s.promoted i v).Alike w₁ (s'.promoted i v') := by
  have hroom' := h.memory.sound'.size_lt hfits'
  have hget := h.memory.sound'.get?_insert hroom' v'
  exact h.share (h.memory.sound.size_lt hfits) hv
    (.inl (h.memory.sound'.get?_insert_self hroom' v'))
    (h.memory.sound'.insert hroom' v') (by rw [hget, if_pos rfl])
    (fun c' hc' => by rw [hget, if_neg hc']) (rebinds_setSlot _ _ _) (rebinds_setSlot _ _ _)

theorem promote_evolves (i : Nat) : Evolves w Places.Shares (promote i) (promote i) := by
  intro s s' h hfits hfits'
  have hslot := h.frame.slots i
  generalize hx : s.frame.slot i = x at hslot
  generalize hx' : s'.frame.slot i = x' at hslot
  cases hslot with
  | empty =>
    rw [promote_empty hx] at hfits ⊢
    rw [promote_empty hx'] at hfits' ⊢
    have hnone : Value.none.Alike w.Shares .none := .same trivial
    exact .ok (h.promoted hnone i hfits hfits')
  | value hv =>
    rw [promote_value hx] at hfits ⊢
    rw [promote_value hx'] at hfits' ⊢
    exact .ok (h.promoted hv i hfits hfits')
  | boxed hw hc hv =>
    rw [promote_value hx] at hfits ⊢
    rw [promote_cell hx']
    exact .ok (h.share (h.memory.sound.size_lt hfits) hv (.inr hw) h.memory.sound' hc
      (fun _ _ => rfl) (rebinds_setSlot _ _ _) (rebinds_self hx'))
  | shared hc =>
    rw [promote_cell hx, promote_cell hx']
    exact .ok ⟨w, .refl w, hc, h⟩

theorem State.slots_promoted (s : State) (i : Nat) (v : Value) :
    s.heap.cells.slots.size ≤ (s.promoted i v).heap.cells.slots.size := by
  change _ ≤ (s.heap.cells.insert v).2.slots.size
  unfold Arena.insert
  cases s.heap.cells.free with
  | nil => exact (Array.size_push _).symm ▸ Nat.le_succ _
  | cons i free => exact (Array.size_modify).ge

theorem promote_retains (i : Nat) : Retains (promote i) := by
  intro s
  cases hx : s.frame.slot i with
  | cell c =>
    rw [promote_cell hx]
    exact Nat.le_refl _
  | value v =>
    rw [promote_value hx]
    exact s.slots_promoted i v
  | empty =>
    rw [promote_empty hx]
    exact s.slots_promoted i .none

theorem push_retains (p : Program) (v : Value) : Retains (push p v) := by
  refine retains_of_heap fun s => ?_
  unfold push
  split <;> exact rfl

theorem ofOption_retains (x : Option α) (cause : Cause) : Retains (Exec.ofOption x cause) := by
  refine retains_of_heap fun s => ?_
  cases x <;> exact rfl

theorem captureAll_retains (captures : List Capture) (cells : Array Handle) :
    Retains (captureAll captures cells) := by
  induction captures generalizing cells with
  | nil => exact retains_pure cells
  | cons capture rest ih =>
    obtain ⟨name, i | i⟩ := capture
    · exact (promote_retains i.toNat).bind fun cell => ih _
    · exact (retains_read fun s => ofOption_retains _ _).bind fun cell => ih _

theorem captureAll_evolves (captures : List Capture) :
    ∀ {w : Places} {cells cells' : Array Handle}, Pointwise w.Shares cells cells' →
    Evolves w (fun w₁ => Pointwise w₁.Shares) (captureAll captures cells)
      (captureAll captures cells') := by
  induction captures with
  | nil => exact fun h => .of (.done h) fun _ _ => id
  | cons capture rest ih =>
    intro w cells cells' h
    obtain ⟨name, i | i⟩ := capture
    · exact (promote_evolves i.toNat).bind (fun _ => captureAll_retains _ _)
        (fun _ => captureAll_retains _ _) fun _ hw _ _ hc => ih ((h.mono hw).push hc)
    · exact .after (captured_alike i.toNat) fun _ _ hc => ih (h.push hc)

/-- The machine that boxes moves a local into a cell, the other one does nothing. -/
theorem box_evolves (i : Nat) :
    Evolves w (fun _ _ _ => True) (pure () : Exec Unit) (Boxed.box i) := by
  intro s s' h _ hfits
  have hslot := h.frame.slots i
  unfold Boxed.box at hfits ⊢
  rw [get_bind] at hfits ⊢
  generalize hx : s.frame.slot i = x at hslot
  generalize hx' : s'.frame.slot i = x' at hslot
  cases hslot with
  | empty | shared _ | boxed _ _ _ => exact .ok ⟨w, .refl w, trivial, h⟩
  | @value v v' hv =>
    have hrun : (do let _ ← promote i : Exec Unit) s' = .ok () (s'.promoted i v') :=
      bind_of_ok (promote_value hx')
    rw [hx'] at hfits
    dsimp only at hfits ⊢
    rw [hrun] at hfits ⊢
    obtain ⟨w₁, hw, h₁⟩ := h.box (h.memory.sound'.size_lt hfits) hv (rebinds_self hx)
      (rebinds_setSlot _ _ _)
    exact .ok ⟨w₁, hw, trivial, h₁⟩

theorem box_retains (i : Nat) : Retains (Boxed.box i) := by
  refine retains_read fun s => ?_
  cases s.frame.slot i with
  | value v => exact (promote_retains i).bind fun _ => retains_pure ()
  | cell c | empty => exact retains_pure ()

theorem boxAll_retains : (n : Nat) → Retains (Boxed.boxAll n)
  | 0 => retains_pure ()
  | n + 1 => (boxAll_retains n).bind fun _ => box_retains n

theorem boxAll_evolves (n : Nat) : ∀ {w : Places},
    Evolves w (fun _ _ _ => True) (pure () : Exec Unit) (Boxed.boxAll n) := by
  induction n with
  | zero => exact .of (.done rfl) fun _ _ _ => trivial
  | succ n ih =>
    exact ih.bind (fun _ => retains_pure ()) (fun _ => box_retains n) fun _ _ _ _ _ => box_evolves n

/-! ## Calls -/

/-- No function stands among the constants of the bodies that a run may enter. -/
structure Program.Unclosed (p : Program) : Prop where
  main : p.main.Unclosed
  chunk : ∀ s c, p.chunk? s = some c → c.Unclosed
  initializer : ∀ s c, p.initializer? s = some c → c.Unclosed

theorem State.Alike.callers_size (h : s.Alike w s') : s.callers.size = s'.callers.size :=
  Pointwise.size_eq (r := fun _ _ => True) fun d => rel_mono (h.callers d) fun _ _ _ => trivial

theorem lookup_alike {x : Option (Chunk Value)} (h : ∀ c, x = some c → c.Unclosed)
    (cause : Cause) :
    Parallel (State.Alike w) (fun c c' => c = c' ∧ c.Unclosed) (Exec.ofOption x cause)
      (Exec.ofOption x cause) :=
  ofOption_alike (rel_self fun c hc => ⟨rfl, h c hc⟩) cause

theorem plainClosure_alike {c : Chunk Value} (h : c.Unclosed) (symbol : Symbol) :
    (plainClosure c symbol).Alike w.Shares (plainClosure c symbol) :=
  ⟨rfl, rfl, h, .nil⟩

theorem enter_frame_alike {c c' : Closure Value} (h : c.Alike w.Shares c') (base : Nat)
    (m' : Arena Value) (d : Nat) :
    Frame.Alike w m' d (Frame.enter c base) (Frame.enter c' base) where
  closure := h
  next := rfl
  base := rfl
  slots i := by
    rw [slot_enter, slot_enter]
    exact .empty

theorem Frame.Alike.setSlots {m' : Arena Value} {d : Nat}
    (hvs : List.Forall₂ (Value.Alike w.Shares) vs vs') :
    ∀ {f f' : Frame}, Frame.Alike w m' d f f' → ∀ i,
      Frame.Alike w m' d (f.setSlots i vs) (f'.setSlots i vs') := by
  induction hvs with
  | nil => exact fun h _ => h
  | cons hv _ ih => exact fun h i => ih (h.setSlot (.value hv)) (i + 1)

theorem start_alike {f f' : Frame} (hf : ∀ m' d, Frame.Alike w m' d f f') :
    Parallel (State.Alike w) Eq (enter.start f) (enter.start f') := by
  refine Parallel.modified fun s s' h => { h with frame := hf _ _, callers := fun d => ?_ }
  dsimp only
  rw [Array.getElem?_push, Array.getElem?_push, h.callers_size]
  split
  · rename_i hd
    rw [← h.callers_size] at hd
    subst hd
    exact .some h.frame
  · exact h.callers d

theorem enter_alike (p : Program) {c c' : Closure Value} (hc : c.Alike w.Shares c') (base : Nat)
    (hargs : List.Forall₂ (Value.Alike w.Shares) vs vs') (receiver : Option Handle) :
    Parallel (State.Alike w) Eq (enter p c base vs receiver) (enter p c' base vs' receiver) := by
  unfold enter
  rw [hc.chunk, hargs.length_eq]
  dsimp only
  split
  · exact trap_alike _
  refine Parallel.read.bind fun s s' h => ?_
  rw [h.callers_size]
  split
  · exact trap_alike _
  split
  · cases receiver with
    | none => exact trap_alike _
    | some ref =>
      have hreceiver : (Value.object ref).Alike w.Shares (.object ref) := .same trivial
      exact start_alike fun m' d =>
        ((enter_frame_alike hc base m' d).setSlot (.value hreceiver)).setSlots hargs 1
  · exact start_alike fun m' d => (enter_frame_alike hc base m' d).setSlots hargs 0

theorem shrink_alike (height : Nat) :
    Parallel (State.Alike w) Eq
      (modify fun s => { s with stack := s.stack.shrink height } : Exec PUnit)
      (modify fun s => { s with stack := s.stack.shrink height } : Exec PUnit) :=
  Parallel.modified fun _ _ h => { h with stack := h.stack.shrink height }

theorem replaceAbove_alike (p : Program) (height : Nat) {op op' : Host Value}
    (h : ∀ h h', Host.Joint (.renaming w.Shares h h') (Value.Alike w.Shares) op op') :
    Parallel (State.Alike w) Eq (replaceAbove p height op) (replaceAbove p height op') :=
  (shrink_alike height).andThen fun _ => (host_alike h).bind fun _ _ hv => push_alike p hv

theorem resolveChunk_alike (hp : p.Unclosed) (symbol : Symbol) :
    Parallel (State.Alike w) (fun c c' => c = c' ∧ c.Unclosed) (resolveChunk p symbol)
      (resolveChunk p symbol) :=
  lookup_alike (hp.chunk symbol) _

theorem enterBody_alike (hp : p.Unclosed) (symbol : Symbol) (base : Nat)
    (hargs : List.Forall₂ (Value.Alike w.Shares) vs vs') (receiver : Option Handle) :
    Parallel (State.Alike w) Eq
      (do enter p (plainClosure (← resolveChunk p symbol) symbol) base vs receiver)
      (do enter p (plainClosure (← resolveChunk p symbol) symbol) base vs' receiver) := by
  refine (resolveChunk_alike hp symbol).bind fun c c' hc => ?_
  obtain ⟨rfl, hc⟩ := hc
  exact enter_alike p (plainClosure_alike hc symbol) base hargs receiver

theorem callMethod_alike (hp : p.Unclosed) (ref : Handle) (method : Symbol) (height : Nat) :
    Parallel (State.Alike w) Eq (callMethod p ref method height)
      (callMethod p ref method height) := by
  refine (cutAbove_alike _).bind fun args args' hargs => ?_
  split
  · exact replaceAbove_alike p height fun _ _ => Collection.invoke_joint ref False.elim hargs
  · exact enterBody_alike hp method height hargs _

theorem construct_alike (hp : p.Unclosed) (type : StructType) (height : Nat) :
    Parallel (State.Alike w) Eq (construct p type height) (construct p type height) := by
  refine (cutAbove_alike _).bind fun args args' hargs => ?_
  split
  · exact replaceAbove_alike p height fun _ _ => Collection.construct_joint _ False.elim hargs
  refine (host_alike fun _ _ => Host.newObject_joint type).andThen fun ref => ?_
  cases type.initializer with
  | some init => exact enterBody_alike hp init height hargs _
  | none =>
    cases hargs with
    | nil => exact replaceAbove_alike p height fun _ _ => .done (.same trivial)
    | cons _ hs =>
      dsimp only
      rw [List.length_cons, List.length_cons, hs.length_eq]
      exact trap_alike _

theorem print_alike (line : String) :
    Parallel (State.Alike w) Eq
      (modify fun s => { s with output := s.output.push line } : Exec PUnit)
      (modify fun s => { s with output := s.output.push line } : Exec PUnit) :=
  Parallel.modified fun _ _ h => { h with output := congrArg (·.push line) h.output }

theorem callBuiltin_alike (p : Program) (b : Builtin) (height : Nat) (count : UInt8) :
    Parallel (State.Alike w) Eq (callBuiltin p b height count)
      (callBuiltin p b height count) := by
  unfold callBuiltin
  split
  · exact trap_alike _
  refine (cutAbove_alike _).bind fun args args' hargs => (shrink_alike height).andThen fun _ =>
    (host_alike (r := fun x y => x.1.Alike w.Shares y.1 ∧ x.2 = y.2)
      fun _ _ => b.apply_joint hargs).bind fun r r' hr => ?_
  obtain ⟨x, printed⟩ := r
  obtain ⟨x', printed'⟩ := r'
  obtain ⟨hx, hline⟩ := hr
  obtain rfl : printed = printed' := hline
  cases printed with
  | some line => exact (print_alike line).andThen fun _ => push_alike p hx
  | none => exact push_alike p hx

theorem isConstructor_eq {case case' : EnumCase Value}
    (h : (Value.enumCase case).Alike w.Shares (.enumCase case')) :
    case'.isConstructor = case.isConstructor := by
  cases h with
  | same h => cases h
  | enumCase hvs => cases hvs <;> rfl

theorem callCase_alike (p : Program) {case case' : EnumCase Value}
    (h : (Value.enumCase case).Alike w.Shares (.enumCase case')) (height : Nat) (count : UInt8) :
    Parallel (State.Alike w) Eq (callCase p case height count)
      (callCase p case' height count) := by
  unfold callCase
  rw [h.text_eq]
  cases h with
  | same h => cases h
  | enumCase _ =>
    dsimp only
    split
    · exact trap_alike _
    · exact (cutAbove_alike _).bind fun _ _ hvs =>
        replaceAbove_alike p height fun _ _ => .done (.enumCase hvs)

theorem callValue_alike (hp : p.Unclosed) (count : UInt8) :
    Parallel (State.Alike w) Eq (callValue p count) (callValue p count) := by
  refine (calleeHeight_alike _).andThen fun height => (valueAt_alike height).bind
    fun callee callee' hcallee => ?_
  cases hcallee with
  | same _ =>
    cases callee with
    | boundMethod ref method => exact callMethod_alike hp ref method height
    | struct type => exact construct_alike hp type height
    | builtin b => exact callBuiltin_alike p b height count
    | closure _ | enumCase _ => contradiction
    | _ => exact trap_alike _
  | closure hc =>
    exact (cutAbove_alike _).bind fun _ _ hargs => enter_alike p hc height hargs none
  | @enumCase owner name index arity values values' hvs =>
    have hcase : (Value.enumCase ⟨owner, name, index, arity, values⟩).Alike w.Shares
        (.enumCase ⟨owner, name, index, arity, values'⟩) := .enumCase hvs
    dsimp only
    rw [isConstructor_eq hcase]
    split
    · exact callCase_alike p hcase height count
    · exact trap_alike _

theorem expectObject_alike (operation : String) (hv : v.Alike w.Shares v') :
    Parallel (State.Alike w) Eq (expectObject operation v) (expectObject operation v') := by
  cases hv with
  | same _ =>
    cases v with
    | object ref => exact .done rfl
    | _ => exact trap_alike _
  | closure _ | enumCase _ => exact trap_alike _

/-! ## Instructions -/

theorem State.Alike.chunk (h : s.Alike w s') : s'.frame.chunk = s.frame.chunk :=
  h.frame.closure.chunk

theorem fetch_alike : Parallel (State.Alike w) Eq fetch fetch := by
  intro s s' h
  unfold fetch
  dsimp only
  rw [h.chunk, h.frame.next]
  cases Instruction.decode? s.frame.chunk.code s.frame.next with
  | some i => exact .ok ⟨rfl, { h with current := rfl, frame := { h.frame with next := rfl } }⟩
  | none => exact .error _ { h with current := rfl }

theorem constantAt_alike (index : UInt16) :
    Parallel (State.Alike w) (Value.Alike w.Shares) (constantAt index) (constantAt index) := by
  refine Parallel.read.bind fun s s' h => ?_
  rw [h.chunk]
  refine ofOption_alike (rel_self fun v hv => ?_) _
  exact v.alike_self (h.frame.closure.unclosed v (Array.mem_of_getElem? hv))

theorem sameOption_alike (x : Option α) (cause : Cause) :
    Parallel (State.Alike w) Eq (Exec.ofOption x cause) (Exec.ofOption x cause) :=
  ofOption_alike (rel_self fun _ _ => rfl) cause

theorem symbolAt_alike (index : UInt16) :
    Parallel (State.Alike w) Eq (symbolAt index) (symbolAt index) := by
  refine Parallel.read.bind fun s s' h => ?_
  rw [h.chunk]
  exact sameOption_alike _ _

theorem jump_alike (distance : Int16) :
    Parallel (State.Alike w) Eq (jump distance) (jump distance) := by
  refine Parallel.read.bind fun s s' h => ?_
  rw [h.frame.next]
  dsimp only
  split
  · exact Parallel.modified fun t t' ht => { ht with frame := { ht.frame with next := rfl } }
  · exact trap_alike _

theorem enterHere_alike {x : Option (Chunk Value)} (hx : ∀ c, x = some c → c.Unclosed)
    (cause : Cause) (symbol : Symbol) :
    Parallel (State.Alike w) Eq
      (do
        let chunk ← Exec.ofOption x cause
        enter p (plainClosure chunk symbol) (← get).stack.size [] none)
      (do
        let chunk ← Exec.ofOption x cause
        enter p (plainClosure chunk symbol) (← get).stack.size [] none) := by
  refine (lookup_alike hx cause).bind fun c c' hc => Parallel.read.bind fun s s' h => ?_
  obtain ⟨rfl, hc⟩ := hc
  rw [h.stack.size_eq]
  exact enter_alike p (plainClosure_alike hc symbol) _ .nil none

theorem getModuleValue_alike (hp : p.Unclosed) (symbol : Symbol) :
    Parallel (State.Alike w) Eq (getModuleValue p symbol) (getModuleValue p symbol) := by
  refine Parallel.read.bind fun s s' h => ?_
  have hvalue := h.values symbol
  generalize s.values.get? symbol = x at hvalue
  generalize s'.values.get? symbol = x' at hvalue
  cases hvalue with
  | some hv => exact push_alike p hv
  | none => exact enterHere_alike (hp.initializer symbol) _ symbol

theorem setModuleValue_alike (symbol : Symbol) (hv : v.Alike w.Shares v') :
    Parallel (State.Alike w) Eq
      (modify fun s => { s with values := s.values.insert symbol v } : Exec PUnit)
      (modify fun s => { s with values := s.values.insert symbol v' } : Exec PUnit) := by
  refine Parallel.modified fun s s' h => { h with values := fun k => ?_ }
  rw [Table.get?_insert, Table.get?_insert]
  split
  · exact .some hv
  · exact h.values k

theorem makeClosure_evolves (hp : p.Unclosed) (symbol : Symbol) :
    Evolves w (fun _ _ _ => True) (makeClosure p symbol) (makeClosure p symbol) := by
  refine .after (resolveChunk_alike hp symbol) fun c c' hc => ?_
  obtain ⟨rfl, hc⟩ := hc
  refine (captureAll_evolves c.captures.toList .nil).bind
    (fun _ => retains_read fun _ => .bind (retains_of_heap fun _ => rfl) fun _ => push_retains p _)
    (fun _ => retains_read fun _ => .bind (retains_of_heap fun _ => rfl) fun _ => push_retains p _)
    fun w₁ _ cells cells' hcells => ?_
  refine .of (Parallel.read.bind fun s s' h => ?_) fun _ _ (_ : () = ()) => trivial
  rw [h.closures]
  refine (Parallel.modified fun t t' ht => ?_).andThen fun _ => push_alike p ?_
  · exact { ht with closures := rfl }
  · exact .closure ⟨rfl, rfl, hc, hcells⟩

theorem defineCell_evolves (i : UInt8) :
    Evolves w (fun _ _ _ => True) (execute p ⟨.defineCell, i⟩) (execute p ⟨.defineCell, i⟩) := by
  refine .after pop_alike fun v v' hv s s' h hfits hfits' => ?_
  obtain ⟨w₁, hw, -, h₁⟩ := h.promoted hv i.toNat hfits hfits'
  exact .ok ⟨w₁, hw, trivial, h₁⟩

/-- Where the machine that boxes binds a local in a fresh cell, the other one has it in a slot. -/
theorem defineLocal_evolves (i : UInt8) :
    Evolves w (fun _ _ _ => True) (execute p ⟨.defineLocal, i⟩) (execute p ⟨.defineCell, i⟩) := by
  refine .after pop_alike fun v v' hv s s' h _ hfits => ?_
  obtain ⟨w₁, hw, h₁⟩ := h.box (h.memory.sound'.size_lt hfits) hv (rebinds_setSlot _ _ _)
    (rebinds_setSlot _ _ _)
  exact .ok ⟨w₁, hw, trivial, h₁⟩

theorem sensible_alike {e e' : Except Cause Value} (he : e' = e) (hs : Arithmetic.Sensible e) :
    Parallel (State.Alike w) (Value.Alike w.Shares) (Exec.ofExcept e) (Exec.ofExcept e') := by
  subst he
  cases e' with
  | ok v => exact .done (v.alike_of_data hs)
  | error cause => exact trap_alike cause

theorem arithmetic_alike (p : Program) (op : Arithmetic.Operation) :
    Parallel (State.Alike w) Eq (arithmetic p op) (arithmetic p op) :=
  pop_alike.bind fun _ _ hb => pop_alike.bind fun a _ ha =>
    (sensible_alike (ha.binary_eq op hb) (Arithmetic.binary_sensible op a _)).bind
      fun _ _ hv => push_alike p hv

theorem pairs_alike {R : Handle → Handle → Prop} : ∀ {vs vs' : List Value},
    List.Forall₂ (Value.Alike R) vs vs' →
    List.Forall₂ (fun e e' => e.1.Alike R e'.1 ∧ e.2.Alike R e'.2) (pairs vs) (pairs vs')
  | _, _, .nil => .nil
  | _, _, .cons _ .nil => .nil
  | _, _, .cons hk (.cons hv hs) => .cons ⟨hk, hv⟩ (pairs_alike hs)

theorem isCase_eq (owner : Symbol) (index : UInt8) (hv : v.Alike w.Shares v') :
    isCase owner index v' = isCase owner index v := by
  cases hv with
  | same _ | closure _ => rfl
  | enumCase hvs => cases hvs <;> rfl

theorem associated_alike (index : UInt8) (hv : v.Alike w.Shares v') :
    Parallel (State.Alike w) (Value.Alike w.Shares) (associated index v)
      (associated index v') := by
  cases hv with
  | same _ =>
    cases v with
    | enumCase _ => contradiction
    | _ => exact trap_alike _
  | closure _ => exact trap_alike _
  | enumCase hvs =>
    unfold associated
    dsimp only
    rw [hvs.length_eq]
    exact ofOption_alike (getElem?_of_forall₂ hvs _) _

theorem State.Alike.back (h : s.Alike w s') :
    Option.Rel (Frame.Alike w s'.heap.cells (s.callers.size - 1)) s.callers.back?
      s'.callers.back? := by
  rw [Array.back?_eq_getElem?, Array.back?_eq_getElem?, ← h.callers_size]
  exact h.callers _

theorem leave_alike (p : Program) (hv : v.Alike w.Shares v') :
    Parallel (State.Alike w) (Option.Rel (Value.Alike w.Shares)) (leave p v) (leave p v') := by
  refine Parallel.read.bind fun s s' h => ?_
  have hback := h.back
  generalize s.callers.back? = x at hback
  generalize s'.callers.back? = x' at hback
  cases hback with
  | none => exact .done (.some hv)
  | @some f f' hf =>
    dsimp only
    rw [h.frame.base]
    have hleft : State.Alike w
        { s with frame := f, callers := s.callers.pop, stack := s.stack.shrink s.frame.base }
        { s' with
          frame := f', callers := s'.callers.pop, stack := s'.stack.shrink s.frame.base } := by
      refine { h with frame := ?_, callers := fun d => ?_, stack := h.stack.shrink _ }
      · rw [Array.size_pop]
        exact hf
      · dsimp only
        rw [Array.getElem?_pop, Array.getElem?_pop, h.callers_size]
        split
        · exact h.callers d
        · exact .none
    exact (Parallel.written hleft).andThen fun _ => (push_alike p hv).andThen fun _ => .done .none

/-- Instructions that give no local a cell. -/
theorem execute_alike (hp : p.Unclosed) (i : Instruction) (hlocal : i.opcode ≠ .defineLocal)
    (hcell : i.opcode ≠ .defineCell) (hclosure : i.opcode ≠ .makeClosure) :
    Parallel (State.Alike w) Eq (execute p i) (execute p i) := by
  have hsame : ∀ v : Value, v.Simple → Parallel (State.Alike w) Eq (push p v) (push p v) :=
    fun v hv => push_alike p (.same hv)
  obtain ⟨op, operand⟩ := i
  cases op
  case constant => exact (constantAt_alike _).bind fun _ _ hv => push_alike p hv
  case pushNone | pushTrue | pushFalse => exact hsame _ trivial
  case pop => exact pop_alike.bind fun _ _ _ => .done rfl
  case getLocal => exact (getLocal_alike _).bind fun _ _ hv => push_alike p hv
  case setLocal => exact peek_alike.bind fun _ _ hv => setLocal_alike _ hv
  case defineLocal => exact absurd rfl hlocal
  case defineCell => exact absurd rfl hcell
  case getCapture =>
    exact (captured_alike _).bind fun _ _ hc => (readCell_alike hc).bind fun _ _ hv =>
      push_alike p hv
  case setCapture =>
    exact (captured_alike _).bind fun _ _ hc => peek_alike.bind fun _ _ hv => writeCell_alike hc hv
  case getModuleValue => exact (symbolAt_alike _).andThen fun _ => getModuleValue_alike hp _
  case setModuleValue =>
    exact (symbolAt_alike _).andThen fun _ => peek_alike.bind fun _ _ hv =>
      setModuleValue_alike _ hv
  case getModuleFunction =>
    refine (symbolAt_alike _).andThen fun symbol => (resolveChunk_alike hp _).bind fun c c' hc => ?_
    obtain ⟨rfl, hc⟩ := hc
    exact push_alike p (.closure (plainClosure_alike hc symbol))
  case getStruct | getBuiltin =>
    exact (symbolAt_alike _).andThen fun _ => (sameOption_alike _ _).andThen fun _ =>
      hsame _ trivial
  case getSelf =>
    refine Parallel.read.bind fun s s' h => ?_
    rw [h.chunk]
    split
    · exact (getLocal_alike _).bind fun _ _ hv => push_alike p hv
    · exact trap_alike _
  case makeClosure => exact absurd rfl hclosure
  case call => exact callValue_alike hp _
  case callChunk =>
    exact (symbolAt_alike _).andThen fun symbol => enterHere_alike (hp.chunk symbol) _ symbol
  case invokeMethod =>
    exact (symbolAt_alike _).andThen fun _ => (calleeHeight_alike _).andThen fun _ =>
      (valueAt_alike _).bind fun _ _ hv => (expectObject_alike _ hv).andThen fun _ =>
        callMethod_alike hp _ _ _
  case getMethod =>
    exact (symbolAt_alike _).andThen fun _ => pop_alike.bind fun _ _ hv =>
      (expectObject_alike _ hv).andThen fun _ => hsame _ trivial
  case ret => exact .done rfl
  case getProperty =>
    exact pop_alike.bind fun _ _ hv => (expectObject_alike _ hv).andThen fun ref =>
      (host_alike fun _ _ => Host.getField_joint ref _).bind fun _ _ hv => push_alike p hv
  case setProperty =>
    exact pop_alike.bind fun _ _ hv => (expectObject_alike _ hv).andThen fun ref =>
      peek_alike.bind fun _ _ hv => host_alike fun _ _ => Host.setField_joint ref _ hv
  case initArray =>
    exact (popMany_alike _).bind fun _ _ hvs =>
      (host_alike fun _ _ => Collection.Array.create_joint _ hvs).bind fun _ _ hv =>
        push_alike p hv
  case initDict =>
    exact (popMany_alike _).bind fun _ _ hvs =>
      (host_alike fun _ _ => Collection.Dictionary.create_joint _ (pairs_alike hvs)).bind
        fun _ _ hv => push_alike p hv
  case get =>
    exact pop_alike.bind fun _ _ hi => pop_alike.bind fun _ _ hr =>
      (host_alike fun _ _ => Collection.subscript_joint hr hi).bind fun _ _ hv => push_alike p hv
  case setSubscript =>
    exact pop_alike.bind fun _ _ hi => pop_alike.bind fun _ _ hr => peek_alike.bind fun _ _ hv =>
      host_alike fun _ _ => Collection.setSubscript_joint hr hi hv
  case add | subtract | multiply | divide | modulo | less | greater | lessEqual | greaterEqual =>
    exact arithmetic_alike p _
  case negate =>
    exact pop_alike.bind fun v _ hv =>
      (sensible_alike hv.negate_eq (Arithmetic.negate_sensible v)).bind fun _ _ hv =>
        push_alike p hv
  case not =>
    refine pop_alike.bind fun _ _ hv => ?_
    rw [hv.isTruthy_eq]
    exact hsame _ trivial
  case equal =>
    refine pop_alike.bind fun b b' hb => pop_alike.bind fun a a' ha => ?_
    have heq : (a' == b') = (a == b) := ha.beq_eq hb
    rw [heq]
    exact hsame _ trivial
  case notEqual =>
    refine pop_alike.bind fun b b' hb => pop_alike.bind fun a a' ha => ?_
    have heq : (a' == b') = (a == b) := ha.beq_eq hb
    rw [bne, bne, heq]
    exact hsame _ trivial
  case jump | loop => exact jump_alike _
  case jumpIfFalse =>
    refine pop_alike.bind fun _ _ hv => ?_
    rw [hv.isTruthy_eq]
    split
    · exact jump_alike _
    · exact .done rfl
  case matchCase =>
    refine (symbolAt_alike _).andThen fun _ => pop_alike.bind fun _ _ hv => ?_
    rw [isCase_eq _ _ hv]
    exact hsame _ trivial
  case getAssociated =>
    exact pop_alike.bind fun _ _ hv => (associated_alike _ hv).bind fun _ _ hv => push_alike p hv

theorem execute_evolves (hp : p.Unclosed) (i : Instruction) (hlocal : i.opcode ≠ .defineLocal) :
    Evolves w (fun _ _ _ => True) (execute p i) (execute p i) := by
  by_cases hcell : i.opcode = .defineCell
  · obtain ⟨op, operand⟩ := i
    cases hcell
    exact defineCell_evolves operand
  by_cases hclosure : i.opcode = .makeClosure
  · obtain ⟨op, operand⟩ := i
    cases hclosure
    exact .after (symbolAt_alike _) fun symbol _ hs => hs ▸ makeClosure_evolves hp symbol
  exact .of (execute_alike hp i hlocal hcell hclosure) fun _ _ _ => trivial

end Machine

end StackCode
