import StackCode.Proofs.Execution

/-! # Computations on states

What the operations of the machine make out of a state in which the values have a property, the
stack has a height and the frames are as given: they keep the property, as long as what they make
themselves has it. It is also said which frames they enter and which bindings they can miss.
-/

namespace StackCode.Machine

/-- The values outside of the frames have the property, so many of them stand above the height. The
running frame and those that wait are as given. -/
structure Held (K : Terms) (j : Nat) (callers : Array Frame) (f : Frame) (s : State) : Prop
    extends Holds K.p K.O s where
  size : s.stack.size = K.n + j
  frame : s.frame = f
  callers : s.callers = callers

variable {K : Terms} {L : Prop} {callers : Array Frame} {f : Frame} {s : State}

/-! ## The stack -/

variable {α : Type} {i j k : Nat} {args : List Value} {c : Closure Value} {v : Value}

theorem Held.le (h : Held K j callers f s) {xs : Array Value} (hx : xs.size = K.n) :
    xs.size ≤ s.stack.size := by
  have := h.size
  omega

theorem mem_of_mem_pop {a : Array α} {x : α} (h : x ∈ a.pop) : x ∈ a := by
  obtain ⟨k, hk⟩ := Array.mem_iff_getElem?.mp h
  rw [Array.getElem?_pop] at hk
  split at hk
  · exact Array.mem_of_getElem? hk
  · cases hk

theorem push_acts (h : Held K j callers f s) (hv : K.O v) :
    Acts K L (push K.p v) s fun _ => Held K (j + 1) callers f := by
  constructor
  · unfold push
    split
    · rename_i hlt
      exact { h with
        stack := fun w hw => (Array.mem_push.mp hw).elim (h.stack w) fun he => he ▸ hv
        room := by rw [Array.size_push]; omega
        size := by rw [Array.size_push, h.size, Nat.add_assoc] }
    · exact ⟨⟨⟨nofun, fun _ => id⟩, Failure.misses_of_not nofun⟩, h.heap⟩
  · intro xs hx
    have hsize : (s.under xs).stack.size = s.stack.size := size_rebase (h.le hx)
    have hpush : (s.under xs).stack.push v = rebase xs (s.stack.push v) := rebase_push (h.le hx) v
    unfold push
    rw [hsize, hpush]
    split <;> rfl

theorem Held.back? (h : Held K (j + 1) callers f s) : ∃ v, s.stack.back? = some v ∧ K.O v := by
  have hsize := h.size
  have hlt : s.stack.size - 1 < s.stack.size := by omega
  refine ⟨s.stack[s.stack.size - 1], ?_, h.stack _ (Array.getElem_mem hlt)⟩
  rw [Array.back?_eq_getElem?, Array.getElem?_eq_getElem hlt]

theorem popTop_acts (h : Held K (j + 1) callers f s) :
    Acts K L pop s fun v s' => s.stack.back? = some v ∧ Held K j callers f s' := by
  obtain ⟨v, hv, -⟩ := h.back?
  have hsize := h.size
  have hroom := h.room
  constructor
  · unfold pop
    rw [hv]
    exact ⟨rfl, { h with
      stack := fun w hw => h.stack w (mem_of_mem_pop hw)
      room := by rw [Array.size_pop]; omega
      size := by rw [Array.size_pop]; omega }⟩
  · intro xs hx
    have hback : (s.under xs).stack.back? = some v := (back?_rebase (by omega)).trans hv
    have hpop : (s.under xs).stack.pop = rebase xs s.stack.pop := rebase_pop (by omega)
    unfold pop
    rw [hback, hv, hpop]
    rfl

theorem pop_acts (h : Held K (j + 1) callers f s) :
    Acts K L pop s fun v s' => K.O v ∧ Held K j callers f s' :=
  (popTop_acts h).mono fun v _ hv => ⟨h.stack v (Array.mem_of_back? hv.1), hv.2⟩

theorem peek_acts (h : Held K (j + 1) callers f s) :
    Acts K L peek s fun v s' => K.O v ∧ s' = s := by
  obtain ⟨v, hv, hO⟩ := h.back?
  constructor
  · unfold peek
    rw [hv]
    exact ⟨hO, rfl⟩
  · intro xs hx
    have hsize := h.size
    have hback : (s.under xs).stack.back? = some v := (back?_rebase (by omega)).trans hv
    unfold peek
    rw [hback, hv]
    rfl

theorem Held.shrink (h : Held K (j + k) callers f s) :
    Held K j callers f { s with stack := s.stack.shrink (K.n + j) } :=
  { h with
    stack := fun v hv => by
      obtain ⟨i, hi⟩ := Array.mem_iff_getElem?.mp hv
      rw [getElem?_shrink] at hi
      split at hi
      · exact h.stack v (Array.mem_of_getElem? hi)
      · cases hi
    room := by
      have := h.room
      simp
      omega
    size := by
      have := h.size
      simp
      omega }

theorem shrink_acts (h : Held K (j + k) callers f s) :
    Acts K L (modify fun s => { s with stack := s.stack.shrink (K.n + j) }) s fun _ =>
      Held K j callers f := by
  refine .modified (fun xs hx => ?_) h.shrink
  have hshrink : (s.under xs).stack.shrink (K.n + j) = rebase xs (s.stack.shrink (K.n + j)) :=
    rebase_shrink (by omega)
  rw [hshrink]
  rfl

theorem cutAbove_acts (h : Held K (j + k) callers f s) :
    Acts K L (cutAbove (K.n + j)) s fun vs s' =>
      (∀ v ∈ vs, K.O v) ∧ vs.length = k ∧ Held K j callers f s' := by
  have hsize := h.size
  constructor
  · refine ⟨fun v hv => ?_, ?_, h.shrink⟩
    · obtain ⟨i, hi⟩ := Array.mem_iff_getElem?.mp (Array.mem_toList_iff.mp hv)
      rw [Array.getElem?_extract] at hi
      split at hi
      · exact h.stack v (Array.mem_of_getElem? hi)
      · cases hi
    · simp
      omega
  · intro xs hx
    have hcut : (s.under xs).stack.extract (K.n + j) (s.under xs).stack.size =
        s.stack.extract (K.n + j) s.stack.size := extract_rebase (h.le hx) (by omega)
    have hshrink : (s.under xs).stack.shrink (K.n + j) = rebase xs (s.stack.shrink (K.n + j)) :=
      rebase_shrink (by omega)
    unfold cutAbove
    dsimp only
    rw [hcut, hshrink]
    rfl

theorem popMany_acts (h : Held K (j + k) callers f s) :
    Acts K L (popMany k) s fun vs s' => (∀ v ∈ vs, K.O v) ∧ Held K j callers f s' := by
  have hsize := h.size
  refine .read (fun xs hx => ?_) ?_
  · have hs : (s.under xs).stack.size = s.stack.size := size_rebase (h.le hx)
    rw [hs]
  · rw [if_pos (by omega), show s.stack.size - k = K.n + j by omega]
    exact (cutAbove_acts h).mono fun _ _ hw => ⟨hw.1, hw.2.2⟩

theorem calleeHeight_acts (h : Held K (j + 1 + k) callers f s) :
    Acts K L (calleeHeight k) s fun height s' => height = K.n + j ∧ s' = s := by
  have hsize := h.size
  refine .read (fun xs hx => ?_) ?_
  · have hs : (s.under xs).stack.size = s.stack.size := size_rebase (h.le hx)
    rw [hs]
  · rw [if_pos (by omega)]
    exact .done ⟨by omega, rfl⟩

theorem valueAt_acts (h : Held K (j + 1 + k) callers f s) :
    Acts K L (valueAt (K.n + j)) s fun v s' => K.O v ∧ s' = s := by
  have hsize := h.size
  refine .read (fun xs hx => ?_) ?_
  · have hs : (s.under xs).stack[K.n + j]? = s.stack[K.n + j]? := getElem?_rebase (by omega)
    rw [hs]
  · have hlt : K.n + j < s.stack.size := by omega
    refine (Acts.present (by rw [Array.getElem?_eq_getElem hlt]; rfl)).mono fun v _ hv => ?_
    exact ⟨h.stack v (Array.mem_of_getElem? hv.1), hv.2⟩

/-! ## The heap, locals and captures -/

theorem host_acts {op : Host α} {R : α → Prop} (h : Held K j callers f s)
    (hop : Host.Safe K.closed K.O op R) :
    Acts K L (Exec.host op) s fun a s' => R a ∧ Held K j callers f s' := by
  have hr := hop s.heap h.heap.toAll
  constructor
  · unfold Exec.host
    dsimp only
    generalize op s.heap = r at hr ⊢
    cases r with
    | ok a heap => exact ⟨hr.1, { h with heap := ⟨hr.2.1, hr.2.2.trans h.heap.limit⟩ }⟩
    | error e heap =>
      exact ⟨⟨hr.1.1, hr.1.2.mono False.elim⟩, hr.2.1, hr.2.2.trans h.heap.limit⟩
  · intro xs hx
    have hheap : (s.under xs).heap = s.heap := rfl
    unfold Exec.host
    dsimp only
    rw [hheap]
    cases op s.heap <;> rfl

theorem modifyFrame_acts (h : Held K j callers f s) (change : Frame → Frame) :
    Acts K L (modifyFrame change) s fun _ => Held K j callers (change f) :=
  .modified (fun _ _ => rfl) { h with frame := congrArg change h.frame }

structure Rebinds (i : Nat) (x : Slot) (f g : Frame) : Prop where
  closure : g.closure = f.closure
  next : g.next = f.next
  base : g.base = f.base
  slot : g.slot i = x
  others : ∀ j, j ≠ i → g.slot j = f.slot j

theorem rebinds_setSlot (f : Frame) (i : Nat) (x : Slot) : Rebinds i x f (f.setSlot i x) where
  closure := rfl
  next := rfl
  base := rfl
  slot := by
    have hlt : i < (Frame.grow f.locals (i + 1)).size := by
      rw [Frame.grow, Array.size_append, Array.size_replicate]
      omega
    rw [Frame.slot, Frame.setSlot, Array.getElem?_setIfInBounds_self_of_lt hlt]
    rfl
  others j hj := by
    rw [Frame.slot, Frame.slot, Frame.setSlot, Array.getElem?_setIfInBounds_ne hj.symm,
      Frame.grow, Array.getElem?_append]
    split
    · rfl
    · rename_i hlt
      rw [Array.getElem?_eq_none (by omega : f.locals.size ≤ j), Array.getElem?_replicate]
      split <;> rfl

theorem rebinds_self {x : Slot} (h : f.slot i = x) : Rebinds i x f f :=
  ⟨rfl, rfl, rfl, h, fun _ _ => rfl⟩

theorem slot_enter (c : Closure Value) (base i : Nat) : (Frame.enter c base).slot i = .empty := by
  rw [Frame.slot, Frame.enter, Array.getElem?_replicate]
  split <;> rfl

theorem getLocal_acts (h : Held K j callers f s) (hv : ∀ v, f.slot i = .value v → K.O v)
    (hL : f.slot i = .empty → L) :
    Acts K L (getLocal i) s fun v s' => K.O v ∧ Held K j callers f s' := by
  refine .read (fun _ _ => rfl) ?_
  rw [h.frame]
  cases hs : f.slot i with
  | value v => exact .done ⟨hv v hs, h⟩
  | cell c => exact host_acts h (Host.readCell_safe c)
  | empty => exact .misses (Failure.allowed_of_start (by simp)) (hL hs) h.heap

theorem setLocal_acts (h : Held K j callers f s) (i : Nat) (hv : K.O v) :
    Acts K L (setLocal i v) s fun _ s' => (∃ c, f.slot i = .cell c) ∧ Held K j callers f s' ∨
      Held K j callers (f.setSlot i (.value v)) s' := by
  have hset : Acts K L (modifyFrame (·.setSlot i (.value v))) s fun _ s' =>
      Held K j callers (f.setSlot i (.value v)) s' := modifyFrame_acts h _
  refine .read (fun _ _ => rfl) ?_
  rw [h.frame]
  cases hs : f.slot i with
  | cell c =>
    exact (host_acts h (Host.writeCell_safe c hv)).mono fun _ _ hw => .inl ⟨⟨c, rfl⟩, hw.2⟩
  | value w => exact hset.mono fun _ _ => .inr
  | empty => exact hset.mono fun _ _ => .inr

structure Promoted (captures : List Capture) (f g : Frame) : Prop where
  closure : g.closure = f.closure
  base : g.base = f.base
  next : g.next = f.next
  slots : ∀ n, g.slot n = f.slot n ∨ (∃ c, g.slot n = .cell c) ∧
    ∃ x ∈ captures, ∃ i : UInt8, x.source = .slot i ∧ i.toNat = n

theorem promote_acts (hd : ∀ v : Value, v.Data → K.O v) (h : Held K j callers f s)
    (hv : ∀ v, f.slot i = .value v → K.O v) :
    Acts K L (promote i) s fun _ s' => ∃ g, Held K j callers g s' ∧
      (g = f ∨ ∃ c, g = f.setSlot i (.cell c)) := by
  have hbind : ∀ v, K.O v → Acts K L (promote.bindCell i v) s fun _ s' => ∃ g,
      Held K j callers g s' ∧ (g = f ∨ ∃ c, g = f.setSlot i (.cell c)) := by
    intro v hv
    refine (host_acts h (Host.newCell_safe hv)).bind fun c s' hw => ?_
    have hset : Acts K L (modifyFrame (·.setSlot i (.cell c))) s' fun _ =>
        Held K j callers (f.setSlot i (.cell c)) := modifyFrame_acts hw.2 _
    exact hset.bind fun _ _ hw => .done ⟨_, hw, .inr ⟨c, rfl⟩⟩
  refine .read (fun _ _ => rfl) ?_
  rw [h.frame]
  cases hs : f.slot i with
  | cell c => exact .done ⟨f, h, .inl rfl⟩
  | value v => exact hbind v (hv v hs)
  | empty => exact hbind .none (hd _ trivial)

theorem captured_acts (h : Held K j callers f s) (hL : f.closure.cells[i]? = none → L) :
    Acts K L (captured i) s fun _ s' => s' = s := by
  refine .read (fun _ _ => rfl) (.ofOption (fun _ _ => rfl) fun hn => ?_)
  rw [h.frame] at hn
  exact .misses (Failure.allowed_of_start (by simp)) (hL hn) h.heap

def CaptureMissing (f : Frame) (captures : List Capture) : Prop :=
  ∃ x ∈ captures, ∃ i : UInt8, x.source = .capture i ∧ f.closure.cells[i.toNat]? = none

theorem captureAll_acts (hd : ∀ v : Value, v.Data → K.O v) (captures : List Capture)
    (cells : Array Handle) (h : Held K j callers f s) (hv : ∀ n v, f.slot n = .value v → K.O v)
    (hL : CaptureMissing f captures → L) :
    Acts K L (captureAll captures cells) s fun all s' =>
      all.size = cells.size + captures.length ∧
        ∃ g, Promoted captures f g ∧ Held K j callers g s' := by
  induction captures generalizing s f cells with
  | nil => exact .done ⟨rfl, f, ⟨rfl, rfl, rfl, fun _ => .inl rfl⟩, h⟩
  | cons capture rest ih =>
    have hsize : ∀ {c : Handle} {n : Nat}, n = (cells.push c).size + rest.length →
        n = cells.size + (capture :: rest).length := by
      intro c n hn
      rw [hn, Array.size_push, List.length_cons]
      omega
    obtain ⟨name, source⟩ := capture
    cases source with
    | slot i =>
      refine (promote_acts hd h (hv i.toNat)).bind fun c s' hw => ?_
      obtain ⟨g, hg, hgf⟩ := hw
      have hslots : ∀ n, g.slot n = f.slot n ∨ (∃ c, g.slot n = .cell c) ∧ i.toNat = n := by
        intro n
        rcases hgf with rfl | ⟨c, rfl⟩
        · exact .inl rfl
        · have hr := rebinds_setSlot f i.toNat (.cell c)
          by_cases hn : n = i.toNat
          · subst hn
            exact .inr ⟨⟨c, hr.slot⟩, rfl⟩
          · exact .inl (hr.others n hn)
      obtain ⟨hclosure, hbase, hnext⟩ :
          g.closure = f.closure ∧ g.base = f.base ∧ g.next = f.next := by
        rcases hgf with rfl | ⟨c, rfl⟩ <;> exact ⟨rfl, rfl, rfl⟩
      have hvalues : ∀ n v, g.slot n = .value v → K.O v := by
        intro n v hn
        rcases hslots n with he | ⟨⟨c, he⟩, -⟩
        · exact hv n v (he.symm.trans hn)
        · cases he.symm.trans hn
      have hmissing : CaptureMissing g rest → L := by
        rintro ⟨x, hx, j, hs, hn⟩
        exact hL ⟨x, List.mem_cons_of_mem _ hx, j, hs, hclosure ▸ hn⟩
      refine (ih (cells.push c) hg hvalues hmissing).mono fun all s'' ha => ?_
      obtain ⟨ha, g', hg', hh⟩ := ha
      refine ⟨hsize ha, g', ⟨hg'.closure.trans hclosure, hg'.base.trans hbase,
        hg'.next.trans hnext, fun n => ?_⟩, hh⟩
      rcases hg'.slots n with he | ⟨hc, x, hx, hs⟩
      · rcases hslots n with he' | ⟨hc, hn⟩
        · exact .inl (he.trans he')
        · exact .inr ⟨he ▸ hc, _, List.mem_cons_self, i, rfl, hn⟩
      · exact .inr ⟨hc, x, List.mem_cons_of_mem _ hx, hs⟩
    | capture i =>
      have hmissing : f.closure.cells[i.toNat]? = none → L := fun hn =>
        hL ⟨_, List.mem_cons_self, i, rfl, hn⟩
      refine (captured_acts h hmissing).bind fun c s' hs => ?_
      subst hs
      have hrest : CaptureMissing f rest → L := by
        rintro ⟨x, hx, hn⟩
        exact hL ⟨x, List.mem_cons_of_mem _ hx, hn⟩
      refine (ih (cells.push c) h hv hrest).mono fun all s'' ha => ?_
      obtain ⟨ha, g', hg', hh⟩ := ha
      refine ⟨hsize ha, g', ⟨hg'.closure, hg'.base, hg'.next, fun n => ?_⟩, hh⟩
      exact (hg'.slots n).imp_right fun hc =>
        ⟨hc.1, hc.2.imp fun x hx => ⟨List.mem_cons_of_mem _ hx.1, hx.2⟩⟩

/-! ## Calls -/

variable {O : Value → Prop}

theorem setSlots_frame (f : Frame) (i : Nat) (vs : List Value) :
    (f.setSlots i vs).closure = f.closure ∧ (f.setSlots i vs).base = f.base ∧
      (f.setSlots i vs).next = f.next := by
  induction vs generalizing f i with
  | nil => exact ⟨rfl, rfl, rfl⟩
  | cons v vs ih => exact ih (f.setSlot i (.value v)) (i + 1)

theorem slot_setSlots_of_lt (vs : List Value) : ∀ (f : Frame) {i n : Nat}, n < i →
    (f.setSlots i vs).slot n = f.slot n := by
  induction vs with
  | nil => exact fun _ _ _ _ => rfl
  | cons v vs ih =>
    intro f i n hn
    rw [Frame.setSlots, ih _ (Nat.lt_succ_of_lt hn)]
    exact (rebinds_setSlot f i _).others n (Nat.ne_of_lt hn)

theorem slot_setSlots (vs : List Value) : ∀ (f : Frame) (i k : Nat),
    (f.setSlots i vs).slot (i + k) = (vs[k]?.map .value).getD (f.slot (i + k)) := by
  induction vs with
  | nil => exact fun _ _ _ => rfl
  | cons v vs ih =>
    intro f i k
    have hr := rebinds_setSlot f i (.value v)
    rw [Frame.setSlots]
    cases k with
    | zero => exact (slot_setSlots_of_lt vs _ (Nat.lt_succ_self i)).trans hr.slot
    | succ k =>
      rw [show i + (k + 1) = i + 1 + k by omega, ih, List.getElem?_cons_succ,
        hr.others (i + 1 + k) (by omega)]

structure Started (O : Value → Prop) (c : Closure Value) (g : Frame) : Prop where
  closure : g.closure = c
  next : g.next = 0
  slots : ∀ n, g.slot n = .empty ∨ ∃ v, O v ∧ g.slot n = .value v
  bound : ∀ n, n < (if c.chunk.hasReceiver then 1 else 0) + c.chunk.arity.toNat →
    g.slot n ≠ .empty
  receiver : c.chunk.hasReceiver = true → ∃ ref, g.slot 0 = .value (.object ref)

theorem slots_of_args {f : Frame} (hargs : ∀ v ∈ args, O v)
    (hf : ∀ n, f.slot n = .empty ∨ ∃ v, O v ∧ f.slot n = .value v)
    (hb : ∀ n, n < i → f.slot n ≠ .empty) :
    (∀ n, (f.setSlots i args).slot n = .empty ∨
      ∃ v, O v ∧ (f.setSlots i args).slot n = .value v) ∧
    ∀ n, n < i + args.length → (f.setSlots i args).slot n ≠ .empty := by
  have hafter : ∀ n, i ≤ n → (f.setSlots i args).slot n =
      (args[n - i]?.map .value).getD (f.slot n) := by
    intro n hn
    have hs := slot_setSlots args f i (n - i)
    rwa [show i + (n - i) = n by omega] at hs
  refine ⟨fun n => ?_, fun n hn => ?_⟩
  · rcases Nat.lt_or_ge n i with hlt | hge
    · rw [slot_setSlots_of_lt args f hlt]
      exact hf n
    · rw [hafter n hge]
      cases hv : args[n - i]? with
      | none => exact hf n
      | some v => exact .inr ⟨v, hargs v (List.mem_of_getElem? hv), rfl⟩
  · rcases Nat.lt_or_ge n i with hlt | hge
    · rw [slot_setSlots_of_lt args f hlt]
      exact hb n hlt
    · rw [hafter n hge, List.getElem?_eq_getElem (by omega)]
      exact nofun

theorem started_plain (hr : c.chunk.hasReceiver = false) (hlen : args.length = c.chunk.arity.toNat)
    (hargs : ∀ v ∈ args, O v) (base : Nat) :
    Started O c ((Frame.enter c base).setSlots 0 args) := by
  have hf := setSlots_frame (Frame.enter c base) 0 args
  obtain ⟨hslots, hbound⟩ := slots_of_args (f := Frame.enter c base) (i := 0) hargs
    (fun n => .inl (slot_enter c base n)) fun n hn => absurd hn (Nat.not_lt_zero n)
  refine ⟨hf.1, hf.2.2, hslots, fun n hn => hbound n ?_,
    fun h => absurd (h.symm.trans hr) (by simp)⟩
  rw [hr] at hn
  simpa [hlen] using hn

theorem started_method (hd : ∀ v : Value, v.Data → O v) (hr : c.chunk.hasReceiver = true)
    (hlen : args.length = c.chunk.arity.toNat) (hargs : ∀ v ∈ args, O v) (base : Nat) (ref : Handle)
    :
    Started O c (((Frame.enter c base).setSlot 0 (.value (.object ref))).setSlots 1 args) := by
  have hself := rebinds_setSlot (Frame.enter c base) 0 (.value (.object ref))
  have hf := setSlots_frame ((Frame.enter c base).setSlot 0 (.value (.object ref))) 1 args
  have hfirst : ∀ n, ((Frame.enter c base).setSlot 0 (.value (.object ref))).slot n = .empty ∨
      ∃ v, O v ∧ ((Frame.enter c base).setSlot 0 (.value (.object ref))).slot n = .value v := by
    intro n
    by_cases hn : n = 0
    · subst hn
      exact .inr ⟨.object ref, hd _ trivial, hself.slot⟩
    · exact .inl ((hself.others n hn).trans (slot_enter c base n))
  obtain ⟨hslots, hbound⟩ := slots_of_args hargs hfirst (i := 1) fun n hn => by
    rw [show n = 0 by omega, hself.slot]
    exact nofun
  refine ⟨hf.1, hf.2.2, hslots, fun n hn => hbound n ?_, fun _ => ⟨ref, ?_⟩⟩
  · rw [hr] at hn
    simpa [hlen] using hn
  · rw [slot_setSlots_of_lt args _ Nat.zero_lt_one]
    exact hself.slot

def Enters (K : Terms) (base j : Nat) (callers : Array Frame) (f : Frame) (c : Closure Value)
    (s : State) : Prop :=
  ∃ g, Started K.O c g ∧ g.base = base ∧ Held K j (callers.push f) g s

theorem start_acts (h : Held K j callers f s) {g : Frame} (hg : Started K.O c g) :
    Acts K L (enter.start g) s fun _ => Enters K g.base j callers f c :=
  .modified (fun _ _ => rfl)
    ⟨g, hg, rfl, { h with frame := rfl, callers := by rw [h.frame, h.callers] }⟩

theorem enter_acts (hd : ∀ v : Value, v.Data → K.O v) (h : Held K j callers f s)
    (hargs : ∀ v ∈ args, K.O v) (base : Nat) {receiver : Option Handle}
    (hL : c.chunk.hasReceiver = true → receiver = none → L) :
    Acts K L (enter K.p c base args receiver) s fun _ => Enters K base j callers f c := by
  unfold enter
  dsimp only
  split
  · exact .trap ⟨nofun, id, nofun⟩ h.heap
  rename_i hlen
  have hlen : args.length = c.chunk.arity.toNat := Decidable.not_not.mp hlen
  refine .read (fun _ _ => rfl) ?_
  split
  · exact .trap ⟨nofun, id, nofun⟩ h.heap
  split
  · rename_i hr
    cases receiver with
    | none =>
      refine .misses (Failure.allowed_of_end ?_) (hL hr rfl) h.heap
      simp [List.getLast?_append]
    | some ref =>
      have hb := (setSlots_frame ((Frame.enter c base).setSlot 0 (.value (.object ref))) 1 args).2.1
      have hs := start_acts (L := L) h (started_method hd hr hlen hargs base ref)
      rwa [hb] at hs
  · rename_i hr
    have hb := (setSlots_frame (Frame.enter c base) 0 args).2.1
    have hs := start_acts (L := L) h (started_plain (Bool.eq_false_iff.mpr hr) hlen hargs base)
    rwa [hb] at hs

theorem resolveChunk_acts (h : Held K j callers f s) {symbol : Symbol}
    (hs : K.closed → (K.p.chunk? symbol).isSome) :
    Acts K L (resolveChunk K.p symbol) s fun c s' => K.p.chunk? symbol = some c ∧ s' = s :=
  .lookup h.heap hs symbol

theorem replaceAbove_acts (h : Held K (j + k) callers f s) {op : Host Value}
    (hop : Host.Safe K.closed K.O op K.O) :
    Acts K L (replaceAbove K.p (K.n + j) op) s fun _ => Held K (j + 1) callers f :=
  (shrink_acts h).bind fun _ _ hw => (host_acts hw hop).bind fun _ _ hv => push_acts hv.2 hv.1

/-- What an instruction makes out of values has the property if these have it. -/
structure Yields (p : Program) (f : Frame) (i : Instruction) (O : Value → Prop) : Prop where
  data : ∀ v : Value, v.Data → O v
  slot : ∀ n v, f.slot n = .value v → O v
  constant : ∀ n v, i = ⟨.constant, n⟩ → f.chunk.constant? n = some v → O v
  part : ∀ (c : EnumCase Value) v, O (.enumCase c) → v ∈ c.values → O v
  complete : ∀ (c : EnumCase Value) values, O (.enumCase c) → values.length = c.arity.toNat →
    (∀ v ∈ values, O v) → O (.enumCase { c with values })
  function : ∀ n symbol c, i = ⟨.getModuleFunction, n⟩ → f.chunk.symbol? n = some symbol →
    p.chunk? symbol = some c → O (.closure (plainClosure c symbol))
  struct : ∀ n symbol type, i = ⟨.getStruct, n⟩ → f.chunk.symbol? n = some symbol →
    p.structType? symbol = some type → O (.struct type)
  method : ∀ n symbol ref, i = ⟨.getMethod, n⟩ → f.chunk.symbol? n = some symbol →
    O (.boundMethod ref symbol)
  closure : ∀ n symbol c id cells, i = ⟨.makeClosure, n⟩ → f.chunk.symbol? n = some symbol →
    p.chunk? symbol = some c → cells.size = c.captures.size → O (.closure ⟨id, c, cells⟩)

/-- In a closed program, what an instruction refers to and what values refer to leads somewhere. -/
structure Closes (p : Program) (f : Frame) (i : Instruction) (O : Value → Prop) : Prop where
  resolves : Resolves p f.chunk i
  struct : ∀ type, O (.struct type) → Constructs p type
  method : ∀ ref method, O (.boundMethod ref method) → Invokes p method

inductive Callee (p : Program) (O : Value → Prop) (f : Frame) : Instruction → Closure Value → Prop
    where
  | closure {n : UInt8} {c : Closure Value} (h : O (.closure c)) : Callee p O f ⟨.call, n⟩ c
  | method {n : UInt8} {ref : Handle} {symbol : Symbol} {c : Chunk Value}
      (h : O (.boundMethod ref symbol)) (hc : p.chunk? symbol = some c) :
      Callee p O f ⟨.call, n⟩ (plainClosure c symbol)
  | initializer {n : UInt8} {type : StructType} {symbol : Symbol} {c : Chunk Value}
      (h : O (.struct type)) (hs : type.symbol.isStandard = false)
      (hi : type.initializer = some symbol) (hc : p.chunk? symbol = some c) :
      Callee p O f ⟨.call, n⟩ (plainClosure c symbol)
  | invoked {n : Selector} {symbol : Symbol} {c : Chunk Value}
      (hs : f.chunk.symbol? n.symbol = some symbol) (hc : p.chunk? symbol = some c) :
      Callee p O f ⟨.invokeMethod, n⟩ (plainClosure c symbol)
  | chunk {n : UInt16} {symbol : Symbol} {c : Chunk Value} (hs : f.chunk.symbol? n = some symbol)
      (hc : p.chunk? symbol = some c) : Callee p O f ⟨.callChunk, n⟩ (plainClosure c symbol)
  | value {n : UInt16} {symbol : Symbol} {c : Chunk Value} (hs : f.chunk.symbol? n = some symbol)
      (hc : p.initializer? symbol = some c) :
      Callee p O f ⟨.getModuleValue, n⟩ (plainClosure c symbol)

/-- A call either gives its result at once or enters a frame above the place of the callee. -/
def Calls (K : Terms) (j : Nat) (callers : Array Frame) (f : Frame) (i : Instruction) (s : State) :
    Prop :=
  Held K (j + 1) callers f s ∨
    ∃ c, Callee K.p K.O f i c ∧ Enters K (K.n + j) (j + 1) callers f c s

section Calls

variable (hd : ∀ v : Value, v.Data → K.O v) {i : Instruction}
include hd

theorem callMethod_acts (h : Held K (j + 1 + k) callers f s) (ref : Handle) {method : Symbol}
    (hm : K.closed → Invokes K.p method)
    (hc : ∀ c, K.p.chunk? method = some c → Callee K.p K.O f i (plainClosure c method)) :
    Acts K L (callMethod K.p ref method (K.n + j)) s fun _ => Calls K j callers f i := by
  refine (cutAbove_acts h).bind fun args s₁ hw => ?_
  unfold Invokes at hm
  split
  · rename_i hstd
    rw [if_pos hstd] at hm
    exact (replaceAbove_acts hw.2.2 (Collection.invoke_safe hd ref hm hw.1)).mono fun _ _ => .inl
  · rename_i hstd
    rw [if_neg hstd] at hm
    refine (resolveChunk_acts hw.2.2 hm).looks fun c hs => ?_
    exact (enter_acts hd hw.2.2 hw.1 _ nofun).mono fun _ _ he => .inr ⟨_, hc c hs, he⟩

theorem construct_acts (h : Held K (j + 1 + k) callers f s) {type : StructType}
    (ht : K.closed → Constructs K.p type)
    (hc : ∀ symbol c, type.symbol.isStandard = false → type.initializer = some symbol →
      K.p.chunk? symbol = some c → Callee K.p K.O f i (plainClosure c symbol)) :
    Acts K L (construct K.p type (K.n + j)) s fun _ => Calls K j callers f i := by
  refine (cutAbove_acts h).bind fun args s₁ hw => ?_
  unfold Constructs at ht
  split
  · rename_i hstd
    rw [if_pos hstd] at ht
    exact (replaceAbove_acts hw.2.2 (Collection.construct_safe hd ht hw.1)).mono fun _ _ => .inl
  rename_i hstd
  rw [if_neg hstd] at ht
  refine (host_acts hw.2.2 (Host.newObject_safe hd type)).bind fun ref s₂ hr => ?_
  cases hi : type.initializer with
  | some symbol =>
    refine (resolveChunk_acts hr.2 fun hc => ht hc symbol hi).looks fun c hs => ?_
    exact (enter_acts hd hr.2 hw.1 _ nofun).mono fun _ _ he =>
      .inr ⟨_, hc symbol c (Bool.eq_false_iff.mpr hstd) hi hs, he⟩
  | none =>
    cases args with
    | nil =>
      have href : K.O (.object ref) := hd _ trivial
      exact (replaceAbove_acts hr.2 (Host.safe_pure href)).mono fun _ _ => .inl
    | cons v vs => exact .trap ⟨nofun, id, nofun⟩ hr.2.heap

theorem callBuiltin_acts (h : Held K (j + 1 + k) callers f s) (b : Builtin) (count : UInt8) :
    Acts K L (callBuiltin K.p b (K.n + j) count) s fun _ => Held K (j + 1) callers f := by
  unfold callBuiltin
  split
  · exact .trap ⟨nofun, id, nofun⟩ h.heap
  refine (cutAbove_acts h).bind fun args s₁ hw => (shrink_acts hw.2.2).bind fun _ s₂ hw₂ =>
    (host_acts hw₂ (Builtin.apply_safe hd b hw.1)).bind fun r s₃ hr => ?_
  obtain ⟨v, printed⟩ := r
  cases printed with
  | none => exact push_acts hr.2 hr.1
  | some line =>
    have hout : Acts K L (modify fun s => { s with output := s.output.push line }) s₃ fun _ =>
        Held K j callers f := .modified (fun _ _ => rfl) { hr.2 with }
    exact hout.bind fun _ _ hw => push_acts hw hr.1

end Calls

theorem callCase_acts {i : Instruction} (hy : Yields K.p f i K.O) {case : EnumCase Value}
    {count : UInt8} (h : Held K (j + 1 + count.toNat) callers f s) (hc : K.O (.enumCase case)) :
    Acts K L (callCase K.p case (K.n + j) count) s fun _ => Held K (j + 1) callers f := by
  unfold callCase
  split
  · exact .trap ⟨nofun, id, nofun⟩ h.heap
  rename_i hcount
  have hcount : count = case.arity := Decidable.not_not.mp hcount
  refine (cutAbove_acts h).bind fun values s₁ hw => ?_
  have hlen : values.length = case.arity.toNat := hcount ▸ hw.2.1
  exact replaceAbove_acts hw.2.2 (Host.safe_pure (hy.complete case values hc hlen hw.1))

theorem callValue_acts {count : UInt8} (hy : Yields K.p f ⟨.call, count⟩ K.O)
    (hcl : K.closed → Closes K.p f ⟨.call, count⟩ K.O)
    (h : Held K (j + 1 + count.toNat) callers f s)
    (hL : (∃ c, K.O (.closure c) ∧ c.chunk.hasReceiver = true) → L) :
    Acts K L (callValue K.p count) s fun _ => Calls K j callers f ⟨.call, count⟩ := by
  refine (calleeHeight_acts h).bind fun height s₁ hh => ?_
  obtain ⟨rfl, rfl⟩ := hh
  refine (valueAt_acts h).looks fun v hv => ?_
  cases v with
  | closure c =>
    exact (cutAbove_acts h).bind fun args s₃ hw =>
      (enter_acts hy.data hw.2.2 hw.1 _ fun hr _ => hL ⟨c, hv, hr⟩).mono fun _ _ he =>
        .inr ⟨c, .closure hv, he⟩
  | boundMethod ref method =>
    exact callMethod_acts hy.data h ref (fun hc => (hcl hc).method ref method hv)
      fun c hc => .method hv hc
  | struct type =>
    exact construct_acts hy.data h (fun hc => (hcl hc).struct type hv)
      fun symbol c hs hi hc => .initializer hv hs hi hc
  | builtin b => exact (callBuiltin_acts hy.data h b count).mono fun _ _ => .inl
  | enumCase case =>
    dsimp only
    split
    · exact (callCase_acts hy h hv).mono fun _ _ => .inl
    · exact .trap ⟨nofun, id, nofun⟩ h.heap
  | _ => exact .trap ⟨nofun, id, nofun⟩ h.heap

end StackCode.Machine
