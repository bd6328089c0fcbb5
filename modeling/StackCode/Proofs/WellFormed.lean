import StackCode.Proofs.Balance

/-! # Well-formed chunks

A chunk is well-formed if the check of stack depths accepts it, its instructions reach exactly to
its end, and every jump leads to one of them. Balanced code that ends with a return and is within
the limit on distances makes such a chunk.
-/

namespace StackCode

namespace Chunk

structure WellFormed (c : Chunk Value) : Prop where
  depths : ∃ r, c.depths = .ok r
  endOf : endOf c.instructions = c.size
  targets : ∀ o i t, (o, i) ∈ c.instructions → target? o i = some t →
    ∃ j, (t, j) ∈ c.instructions

/-- The listed instructions are those that stand at their offsets. All but the jumps among them are
of the given kind, and paths lead to nothing else. -/
structure Holds (c : Chunk Value) (V : Instruction → Prop) : Prop where
  listed : ∀ o i, (o, i) ∈ c.instructions →
    c.instruction? o = some i ∧ (i.distance? = none → V i)
  reached : ∀ o, c.Reaches o → ∃ i, (o, i) ∈ c.instructions

variable {o : Nat} {i : Instruction} {c : Chunk Value}

theorem Holds.of_reaches {V : Instruction → Prop} (h : c.Holds V) (ho : c.Reaches o)
    (hi : c.instruction? o = some i) (hd : i.distance? = none) : V i := by
  obtain ⟨j, hj⟩ := h.reached o ho
  obtain ⟨hat, hV⟩ := h.listed o j hj
  cases hi.symm.trans hat
  exact hV hd

def Refers (c : Chunk Value) (i : Instruction) : Prop := ∀ o, c.refersInside o i = true

theorem refersInside_of_balanced {V : Instruction → Prop} {J : Nat → Int → Prop} {d : Int}
    (hV : ∀ i, i.distance? = none → V i → c.Refers i) (h : Code.Visit.Balanced V J ((o, i), d)) :
    c.refersInside o i = true := by
  cases hi : i.distance? with
  | none => exact hV i hi (h.kind hi) o
  | some x =>
    have hx := h.inside x hi
    obtain ⟨op, operand⟩ := i
    cases op <;> cases hi <;> exact decide_eq_true hx

theorem checkDepth_eq_ok {d : Int} (hi : c.instruction? o = some i) (hd : i.inputs ≤ d)
    (hr : i.opcode = .ret → d = 1) (hs : ∀ t ∈ successors o i, t < c.size) :
    c.checkDepth o d = .ok (d + i.effect, successors o i) := by
  have hret : ¬ (i.opcode = .ret ∧ d ≠ 1) := fun ⟨ho, hne⟩ => hne (hr ho)
  have hall : (successors o i).all (· < c.size) = true := by simpa using hs
  rw [checkDepth, hi]
  simp only [if_neg (Int.not_lt.mpr hd), if_neg hret, hall, if_true]

end Chunk

namespace Code

def depthIn (l : List (Visit Int)) (o : Nat) : Option Int :=
  (l.find? (·.1.1 == o)).map Prod.snd

variable {l : List (Visit Int)} {a e o : Nat} {d : Int}

theorem eq_of_visit_offset_eq (h : Placed.Chain a (l.map Prod.fst) e) {v w : Visit Int} (hv : v ∈ l)
    (hw : w ∈ l) (ho : v.1.1 = w.1.1) : v = w := by
  induction l generalizing a with
  | nil => cases hv
  | cons x l ih =>
    obtain ⟨⟨b, i⟩, d⟩ := x
    cases h with
    | cons h =>
      have hlt : ∀ u ∈ l, a < u.1.1 := by
        intro u hu
        have := i.size_pos
        have hle : a + i.size ≤ u.1.1 := (h.offset_mem (List.mem_map_of_mem hu)).1
        omega
      rcases List.mem_cons.mp hv with rfl | hv <;> rcases List.mem_cons.mp hw with rfl | hw
      · rfl
      · exact absurd ho (Nat.ne_of_lt (hlt w hw))
      · exact absurd ho.symm (Nat.ne_of_lt (hlt v hv))
      · exact ih h hv hw

theorem depthIn_eq_some_iff (h : Placed.Chain a (l.map Prod.fst) e) :
    depthIn l o = some d ↔ ∃ i, ((o, i), d) ∈ l := by
  constructor
  · intro hd
    obtain ⟨⟨⟨o', i⟩, d'⟩, hf, rfl⟩ := Option.map_eq_some_iff.mp hd
    have ho : o' = o := by simpa using List.find?_some hf
    exact ⟨i, ho ▸ List.mem_of_find?_eq_some hf⟩
  · rintro ⟨i, hi⟩
    cases hf : l.find? (·.1.1 == o) with
    | none => exact absurd (beq_self_eq_true o) (List.find?_eq_none.mp hf _ hi)
    | some v =>
      have ho : v.1.1 = o := by simpa using List.find?_some hf
      have hv := eq_of_visit_offset_eq h (List.mem_of_find?_eq_some hf) hi ho
      rw [depthIn, hf, hv]
      rfl

theorem adds_layout (cells : List UInt8) (code : Code) (head : Chunk Value) :
    head.Adds (Placed.bytes (code.placed cells {} head.size)) (code.layout cells head) :=
  adds_write cells code {} rfl

/-- What a chunk is after code was laid out in it. -/
structure LaidOut (head : Chunk Value) (l : List Placed) (c : Chunk Value) : Prop where
  adds : head.Adds (Placed.bytes l) c
  chain : Placed.Chain 0 l c.size
  holds : ∀ o i, (o, i) ∈ l → Instruction.decode? c.code o = some i

variable {head : Chunk Value} {code : Code} {cells : List UInt8}

theorem laidOut_layout (cells : List UInt8) (hh : head.code = #[]) (code : Code) :
    LaidOut head (code.placed cells {} 0) (code.layout cells head) := by
  have hs : head.size = 0 := by rw [Chunk.size, hh]; rfl
  have ha := adds_layout cells code head
  rw [hs] at ha
  have hchain := code.chain_placed cells {} 0
  have hsize : (code.layout cells head).size = 0 + code.width := by
    rw [ha.size, length_bytes_placed, hs]
  refine ⟨ha, hsize ▸ hchain, fun o i hi => i.decode?_of_holds (hchain.holds ?_ hi)⟩
  obtain ⟨lines, he⟩ := ha
  rw [he, hh]
  simpa using HoldsBytes.whole _

/-- Wherever enough is known, the analysis holds for the instruction that stands there, and enough
is known wherever it leads. -/
def Analysis.Explains {α : Type} (A : Analysis α) (c : Chunk Value) (K : Nat → α → Prop) : Prop :=
  ∀ o k, K o k → ∃ i k', Instruction.decode? c.code o = some i ∧ A.covers k k' ∧
    Visit.Agrees A K ((o, i), k')

/-- An analysis that flows through code which ends with a return holds along the chunk that is laid
out from it. -/
theorem Flows.exists_explains {α : Type} {A : Analysis α} {k m : α} (hh : head.code = #[])
    (hf : code.Fits false false {} 0)
    (hc : ∀ slot k m, A.binds slot k m → A.runs (binder cells slot) k m) (h : Flows A {} code k m)
    (he : code.Ends) :
    ∃ K, A.Explains (code.layout cells head) K ∧ K 0 k := by
  obtain ⟨l, hl⟩ : ∃ l, Visits A cells (fun _ _ => False) {} 0 code k l :=
    h.exists_visits hc (fun _ _ _ _ => id) hf (Leads.mk nofun nofun) (.inr he)
  have hlay := laidOut_layout cells hh code
  rw [← hl.placed] at hlay
  refine ⟨Joins A l fun _ _ => False, fun o k hk => ?_, hl.entry⟩
  rcases hk with ⟨i, k', hi, hk⟩ | hk
  · exact ⟨i, k', hlay.holds o i (List.mem_map_of_mem hi), hk, hl.closed _ hi⟩
  · exact hk.elim

theorem LaidOut.refersInside {c : Chunk Value} {l : List Placed} (h : LaidOut head l c) (o : Nat)
    (i : Instruction) : c.refersInside o i = head.refersInside o i := by
  obtain ⟨lines, rfl⟩ := h.adds
  rfl

/-- The visits are the instructions of the chunk with a depth for each of them. No place is left to
leave to, so they agree with each other alone. -/
structure Traces (V : Instruction → Prop) (l : List (Visit Int)) (c : Chunk Value) : Prop where
  chain : Placed.Chain 0 (l.map Prod.fst) c.size
  instruction : ∀ o i d, ((o, i), d) ∈ l → c.instruction? o = some i
  balanced : ∀ o i d, ((o, i), d) ∈ l →
    Visit.Balanced V (fun t e => ∃ j, ((t, j), e) ∈ l) ((o, i), d)
  entry : ∃ i, ((0, i), 0) ∈ l

namespace Traces

variable {V : Instruction → Prop} {c : Chunk Value}

theorem instructions (h : Traces V l c) : c.instructions = l.map Prod.fst := by
  refine Chunk.instructions_eq h.chain fun x hx => ?_
  obtain ⟨v, hv, rfl⟩ := List.mem_map.mp hx
  exact h.instruction _ _ _ hv

theorem mem_instructions (h : Traces V l c) {i : Instruction} :
    (o, i) ∈ c.instructions ↔ ∃ d, ((o, i), d) ∈ l := by
  rw [h.instructions]
  simp

theorem assigns (h : Traces V l c) : c.Assigns (depthIn l) := by
  refine ⟨(depthIn_eq_some_iff h.chain).mpr h.entry, fun o d hd => ?_⟩
  obtain ⟨i, hv⟩ := (depthIn_eq_some_iff h.chain).mp hd
  have ha := h.balanced o i d hv
  have hlt : ∀ t ∈ Chunk.successors o i, t < c.size := by
    intro t ht
    obtain ⟨j, hj⟩ := ha.next t ht
    have hle : t + j.size ≤ c.size := (h.chain.offset_mem (List.mem_map_of_mem hj)).2
    have := j.size_pos
    omega
  exact ⟨_, _, Chunk.checkDepth_eq_ok (h.instruction o i d hv) ha.inputs ha.ret hlt,
    fun t ht => (depthIn_eq_some_iff h.chain).mpr (ha.next t ht)⟩

theorem wellFormed (h : Traces V l c) : c.WellFormed where
  depths := by
    obtain ⟨r, hr, -⟩ := Chunk.depths_complete h.assigns
    exact ⟨r, hr⟩
  endOf := by
    obtain ⟨i, hv⟩ := h.entry
    rw [h.instructions]
    exact Chunk.endOf_eq h.chain (List.ne_nil_of_mem (List.mem_map_of_mem hv))
  targets o i t hi ht := by
    obtain ⟨d, hv⟩ := h.mem_instructions.mp hi
    obtain ⟨j, hj⟩ := (h.balanced o i d hv).next t (Chunk.mem_successors_of_target? ht)
    exact ⟨j, h.mem_instructions.mpr ⟨_, hj⟩⟩

theorem holds (h : Traces V l c) : c.Holds V where
  listed o i hi := by
    obtain ⟨d, hv⟩ := h.mem_instructions.mp hi
    exact ⟨h.instruction o i d hv, (h.balanced o i d hv).kind⟩
  reached o ho := by
    obtain ⟨r, d, hr, hd⟩ := ho
    obtain ⟨r', hr', hleast⟩ := Chunk.depths_complete h.assigns
    cases hr.symm.trans hr'
    obtain ⟨i, hv⟩ := (depthIn_eq_some_iff h.chain).mp (hleast o d hd)
    exact ⟨i, h.mem_instructions.mpr ⟨d, hv⟩⟩

end Traces

/-- Balanced code that ends with a return makes a chunk whose instructions are those of the code. -/
theorem traces_layout {V : Instruction → Prop} {e : Int} (hh : head.code = #[])
    (hf : code.Fits false false {} 0) (hV : ∀ i, i.distance? = none → V i → head.Refers i)
    (hc : ∀ slot, V (binder cells slot)) (hm : Moves V false false code 0 e) (he : code.Ends) :
    ∃ l, l.map Prod.fst = code.placed cells {} 0 ∧ Traces V l (code.layout cells head) := by
  obtain ⟨l, hl⟩ : ∃ l, Visits (depths V) cells (fun _ _ => False) {} 0 code 0 l :=
    hm.exists_visits hc hf (Leads.mk nofun nofun) (.inr he)
  have hlay := laidOut_layout cells hh code
  rw [← hl.placed] at hlay
  have hjoin : ∀ o d, Joins (depths V) l (fun _ _ => False) o d → ∃ i, ((o, i), d) ∈ l :=
    fun o d hj => (joins_depths.mp hj).elim id False.elim
  refine ⟨l, hl.placed, hlay.chain, fun o i d hv => ?_,
    fun o i d hv => ((hl.closed _ hv).mono hjoin).balanced, hjoin _ _ hl.entry⟩
  have hr := Chunk.refersInside_of_balanced hV (hl.closed _ hv).balanced
  rw [Chunk.instruction?, hlay.holds o i (List.mem_map_of_mem hv), Option.filter_some,
    hlay.refersInside, hr]
  rfl

/-- Such a chunk is well-formed, and its instructions are of the kind of the code. -/
theorem wellFormed_layout {V : Instruction → Prop} {e : Int} (hh : head.code = #[])
    (hf : code.Fits false false {} 0) (hV : ∀ i, i.distance? = none → V i → head.Refers i)
    (hc : ∀ slot, V (binder cells slot)) (hm : Moves V false false code 0 e) (he : code.Ends) :
    (code.layout cells head).WellFormed ∧ (code.layout cells head).Holds V := by
  obtain ⟨l, -, htraces⟩ := traces_layout hh hf hV hc hm he
  exact ⟨htraces.wellFormed, htraces.holds⟩

end Code

end StackCode
