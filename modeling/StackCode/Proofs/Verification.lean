import StackCode.Chunk.Depth

/-! # What the check of stack depths decides

The check accepts a chunk exactly if depths can be assigned to the offsets that can be reached so
that the start has an empty stack and every instruction passes its depth on to what follows. There
is only one such assignment, and it is the one that is reported. The check always ends, since each
visit gives a depth to an offset that has none.
-/

namespace StackCode

namespace DepthReport

def depth? (r : DepthReport) (offset : Nat) : Option Int := r.depths[offset]?.join

end DepthReport

theorem Instruction.inputs_add_effect_nonneg (i : Instruction) : 0 ≤ i.inputs + i.effect := by
  obtain ⟨op, operand⟩ := i
  cases op <;> simp only [inputs, effect, Opcode.inputs, Opcode.effect] <;> omega

namespace Chunk

variable {o : Nat} {i : Instruction} {d : Int} {r : DepthReport} {D : Nat → Option Int}

theorem mem_successors_of_distance?_eq_none {t : Nat} (h : i.distance? = none)
    (ht : t ∈ successors o i) : t = o + i.size ∧ i.opcode ≠ .ret := by
  have hn : target? o i = none := by rw [target?, h]; rfl
  unfold successors at ht
  rw [hn] at ht
  split at ht
  · cases ht
  all_goals simp_all

theorem next_mem_successors (h : i.opcode ≠ .ret)
    (hj : i.distance? = none ∨ i.opcode = .jumpIfFalse) : o + i.size ∈ successors o i := by
  obtain ⟨op, operand⟩ := i
  cases op
  case ret => exact absurd rfl h
  case jump | loop => rcases hj with hj | hj <;> cases hj
  case jumpIfFalse => exact List.mem_cons_self
  all_goals exact List.mem_singleton_self _

theorem mem_successors_of_target? {t : Nat} (h : target? o i = some t) :
    t ∈ successors o i := by
  obtain ⟨op, operand⟩ := i
  unfold successors
  rw [h]
  cases op with
  | ret => cases h
  | jumpIfFalse => exact List.mem_cons_of_mem _ (List.mem_singleton_self _)
  | _ => exact List.mem_singleton_self _

theorem checkDepth_eq_ok_iff {c : Chunk Value} {after : Int} {next : List Nat} :
    c.checkDepth o d = .ok (after, next) ↔
      ∃ i, c.instruction? o = some i ∧ i.inputs ≤ d ∧ (i.opcode = .ret → d = 1) ∧
        (∀ t ∈ successors o i, t < c.size) ∧ after = d + i.effect ∧ next = successors o i := by
  unfold checkDepth
  constructor
  · intro h
    split at h
    · cases h
    rename_i i hi
    split at h
    · cases h
    split at h
    · cases h
    dsimp only at h
    split at h
    · cases h
      exact ⟨i, hi, by omega, by simp_all, by simp_all, rfl, rfl⟩
    · cases h
  · rintro ⟨i, hi, hin, hret, hnext, rfl, rfl⟩
    rw [hi]
    dsimp only
    rw [if_neg (Int.not_lt.mpr hin), if_neg fun h => h.2 (hret h.1), if_pos (by simpa using hnext)]

/-- Depths before offsets, with which every instruction that has one agrees. -/
structure Assigns (c : Chunk Value) (D : Nat → Option Int) : Prop where
  start : D 0 = some 0
  check : ∀ o d, D o = some d →
    ∃ after next, c.checkDepth o d = .ok (after, next) ∧ ∀ t ∈ next, D t = some after

/-- What holds while paths are followed: an offset with a depth has passed its check, and what
follows it has its depth or is still to be visited. -/
structure Following (c : Chunk Value) (depths : Array (Option Int)) (maxDepth : Int)
    (paths : List (Nat × Int)) : Prop where
  start : depths[0]? = some (some 0) ∨ (0, 0) ∈ paths
  check : ∀ o d, depths[o]? = some (some d) → d ≤ maxDepth ∧
    ∃ after next, c.checkDepth o d = .ok (after, next) ∧ after ≤ maxDepth ∧
      ∀ t ∈ next, depths[t]? = some (some after) ∨ (t, after) ∈ paths
  attained : maxDepth = 0 ∨ ∃ o d after next, depths[o]? = some (some d) ∧
    c.checkDepth o d = .ok (after, next) ∧ (maxDepth = d ∨ maxDepth = after)

variable {c : Chunk Value}

namespace Following

variable {depths : Array (Option Int)} {maxDepth : Int} {rest : List (Nat × Int)} {o : Nat}
  {d : Int}

theorem skip (h : Following c depths maxDepth ((o, d) :: rest))
    (ho : depths[o]? = some (some d)) : Following c depths maxDepth rest where
  start := by
    rcases h.start with h₀ | h₀
    · exact .inl h₀
    · rcases List.mem_cons.mp h₀ with he | h₀
      · cases he
        exact .inl ho
      · exact .inr h₀
  check o' d' h' := by
    obtain ⟨hd, after, next, hc, ha, hn⟩ := h.check o' d' h'
    refine ⟨hd, after, next, hc, ha, fun t ht => ?_⟩
    rcases hn t ht with hv | hp
    · exact .inl hv
    · rcases List.mem_cons.mp hp with he | hp
      · cases he
        exact .inl ho
      · exact .inr hp
  attained := h.attained

theorem visit (h : Following c depths maxDepth ((o, d) :: rest)) (hlt : o < depths.size)
    (hnone : depths[o] = none) {after : Int} {next : List Nat}
    (hc : c.checkDepth o d = .ok (after, next)) :
    Following c (depths.set o (some d) hlt) (max (max maxDepth after) d)
      ((next.map (·, after)).reverse ++ rest) := by
  have hkeep : ∀ (t : Nat) (e : Int), depths[t]? = some (some e) →
      (depths.set o (some d) hlt)[t]? = some (some e) := by
    intro t e ht
    have hne : o ≠ t := by
      rintro rfl
      rw [Array.getElem?_eq_getElem hlt, hnone] at ht
      cases ht
    rwa [Array.getElem?_set_ne hlt hne]
  have hself : (depths.set o (some d) hlt)[o]? = some (some d) := Array.getElem?_set_self hlt
  have hcover : ∀ (t : Nat) (e : Int), depths[t]? = some (some e) ∨ (t, e) ∈ (o, d) :: rest →
      (depths.set o (some d) hlt)[t]? = some (some e) ∨
        (t, e) ∈ (next.map (·, after)).reverse ++ rest := by
    rintro t e (hv | hp)
    · exact .inl (hkeep t e hv)
    · rcases List.mem_cons.mp hp with he | hp
      · cases he
        exact .inl hself
      · exact .inr (List.mem_append_right _ hp)
  refine ⟨hcover 0 0 h.start, fun o' d' h' => ?_, ?_⟩
  · by_cases ho : o = o'
    · subst ho
      rw [hself] at h'
      cases h'
      refine ⟨by omega, after, next, hc, by omega, fun t ht => .inr ?_⟩
      exact List.mem_append_left _ (List.mem_reverse.mpr (List.mem_map_of_mem ht))
    · rw [Array.getElem?_set_ne hlt ho] at h'
      obtain ⟨hd, after', next', hc', ha, hn⟩ := h.check o' d' h'
      exact ⟨by omega, after', next', hc', by omega, fun t ht => hcover t after' (hn t ht)⟩
  · rcases Int.le_total (max maxDepth after) d with hle | hle
    · exact .inr ⟨o, d, after, next, hself, hc, .inl (by omega)⟩
    rcases Int.le_total maxDepth after with hle' | hle'
    · exact .inr ⟨o, d, after, next, hself, hc, .inr (by omega)⟩
    rcases h.attained with hm | ⟨o', d', after', next', hd', hc', hm⟩
    · exact .inl (by omega)
    · exact .inr ⟨o', d', after', next', hkeep o' d' hd', hc', by omega⟩

end Following

theorem follow_sound {depths : Array (Option Int)} {maxDepth : Int} {paths : List (Nat × Int)}
    (h : Following c depths maxDepth paths) (hr : c.follow depths maxDepth paths = .ok r) :
    Following c r.depths r.maxDepth [] := by
  fun_induction follow c depths maxDepth paths with
  | case1 =>
    cases hr
    exact h
  | case2 depths maxDepth offset rest hlt seen hs ih =>
    exact ih (h.skip (by rw [Array.getElem?_eq_getElem hlt, hs])) hr
  | case3 | case4 | case6 => cases hr
  | case5 depths maxDepth offset depth rest hlt hs after next hc ih =>
    exact ih (h.visit hlt hs hc) hr

def Reaches (c : Chunk Value) (o : Nat) : Prop :=
  ∃ r d, c.depths = .ok r ∧ r.depth? o = some d

theorem depth?_eq_some_iff :
    r.depth? o = some d ↔ r.depths[o]? = some (some d) := by
  simp [DepthReport.depth?, Option.join_eq_some_iff]

theorem depths_following (hr : c.depths = .ok r) :
    Following c r.depths r.maxDepth [] := by
  refine follow_sound ⟨.inr List.mem_cons_self, fun o d h => ?_, .inl rfl⟩ hr
  rw [Array.getElem?_replicate] at h
  split at h <;> simp at h

/-- The reported depths agree with every instruction, and none is above the reported maximum. -/
theorem depths_sound (hr : c.depths = .ok r) :
    c.Assigns r.depth? ∧ ∀ o d, r.depth? o = some d → d ≤ r.maxDepth := by
  have h := depths_following hr
  refine ⟨⟨?_, fun o d hd => ?_⟩, fun o d hd => (h.check o d (depth?_eq_some_iff.mp hd)).1⟩
  · rcases h.start with h | h
    · exact depth?_eq_some_iff.mpr h
    · cases h
  · obtain ⟨-, after, next, hc, -, hn⟩ := h.check o d (depth?_eq_some_iff.mp hd)
    refine ⟨after, next, hc, fun t ht => ?_⟩
    rcases hn t ht with h | h
    · exact depth?_eq_some_iff.mpr h
    · cases h

theorem Assigns.lt_size (h : c.Assigns D) (hd : D o = some d) : o < c.size := by
  obtain ⟨after, next, hc, -⟩ := h.check o d hd
  rcases Nat.lt_or_ge o c.size with hlt | hge
  · exact hlt
  · have hb : c.code[o]? = none := Array.getElem?_eq_none hge
    have hn : c.instruction? o = none := by simp [instruction?, Instruction.decode?, hb]
    simp [checkDepth, hn] at hc

/-- Along an assignment no check fails, and no other depths are found. -/
theorem follow_complete (hD : c.Assigns D) {depths : Array (Option Int)} {maxDepth : Int}
    {paths : List (Nat × Int)} (hs : depths.size = c.size)
    (hv : ∀ o d, depths[o]? = some (some d) → D o = some d)
    (hp : ∀ o d, (o, d) ∈ paths → D o = some d) :
    ∃ r, c.follow depths maxDepth paths = .ok r ∧ ∀ o d, r.depth? o = some d → D o = some d := by
  fun_induction follow c depths maxDepth paths with
  | case1 => exact ⟨_, rfl, fun o d hd => hv o d (depth?_eq_some_iff.mp hd)⟩
  | case2 depths maxDepth offset rest hlt seen hs' ih =>
    exact ih hs hv fun o d h => hp o d (List.mem_cons_of_mem _ h)
  | case3 depths maxDepth offset depth rest hlt seen hseen hne =>
    have hd := hp offset depth List.mem_cons_self
    have hd' := hv offset seen (by rw [Array.getElem?_eq_getElem hlt, hseen])
    exact absurd (Option.some.inj (hd'.symm.trans hd)) hne
  | case4 depths maxDepth offset depth rest hlt hnone e hc =>
    obtain ⟨after, next, hc', -⟩ := hD.check offset depth (hp offset depth List.mem_cons_self)
    rw [hc] at hc'
    cases hc'
  | case5 depths maxDepth offset depth rest hlt hnone after next hc ih =>
    have hd := hp offset depth List.mem_cons_self
    obtain ⟨after', next', hc', hn⟩ := hD.check offset depth hd
    rw [hc] at hc'
    cases hc'
    refine ih (by simpa using hs) (fun o d h => ?_) (fun o d h => ?_)
    · by_cases ho : offset = o
      · subst ho
        rw [Array.getElem?_set_self hlt] at h
        cases h
        exact hd
      · rw [Array.getElem?_set_ne hlt ho] at h
        exact hv o d h
    · rcases List.mem_append.mp h with h | h
      · obtain ⟨t, ht, he⟩ := List.mem_map.mp (List.mem_reverse.mp h)
        cases he
        exact hn _ ht
      · exact hp o d (List.mem_cons_of_mem _ h)
  | case6 depths maxDepth offset depth rest hge =>
    exact absurd (hs ▸ hD.lt_size (hp offset depth List.mem_cons_self)) hge

/-- A chunk whose depths can be assigned is accepted, and an offset that a path reaches has its
depth. -/
theorem depths_complete (hD : c.Assigns D) :
    ∃ r, c.depths = .ok r ∧ ∀ o d, r.depth? o = some d → D o = some d := by
  refine follow_complete hD (by simp) (fun o d h => ?_) (fun o d h => ?_)
  · rw [Array.getElem?_replicate] at h
    split at h <;> simp at h
  · obtain ⟨rfl, rfl⟩ : o = 0 ∧ d = 0 := by simpa using h
    exact hD.start

/-- Some path of instructions leads from the start of the chunk to the offset. -/
inductive Reachable (c : Chunk Value) : Nat → Prop where
  | start : Reachable c 0
  | next {o t : Nat} {i : Instruction} (reachable : Reachable c o)
    (instruction : c.instruction? o = some i) (mem : t ∈ successors o i) : Reachable c t

/-- Depths with which all instructions that can be reached agree. -/
structure Balanced (c : Chunk Value) (D : Nat → Int) : Prop where
  start : D 0 = 0
  step : ∀ o, c.Reachable o → ∃ i, c.instruction? o = some i ∧ i.inputs ≤ D o ∧
    (i.opcode = .ret → D o = 1) ∧ ∀ t ∈ successors o i, t < c.size ∧ D t = D o + i.effect

theorem Assigns.exists_depth (h : c.Assigns D) (ho : c.Reachable o) : ∃ d, D o = some d := by
  induction ho with
  | start => exact ⟨0, h.start⟩
  | next _ hi ht ih =>
    obtain ⟨d, hd⟩ := ih
    obtain ⟨after, next, hc, hn⟩ := h.check _ d hd
    obtain ⟨i, hi', -, -, -, rfl, rfl⟩ := checkDepth_eq_ok_iff.mp hc
    cases hi.symm.trans hi'
    exact ⟨_, hn _ ht⟩

theorem Assigns.balanced (h : c.Assigns D) :
    c.Balanced fun o => (D o).getD 0 := by
  refine ⟨by simp [h.start], fun o ho => ?_⟩
  obtain ⟨d, hd⟩ := h.exists_depth ho
  obtain ⟨after, next, hc, hn⟩ := h.check o d hd
  obtain ⟨i, hi, hin, hret, hlt, rfl, rfl⟩ := checkDepth_eq_ok_iff.mp hc
  simp only [hd, Option.getD_some]
  exact ⟨i, hi, hin, hret, fun t ht => ⟨hlt t ht, by rw [hn t ht, Option.getD_some]⟩⟩

open Classical in
/-- Only the offsets that can be reached need a depth. -/
theorem Balanced.assigns {D : Nat → Int} (h : c.Balanced D) :
    c.Assigns fun o => if c.Reachable o then some (D o) else none := by
  refine ⟨by rw [if_pos .start, h.start], fun o d hd => ?_⟩
  split at hd
  · rename_i ho
    cases hd
    obtain ⟨i, hi, hin, hret, hnext⟩ := h.step o ho
    refine ⟨_, _, checkDepth_eq_ok_iff.mpr ⟨i, hi, hin, hret, fun t ht => (hnext t ht).1, rfl, rfl⟩,
      fun t ht => ?_⟩
    rw [if_pos (ho.next hi ht), (hnext t ht).2]
  · cases hd

/-- The check accepts a chunk exactly if there are depths with which all instructions that can be
reached agree. It then reports these depths, of which there is one for every such offset, and the
greatest depth before or behind an instruction. -/
theorem depths_exact (c : Chunk Value) :
    ((∃ r, c.depths = .ok r) ↔ ∃ D, c.Balanced D) ∧
    ∀ D, c.Balanced D → ∃ r, c.depths = .ok r ∧
      (∀ o d, r.depth? o = some d ↔ c.Reachable o ∧ D o = d) ∧
      (∀ o i, c.Reachable o → c.instruction? o = some i →
        D o ≤ r.maxDepth ∧ D o + i.effect ≤ r.maxDepth) ∧
      ∃ o i, c.Reachable o ∧ c.instruction? o = some i ∧
        (r.maxDepth = D o ∨ r.maxDepth = D o + i.effect) := by
  refine ⟨⟨fun ⟨r, hr⟩ => ⟨_, (depths_sound hr).1.balanced⟩, fun ⟨D, hD⟩ => ?_⟩, fun D hD => ?_⟩
  · obtain ⟨r, hr, -⟩ := depths_complete hD.assigns
    exact ⟨r, hr⟩
  obtain ⟨r, hr, hD'⟩ := depths_complete hD.assigns
  have hdepth : ∀ o d, r.depth? o = some d ↔ c.Reachable o ∧ D o = d := by
    have hle : ∀ o d, r.depth? o = some d → c.Reachable o ∧ D o = d := by
      intro o d hd
      have := hD' o d hd
      split at this
      · exact ⟨‹_›, Option.some.inj this⟩
      · cases this
    refine fun o d => ⟨hle o d, ?_⟩
    rintro ⟨ho, rfl⟩
    obtain ⟨d, hd⟩ := (depths_sound hr).1.exists_depth ho
    rw [hd, (hle o d hd).2]
  have hf := depths_following hr
  refine ⟨r, hr, hdepth, fun o i ho hi => ?_, ?_⟩
  · obtain ⟨hmax, after, next, hc, hafter, -⟩ :=
      hf.check o (D o) (depth?_eq_some_iff.mp ((hdepth o _).mpr ⟨ho, rfl⟩))
    obtain ⟨i', hi', -, -, -, rfl, -⟩ := checkDepth_eq_ok_iff.mp hc
    cases hi.symm.trans hi'
    exact ⟨hmax, hafter⟩
  · rcases hf.attained with hm | ⟨o, d, after, next, hd, hc, hm⟩
    · obtain ⟨i, hi, -⟩ := hD.step 0 .start
      exact ⟨0, i, .start, hi, .inl (by rw [hm, hD.start])⟩
    · obtain ⟨ho, rfl⟩ := (hdepth o d).mp (depth?_eq_some_iff.mpr hd)
      obtain ⟨i, hi, -, -, -, rfl, -⟩ := checkDepth_eq_ok_iff.mp hc
      exact ⟨o, i, ho, hi, hm⟩

end Chunk

end StackCode
