import StackCode.Code.Check
import StackCode.Code.Layout

/-! # Distances within the limit

Code without problems holds no report, and all its jumps are short enough to be written.
-/

namespace StackCode.Code

def Refused : Code → Prop
  | report _ => True
  | seq first rest => first.Refused ∨ rest.Refused
  | ite _ yes no => yes.Refused ∨ no.Refused
  | when _ body => body.Refused
  | loop _ cond body => cond.Refused ∨ body.Refused
  | arm _ _ attempt rest => attempt.Refused ∨ rest.Refused
  | skip | instr .. | bind .. | leave _ | again _ | require _ => False

/-- Code that is laid out from an offset on holds no report, and every jump in it is within the
limit on distances. Jumps out of a loop or an arm count only where there is one. -/
def Fits (inLoop inArm : Bool) (t : Targets) (a : Nat) : Code → Prop
  | skip | instr .. | bind .. => True
  | report _ => False
  | seq first rest => first.Fits inLoop inArm t a ∧ rest.Fits inLoop inArm t (a + first.width)
  | ite _ yes no =>
    yes.width + 3 ≤ Chunk.maxDistance ∧ no.width ≤ Chunk.maxDistance ∧
      yes.Fits inLoop inArm t (a + 3) ∧ no.Fits inLoop inArm t (a + 3 + yes.width + 3)
  | when _ body => body.width ≤ Chunk.maxDistance ∧ body.Fits inLoop inArm t (a + 3)
  | loop _ cond body =>
    let stop := a + cond.width + 3 + body.width + 3
    body.width + 3 ≤ Chunk.maxDistance ∧ stop - a ≤ Chunk.maxDistance ∧
      cond.Fits false inArm t a ∧
        body.Fits true inArm { t with start := a, stop } (a + cond.width + 3)
  | leave _ => inLoop → t.stop - (a + 3) ≤ Chunk.maxDistance
  | again _ => a + 3 - t.start ≤ Chunk.maxDistance
  | arm _ _ attempt rest =>
    let fail := a + attempt.width + 3
    rest.width ≤ Chunk.maxDistance ∧ attempt.Fits inLoop true { t with fail } a ∧
      rest.Fits inLoop inArm t fail
  | require _ => inArm → t.fail - (a + 3) ≤ Chunk.maxDistance

theorem Fits.not_refused {inLoop inArm : Bool} {t : Targets} {a : Nat} {code : Code}
    (h : code.Fits inLoop inArm t a) : ¬ code.Refused := by
  induction code generalizing inLoop inArm t a with
  | skip | instr | bind | leave | again | require => exact id
  | report => exact h.elim
  | seq first rest ih ih' => exact fun hr => hr.elim (ih h.1) (ih' h.2)
  | ite _ yes no ih ih' | loop _ cond body ih ih' =>
    exact fun hr => hr.elim (ih h.2.2.1) (ih' h.2.2.2)
  | when _ body ih => exact ih h.2
  | arm _ _ attempt rest ih ih' => exact fun hr => hr.elim (ih h.2.1) (ih' h.2.2)

namespace CheckState

@[simp] theorem offset_advance (s : CheckState) (n : Nat) :
    (s.advance n).offset = s.offset + n := rfl

variable {path : String} {loc : Location} {s : CheckState}

theorem land_clean {jump : Nat} (h : (s.land path loc jump).found = []) :
    s.land path loc jump = s ∧ s.offset - (jump + 3) ≤ Chunk.maxDistance := by
  unfold land at h ⊢
  split at h
  · cases h
  · rename_i hle
    exact ⟨if_neg hle, by omega⟩

theorem landAll_clean {jumps : List Nat} (h : (s.landAll path loc jumps).found = []) :
    s.landAll path loc jumps = s ∧ ∀ j ∈ jumps, s.offset - (j + 3) ≤ Chunk.maxDistance := by
  induction jumps generalizing s with
  | nil => exact ⟨rfl, fun _ hj => nomatch hj⟩
  | cons j jumps ih =>
    obtain ⟨he, hrest⟩ := ih (s := s.land path loc j) h
    have hfound : (s.land path loc j).found = [] := by
      rw [← he]; exact h
    obtain ⟨hj, hle⟩ := land_clean hfound
    rw [hj] at he hrest
    refine ⟨?_, ?_⟩
    · rw [landAll, List.foldl_cons, hj]
      exact he
    · rintro k hk
      rcases List.mem_cons.mp hk with rfl | hk
      · exact hle
      · exact hrest k hk

theorem back_clean {start : Nat} (h : (s.back path loc start).found = []) :
    s.back path loc start = s.advance 3 ∧ s.offset + 3 - start ≤ Chunk.maxDistance := by
  unfold back at h ⊢
  split at h
  · cases h
  · rename_i hle
    exact ⟨if_neg hle, by omega⟩

end CheckState

def Near (target : Nat) (jumps : List Nat) : Prop :=
  ∀ j ∈ jumps, target - (j + 3) ≤ Chunk.maxDistance

theorem Near.mono {target : Nat} {l m : List Nat} (h : Near target m) (hl : l ⊆ m) :
    Near target l := fun j hj => h j (hl hj)

/-- A check that finds nothing walks over the width of the code and collects the jumps that leave
the loop and the arm. The code fits wherever the collected jumps are within the limit. -/
structure Passes (s : CheckState) (start : Nat) (code : Code) (s' : CheckState) : Prop where
  clean : s.found = []
  offset : s'.offset = s.offset + code.width
  leaves : s.leaves ⊆ s'.leaves
  fails : s.fails ⊆ s'.fails
  fits : ∀ (inLoop inArm : Bool) (stop fail : Nat), (inLoop → Near stop s'.leaves) →
    (inArm → Near fail s'.fails) → code.Fits inLoop inArm { start, stop, fail } s.offset

namespace Passes

variable {s s₁ s₂ : CheckState} {start : Nat} {loc armLoc : Location} {first rest : Code}

theorem seq (h : Passes s start first s₁) (h' : Passes s₁ start rest s₂) :
    Passes s start (.seq first rest) s₂ := by
  have hfit := h'.fits
  rw [h.offset] at hfit
  refine ⟨h.clean, ?_, List.Subset.trans h.leaves h'.leaves, List.Subset.trans h.fails h'.fails,
    fun inLoop inArm stop fail hs hx => ⟨?_, hfit inLoop inArm stop fail hs hx⟩⟩
  · rw [h'.offset, h.offset]
    exact Nat.add_assoc _ _ _
  · exact h.fits inLoop inArm stop fail (fun hin => (hs hin).mono h'.leaves)
      fun hin => (hx hin).mono h'.fails

theorem when (h : Passes (s.advance 3) start first s₁)
    (hle : s₁.offset - (s.offset + 3) ≤ Chunk.maxDistance) :
    Passes s start (.when loc first) s₁ := by
  have ho : s₁.offset = s.offset + 3 + first.width := h.offset
  refine ⟨h.clean, ?_, h.leaves, h.fails, fun inLoop inArm stop fail hs hx =>
    ⟨?_, h.fits inLoop inArm stop fail hs hx⟩⟩
  · rw [ho]
    exact Nat.add_assoc _ _ _
  · omega

theorem ite (h : Passes (s.advance 3) start first s₁) (h' : Passes (s₁.advance 3) start rest s₂)
    (hle : s₁.offset + 3 - (s.offset + 3) ≤ Chunk.maxDistance)
    (hle' : s₂.offset - (s₁.offset + 3) ≤ Chunk.maxDistance) :
    Passes s start (.ite loc first rest) s₂ := by
  have ho : s₁.offset = s.offset + 3 + first.width := h.offset
  have ho' : s₂.offset = s₁.offset + 3 + rest.width := h'.offset
  have hfit := h'.fits
  rw [CheckState.offset_advance, ho] at hfit
  refine ⟨h.clean, ?_, List.Subset.trans h.leaves h'.leaves, List.Subset.trans h.fails h'.fails,
    fun inLoop inArm stop fail hs hx => ⟨?_, ?_, ?_, hfit inLoop inArm stop fail hs hx⟩⟩
  · rw [ho', ho]
    change _ = s.offset + (3 + first.width + 3 + rest.width)
    omega
  · omega
  · omega
  · exact h.fits inLoop inArm stop fail (fun hin => (hs hin).mono h'.leaves)
      fun hin => (hx hin).mono h'.fails

/-- Jumps that leave the loop land behind it. Nothing leaves it from its condition, whose jumps the
check forgets. -/
theorem loop (h : Passes s start first s₁)
    (h' : Passes { s₁.advance 3 with leaves := [] } s.offset rest s₂)
    (hback : s₂.offset + 3 - s.offset ≤ Chunk.maxDistance)
    (hle : s₂.offset + 3 - (s₁.offset + 3) ≤ Chunk.maxDistance)
    (hleave : Near (s₂.offset + 3) s₂.leaves) :
    Passes s start (.loop loc first rest) { s₂.advance 3 with leaves := s.leaves } := by
  have ho := h.offset
  have ho' : s₂.offset = s₁.offset + 3 + rest.width := h'.offset
  have hfit := h'.fits
  rw [CheckState.offset_advance, ho] at hfit
  rw [ho', ho] at hleave
  refine ⟨h.clean, ?_, List.Subset.refl _, List.Subset.trans h.fails h'.fails,
    fun inLoop inArm stop fail hs hx => ⟨?_, ?_, ?_, hfit true inArm _ fail (fun _ => hleave) hx⟩⟩
  · rw [CheckState.offset_advance, ho', ho]
    change _ = s.offset + (first.width + 3 + rest.width + 3)
    omega
  · omega
  · omega
  · exact h.fits false inArm stop fail nofun fun hin => (hx hin).mono h'.fails

/-- Jumps that leave the attempt land behind it. -/
theorem arm (h : Passes { s with fails := [] } start first s₁)
    (h' : Passes { s₁.advance 3 with fails := s.fails } start rest s₂)
    (hfail : Near (s₁.offset + 3) s₁.fails)
    (hle : s₂.offset - (s₁.offset + 3) ≤ Chunk.maxDistance) :
    Passes s start (.arm loc armLoc first rest) s₂ := by
  have ho : s₁.offset = s.offset + first.width := h.offset
  have ho' : s₂.offset = s₁.offset + 3 + rest.width := h'.offset
  have hfit := h'.fits
  rw [CheckState.offset_advance, ho] at hfit
  rw [ho] at hfail
  refine ⟨h.clean, ?_, List.Subset.trans h.leaves h'.leaves, h'.fails,
    fun inLoop inArm stop fail hs hx => ⟨?_, ?_, hfit inLoop inArm stop fail hs hx⟩⟩
  · rw [ho', ho]
    change _ = s.offset + (first.width + 3 + rest.width)
    omega
  · omega
  · exact h.fits inLoop true stop _ (fun hin => (hs hin).mono h'.leaves) fun _ => hfail

end Passes

theorem passes_check (path : String) (code : Code) {start : Nat} {s : CheckState}
    (h : (code.check path start s).found = []) :
    Passes s start code (code.check path start s) := by
  induction code generalizing start s with
  | skip | instr | bind => exact ⟨h, rfl, fun _ => id, fun _ => id, fun _ _ _ _ _ _ => trivial⟩
  | report => cases h
  | seq first rest ih ih' =>
    have h' := ih' h
    exact (ih h'.clean).seq h'
  | leave =>
    exact ⟨h, rfl, List.subset_cons_self .., fun _ => id,
      fun _ _ _ _ hs _ hin => hs hin _ List.mem_cons_self⟩
  | require =>
    exact ⟨h, rfl, fun _ => id, List.subset_cons_self ..,
      fun _ _ _ _ _ hx hin => hx hin _ List.mem_cons_self⟩
  | again loc =>
    obtain ⟨he, hle⟩ := CheckState.back_clean h
    rw [check, he] at h ⊢
    exact ⟨h, rfl, fun _ => id, fun _ => id, fun _ _ _ _ _ _ => hle⟩
  | when loc body ih =>
    obtain ⟨he, hle⟩ := CheckState.land_clean h
    rw [check, he] at h ⊢
    exact (ih h).when hle
  | ite loc yes no ih ih' =>
    obtain ⟨he, hle'⟩ := CheckState.land_clean h
    rw [check, he] at h ⊢
    have h' := ih' h
    obtain ⟨he', hle⟩ := CheckState.land_clean h'.clean
    rw [he'] at h' hle' ⊢
    exact (ih h'.clean).ite h' hle hle'
  | loop loc cond body ih ih' =>
    obtain ⟨he, hleave⟩ := CheckState.landAll_clean h
    have h₁ := (congrArg CheckState.found he).symm.trans h
    obtain ⟨he₁, hle⟩ := CheckState.land_clean h₁
    have h₂ := (congrArg CheckState.found he₁).symm.trans h₁
    obtain ⟨he₂, hback⟩ := CheckState.back_clean h₂
    have h' := ih' ((congrArg CheckState.found he₂).symm.trans h₂)
    rw [he₁, he₂] at hleave
    rw [he₂] at hle
    rw [check, he, he₁, he₂]
    exact (ih h'.clean).loop h' hback hle fun j hj => hleave j (List.mem_reverse.mpr hj)
  | arm loc armLoc attempt rest ih ih' =>
    obtain ⟨he, hle⟩ := CheckState.land_clean h
    have h' := ih' ((congrArg CheckState.found he).symm.trans h)
    obtain ⟨he', hfail⟩ := CheckState.landAll_clean h'.clean
    rw [check, he]
    rw [he'] at h' hle ⊢
    exact (ih h'.clean).arm h' (fun j hj => hfail j (List.mem_reverse.mpr hj)) hle

theorem fits_of_problems_eq_nil {path : String} {code : Code} (h : code.problems path = []) :
    code.Fits false false {} 0 :=
  (passes_check path code (List.reverse_eq_nil_iff.mp h)).fits false false 0 0 nofun nofun

end StackCode.Code
