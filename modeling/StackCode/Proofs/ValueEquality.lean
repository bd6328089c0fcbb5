import StackCode.Value.Hash

/-! # Equality of values

Equality of values is an equivalence, though equal values need not be the same: structs are compared
by their symbols and closures by what identifies them. Neither equality nor hashes tell equal values
apart.
-/

namespace StackCode.Value

mutual

theorem beq_refl : (v : Value) → v.beq v = true
  | .enumCase ⟨o, n, i, a, vs⟩ => by simp [beq, beqs_refl vs]
  | .none | .int _ | .bool _ | .string _ | .pointer _ | .object _ | .closure _ | .struct _
  | .boundMethod _ _ | .builtin _ => by simp [beq]

theorem beqs_refl : (vs : List Value) → beqs vs vs = true
  | [] => rfl
  | v :: vs => by simp [beqs, beq_refl v, beqs_refl vs]

end

mutual

theorem beq_congr : (v : Value) → ∀ w, v.beq w = true →
    (∀ u, v.beq u = w.beq u) ∧ v.bytes = w.bytes
  | .enumCase ⟨o, n, i, a, vs⟩ => by
    intro w h
    cases w with
    | enumCase c =>
      simp only [beq, Bool.and_eq_true, beq_iff_eq] at h
      obtain ⟨⟨⟨⟨rfl, rfl⟩, rfl⟩, rfl⟩, hvs⟩ := h
      obtain ⟨hbeqs, hhashes⟩ := beqs_congr vs _ hvs
      refine ⟨fun u => ?_, by simp only [bytes, hhashes]⟩
      cases u with
      | enumCase d => simp only [beq, hbeqs]
      | _ => rfl
    | _ => simp [beq] at h
  | .none | .int _ | .bool _ | .string _ | .pointer _ | .object _ | .closure _ | .struct _
  | .boundMethod _ _ | .builtin _ => by
    intro w h
    cases w <;> simp only [beq, Bool.false_eq_true, beq_iff_eq, Bool.and_eq_true] at h
    all_goals
      refine ⟨fun u => ?_, by simp [bytes, h]⟩
      cases u <;> simp [beq, h]

theorem beqs_congr : (vs : List Value) → ∀ ws, beqs vs ws = true →
    (∀ us, beqs vs us = beqs ws us) ∧ hashesOf vs = hashesOf ws
  | [] => by
    intro ws h
    cases ws with
    | nil => exact ⟨fun _ => rfl, rfl⟩
    | cons w ws => simp [beqs] at h
  | v :: vs => by
    intro ws h
    cases ws with
    | nil => simp [beqs] at h
    | cons w ws =>
      simp only [beqs, Bool.and_eq_true] at h
      obtain ⟨hbeq, hbytes⟩ := beq_congr v w h.1
      obtain ⟨hbeqs, hhashes⟩ := beqs_congr vs ws h.2
      refine ⟨fun us => ?_, by simp only [hashesOf, hbytes, hhashes]⟩
      cases us with
      | nil => rfl
      | cons u us => simp only [beqs, hbeq, hbeqs]

end

instance : EquivBEq Value where
  rfl := beq_refl _
  symm h := ((beq_congr _ _ h).1 _).symm.trans (beq_refl _)
  trans h h' := ((beq_congr _ _ h).1 _).trans h'

theorem beqs_eq (vs : List Value) : ∀ ws, beqs vs ws = (vs == ws) := by
  induction vs with
  | nil => rintro (_ | _) <;> rfl
  | cons v vs ih =>
    rintro (_ | ⟨w, ws⟩)
    · rfl
    · exact congrArg (v.beq w && ·) (ih ws)

/-- Equality is an equivalence that compares closures by what identifies them, and cases with all
their values. Equal values have the same hash, or none for the same reason. -/
theorem equal_values_hash_alike :
    Equivalence (fun v w : Value => (v == w) = true) ∧
    (∀ c c', (closure c == closure c') = true ↔ c.id = c'.id) ∧
    (∀ c c', (enumCase c == enumCase c') = true ↔ c.owner = c'.owner ∧ c.name = c'.name ∧
      c.index = c'.index ∧ c.arity = c'.arity ∧ (c.values == c'.values) = true) ∧
    ∀ v w : Value, (v == w) = true → v.hash = w.hash := by
  refine ⟨⟨fun v => BEq.rfl, BEq.symm, BEq.trans⟩, fun c c' => ?_, fun c c' => ?_, fun v w h => ?_⟩
  · exact beq_iff_eq (a := c.id)
  · change beq _ _ = true ↔ _
    simp [beq, beqs_eq, and_assoc]
  · rw [hash, hash, (beq_congr v w h).2]

end StackCode.Value
