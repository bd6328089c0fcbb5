import StackCode.Proofs.ValueEquality
import Mathlib.Data.List.Basic

/-! # Maps in two columns

A finite map as a dictionary keeps it: keys in one list, their values in the same places of another.
No two keys are equal. An entry is added at the end, and the last entry takes the place of one that
is removed.
-/

namespace StackCode

/-- A map from keys to values, with the number of its keys. Equal keys have the same value. -/
@[ext]
structure KeyMap where
  find : Value → Option Value
  count : Nat

namespace KeyMap

def empty : KeyMap := ⟨fun _ => none, 0⟩

def set (m : KeyMap) (key v : Value) : KeyMap where
  find q := if q == key then some v else m.find q
  count := if (m.find key).isSome then m.count else m.count + 1

def erase (m : KeyMap) (key : Value) : KeyMap where
  find q := if q == key then none else m.find q
  count := if (m.find key).isSome then m.count - 1 else m.count

end KeyMap

namespace Collection

def Unequal (keys : List Value) : Prop :=
  ∀ (i j : Nat) x y, keys[i]? = some x → keys[j]? = some y → (x == y) = true → i = j

namespace Dictionary

def columns (keys values : List Value) : KeyMap where
  find q := (keys.findIdx? (· == q)).bind (values[·]?)
  count := keys.length

def put (keys values : List Value) (key v : Value) : List Value × List Value :=
  match keys.findIdx? (· == key) with
  | some slot => (keys, values.set slot v)
  | none => (keys ++ [key], values ++ [v])

def putAll (keys values : List Value) (entries : List (Value × Value)) : List Value × List Value :=
  entries.foldl (fun r e => put r.1 r.2 e.1 e.2) (keys, values)

def swapRemove (slot : Nat) (vs : List Value) : List Value :=
  (vs.set slot (vs.getLast?.getD .none)).dropLast

variable {keys values : List Value} {key q v : Value} {slot i : Nat}

theorem findIdx?_congr (h : (q == key) = true) :
    keys.findIdx? (· == q) = keys.findIdx? (· == key) := by
  congr 1
  funext x
  exact BEq.congr_right h

theorem exists_of_findIdx? (h : keys.findIdx? (· == q) = some i) :
    ∃ x, keys[i]? = some x ∧ (x == q) = true := by
  obtain ⟨hlt, hx, -⟩ := List.findIdx?_eq_some_iff_getElem.mp h
  exact ⟨_, List.getElem?_eq_getElem hlt, hx⟩

theorem lt_of_findIdx? (h : keys.findIdx? (· == q) = some i) : i < keys.length := by
  obtain ⟨hlt, -⟩ := List.findIdx?_eq_some_iff_getElem.mp h
  exact hlt

theorem findIdx?_iff (hu : Unequal keys) :
    keys.findIdx? (· == q) = some i ↔ ∃ x, keys[i]? = some x ∧ (x == q) = true := by
  constructor
  · exact exists_of_findIdx?
  · rintro ⟨x, hx, hq⟩
    cases hf : keys.findIdx? (· == q) with
    | none =>
      have hne := List.findIdx?_eq_none_iff.mp hf x (List.mem_of_getElem? hx)
      rw [hq] at hne
      cases hne
    | some j =>
      obtain ⟨y, hy, hyq⟩ := exists_of_findIdx? hf
      rw [hu i j x y hx hy (BEq.trans hq (BEq.symm hyq))]

theorem find_iff (hu : Unequal keys) : (columns keys values).find q = some v ↔
    ∃ (i : Nat) (x : Value), keys[i]? = some x ∧ (x == q) = true ∧ values[i]? = some v := by
  simp only [columns, Option.bind_eq_some_iff, findIdx?_iff hu]
  constructor
  · rintro ⟨i, ⟨x, hx, hq⟩, hv⟩
    exact ⟨i, x, hx, hq, hv⟩
  · rintro ⟨i, x, hx, hq, hv⟩
    exact ⟨i, ⟨x, hx, hq⟩, hv⟩

theorem find_isSome (hlen : values.length = keys.length) :
    ((columns keys values).find q).isSome = (keys.findIdx? (· == q)).isSome := by
  unfold columns
  dsimp only
  cases h : keys.findIdx? (· == q) with
  | none => rfl
  | some i =>
    have hlt := lt_of_findIdx? h
    rw [Option.bind_some, List.getElem?_eq_getElem (by omega)]
    rfl

/-! ## Setting an entry -/

theorem length_put_le (keys values : List Value) (key v : Value) :
    (put keys values key v).1.length ≤ keys.length + 1 := by
  unfold put
  split <;> simp

theorem length_put (hlen : values.length = keys.length) :
    (put keys values key v).2.length = (put keys values key v).1.length := by
  unfold put
  split <;> simp [hlen]

theorem unequal_push (hu : Unequal keys) (hnew : keys.findIdx? (· == key) = none) :
    Unequal (keys ++ [key]) := by
  have hne : ∀ (i : Nat) x, keys[i]? = some x → (x == key) = false := fun i x hx =>
    List.findIdx?_eq_none_iff.mp hnew x (List.mem_of_getElem? hx)
  have hcases : ∀ (i : Nat) x, (keys ++ [key])[i]? = some x →
      keys[i]? = some x ∨ i = keys.length ∧ x = key := by
    intro i x hx
    rcases Nat.lt_or_ge i keys.length with hi | hi
    · rw [List.getElem?_append_left hi] at hx
      exact .inl hx
    · rw [List.getElem?_append_right hi, List.getElem?_singleton] at hx
      split at hx
      · cases hx
        exact .inr ⟨by omega, rfl⟩
      · cases hx
  intro i j x y hx hy hxy
  rcases hcases i x hx with hx' | ⟨hi, rfl⟩ <;> rcases hcases j y hy with hy' | ⟨hj, rfl⟩
  · exact hu i j x y hx' hy' hxy
  · rw [hne i x hx'] at hxy
    cases hxy
  · rw [BEq.comm, hne j y hy'] at hxy
    cases hxy
  · omega

theorem columns_put (hlen : values.length = keys.length) :
    columns (put keys values key v).1 (put keys values key v).2 =
      (columns keys values).set key v := by
  have hsome := find_isSome (q := key) hlen
  unfold put
  cases hf : keys.findIdx? (· == key) with
  | some slot =>
    have hlt := lt_of_findIdx? hf
    obtain ⟨x, hx, hxk⟩ := exists_of_findIdx? hf
    apply KeyMap.ext
    · funext q
      change (keys.findIdx? (· == q)).bind ((values.set slot v)[·]?) =
        if q == key then some v else (keys.findIdx? (· == q)).bind (values[·]?)
      split
      · rename_i hq
        rw [findIdx?_congr hq, hf, Option.bind_some, List.getElem?_set_self (by omega)]
      · rename_i hq
        cases hi : keys.findIdx? (· == q) with
        | none => rfl
        | some i =>
          rw [Option.bind_some, Option.bind_some, List.getElem?_set_ne]
          rintro rfl
          obtain ⟨y, hy, hyq⟩ := exists_of_findIdx? hi
          cases hx.symm.trans hy
          exact hq (BEq.trans (BEq.symm hyq) hxk)
    · change keys.length = if _ then keys.length else keys.length + 1
      rw [hsome, hf]
      rfl
  | none =>
    apply KeyMap.ext
    · funext q
      change ((keys ++ [key]).findIdx? (· == q)).bind ((values ++ [v])[·]?) =
        if q == key then some v else (keys.findIdx? (· == q)).bind (values[·]?)
      rw [List.findIdx?_append]
      split
      · rename_i hq
        rw [findIdx?_congr hq, hf, List.findIdx?_singleton, if_pos (BEq.symm hq)]
        simp [← hlen]
      · rename_i hq
        have hkey : (key == q) = false := by rwa [BEq.comm, ← Bool.not_eq_true]
        rw [List.findIdx?_singleton, hkey]
        cases hi : keys.findIdx? (· == q) with
        | none => rfl
        | some i =>
          have hlt := lt_of_findIdx? hi
          exact List.getElem?_append_left (by omega)
    · change (keys ++ [key]).length = if _ then keys.length else keys.length + 1
      rw [hsome, hf]
      simp

/-! ## Removing an entry -/

theorem getElem?_swapRemove (vs : List Value) (hslot : slot < vs.length) :
    (swapRemove slot vs)[i]? =
      if i < vs.length - 1 then vs[if i = slot then vs.length - 1 else i]? else none := by
  rw [swapRemove, List.getElem?_dropLast, List.length_set]
  split
  · rename_i hi
    have hlast : vs.getLast?.getD .none = vs[vs.length - 1] := by
      rw [List.getLast?_eq_getElem?, List.getElem?_eq_getElem (by omega), Option.getD_some]
    rw [List.getElem?_set, hlast]
    by_cases his : slot = i
    · subst his
      rw [if_pos rfl, if_pos hslot, if_pos rfl, List.getElem?_eq_getElem (by omega)]
    · rw [if_neg his, if_neg (Ne.symm his)]
  · rfl

theorem length_swapRemove (vs : List Value) : (swapRemove slot vs).length = vs.length - 1 := by
  rw [swapRemove, List.length_dropLast, List.length_set]

theorem unequal_swapRemove (hu : Unequal keys) (hslot : slot < keys.length) :
    Unequal (swapRemove slot keys) := by
  intro i j x y hx hy hxy
  rw [getElem?_swapRemove keys hslot] at hx hy
  split at hx
  · split at hy
    · have hij := hu _ _ x y hx hy hxy
      split at hij <;> split at hij <;> omega
    · cases hy
  · cases hx

theorem columns_swapRemove (hu : Unequal keys) (hlen : values.length = keys.length)
    (hf : keys.findIdx? (· == key) = some slot) :
    columns (swapRemove slot keys) (swapRemove slot values) = (columns keys values).erase key := by
  have hslot := lt_of_findIdx? hf
  have hsome := find_isSome (q := key) hlen
  obtain ⟨z, hz, hzk⟩ := exists_of_findIdx? hf
  apply KeyMap.ext
  · funext q
    refine Option.ext fun v => ?_
    rw [find_iff (unequal_swapRemove hu hslot)]
    change _ ↔ (if q == key then none else (columns keys values).find q) = some v
    simp only [getElem?_swapRemove keys hslot, getElem?_swapRemove values (hlen ▸ hslot), hlen]
    constructor
    · rintro ⟨i, x, hx, hxq, hv⟩
      split at hx
      · rename_i hi
        rw [if_pos hi] at hv
        have hne : ¬ (q == key) = true := fun hq => by
          have := hu _ _ x z hx hz (BEq.trans hxq (BEq.trans hq (BEq.symm hzk)))
          split at this <;> omega
        rw [if_neg hne, find_iff hu]
        exact ⟨_, x, hx, hxq, hv⟩
      · cases hx
    · intro hv
      rw [Option.ite_none_left_eq_some, find_iff hu] at hv
      obtain ⟨hq, j, x, hx, hxq, hv⟩ := hv
      have hj : j ≠ slot := by
        rintro rfl
        cases hx.symm.trans hz
        exact hq (BEq.trans (BEq.symm hxq) hzk)
      have hjlt := (List.getElem?_eq_some_iff.mp hx).1
      by_cases hlast : j = keys.length - 1
      · exact ⟨slot, x, by rw [if_pos (by omega), if_pos rfl, ← hlast]; exact hx, hxq,
          by rw [if_pos (by omega), if_pos rfl, ← hlast]; exact hv⟩
      · exact ⟨j, x, by rw [if_pos (by omega), if_neg hj]; exact hx, hxq,
          by rw [if_pos (by omega), if_neg hj]; exact hv⟩
  · change (swapRemove slot keys).length = if _ then keys.length - 1 else keys.length
    rw [length_swapRemove, hsome, hf]
    rfl

end Dictionary

end Collection

end StackCode
