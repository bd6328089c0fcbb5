import Mathlib.Data.List.Forall2
import StackCode.Heap.Basic

/-! # Computations in parallel

Two arrays, arenas or computations that go together step by step.
-/

namespace StackCode

/-! ## Arrays in parallel -/

section Pointwise

variable {α β : Type} {r r' : α → β → Prop} {xs : Array α} {ys : Array β}

def Pointwise (r : α → β → Prop) (xs : Array α) (ys : Array β) : Prop :=
  ∀ i : Nat, Option.Rel r xs[i]? ys[i]?

variable {b : Option β} {a : Option α}

theorem rel_mono (h : Option.Rel r a b) (hr : ∀ x y, r x y → r' x y) : Option.Rel r' a b := by
  cases h with
  | some h => exact .some (hr _ _ h)
  | none => exact .none

theorem rel_map {γ δ : Type} {s : γ → δ → Prop} (h : Option.Rel r a b) {f : α → γ} {g : β → δ}
    (hf : ∀ x y, r x y → s (f x) (g y)) :
    Option.Rel s (a.map f) (b.map g) := by
  cases h with
  | some h => exact .some (hf _ _ h)
  | none => exact .none

theorem rel_self {r : α → α → Prop} (h : ∀ x, a = some x → r x x) :
    Option.Rel r a a := by
  cases a with
  | some x => exact .some (h x rfl)
  | none => exact .none

theorem eq_none_iff_of_rel (h : Option.Rel r a b) :
    a = none ↔ b = none := by
  cases h <;> simp

theorem eq_map_of_rel (h : Option.Rel r a b) {f : α → β} (hf : ∀ x y, r x y → y = f x) :
    b = a.map f := by
  cases h with
  | some h => rw [hf _ _ h, Option.map_some]
  | none => rfl

theorem getElem?_shrink (a : Array α) (n k : Nat) :
    (a.shrink n)[k]? = if k < n then a[k]? else none := by
  rw [Array.shrink_eq_take, Array.take_eq_extract, Array.getElem?_extract, Nat.zero_add,
    Nat.sub_zero]
  rcases Nat.lt_or_ge k a.size with hk | hk
  · simp only [Nat.lt_min, hk, and_true]
  · rw [Array.getElem?_eq_none hk, ite_self, ite_self]

namespace Pointwise

theorem mono (h : Pointwise r xs ys) (hr : ∀ x y, r x y → r' x y) : Pointwise r' xs ys :=
  fun i => rel_mono (h i) hr

theorem nil : Pointwise r #[] #[] := fun _ => .none

theorem size_eq (h : Pointwise r xs ys) : xs.size = ys.size := by
  have hiff : ∀ i, xs.size ≤ i ↔ ys.size ≤ i := by
    intro i
    rw [← Array.getElem?_eq_none_iff, ← Array.getElem?_eq_none_iff, eq_none_iff_of_rel (h i)]
  have := hiff xs.size
  have := hiff ys.size
  omega

theorem push (h : Pointwise r xs ys) {x : α} {y : β} (hxy : r x y) :
    Pointwise r (xs.push x) (ys.push y) := by
  intro i
  rw [Array.getElem?_push, Array.getElem?_push, h.size_eq]
  split
  · exact .some hxy
  · exact h i

theorem pop (h : Pointwise r xs ys) : Pointwise r xs.pop ys.pop := by
  intro i
  rw [Array.getElem?_pop, Array.getElem?_pop, h.size_eq]
  split
  · exact h i
  · exact .none

theorem back? (h : Pointwise r xs ys) : Option.Rel r xs.back? ys.back? := by
  rw [Array.back?_eq_getElem?, Array.back?_eq_getElem?, h.size_eq]
  exact h _

theorem shrink (h : Pointwise r xs ys) (n : Nat) : Pointwise r (xs.shrink n) (ys.shrink n) := by
  intro i
  rw [getElem?_shrink, getElem?_shrink]
  split
  · exact h i
  · exact .none

theorem set (h : Pointwise r xs ys) (i : Nat) {x : α} {y : β} (hxy : r x y) :
    Pointwise r (xs.setIfInBounds i x) (ys.setIfInBounds i y) := by
  intro j
  rw [Array.getElem?_setIfInBounds, Array.getElem?_setIfInBounds, h.size_eq]
  split
  · split
    · exact .some hxy
    · exact .none
  · exact h j

theorem modify (h : Pointwise r xs ys) (i : Nat) {f : α → α} {g : β → β}
    (hf : ∀ x y, r x y → r (f x) (g y)) : Pointwise r (xs.modify i f) (ys.modify i g) := by
  intro j
  rw [Array.getElem?_modify, Array.getElem?_modify]
  split
  · exact rel_map (h j) hf
  · exact h j

theorem replicate {x : α} {y : β} (h : r x y) (n : Nat) :
    Pointwise r (Array.replicate n x) (Array.replicate n y) := by
  intro i
  rw [Array.getElem?_replicate, Array.getElem?_replicate]
  split
  · exact .some h
  · exact .none

end Pointwise

theorem map_eq_of_pointwise {γ : Type} {f : α → γ} {g : β → γ} (h : Pointwise r xs ys)
    (hf : ∀ x y, r x y → g y = f x) : ys.map g = xs.map f := by
  refine Array.ext_getElem? fun i => ?_
  have hi := h i
  rw [Array.getElem?_map, Array.getElem?_map]
  generalize xs[i]? = x at hi
  generalize ys[i]? = y at hi
  cases hi with
  | some hxy => rw [Option.map_some, Option.map_some, hf _ _ hxy]
  | none => rfl

theorem eq_map_of_pointwise {f : α → β} (h : Pointwise r xs ys) (hf : ∀ x y, r x y → y = f x) :
    ys = xs.map f := by
  rw [← map_eq_of_pointwise h hf, Array.map_id']

theorem forall₂_of_getElem? : {xs : List α} → {ys : List β} →
    (∀ i : Nat, Option.Rel r xs[i]? ys[i]?) → List.Forall₂ r xs ys
  | [], [], _ => .nil
  | [], y :: ys, h => by cases h 0
  | x :: xs, [], h => by cases h 0
  | x :: xs, y :: ys, h => by
    cases h 0 with
    | some hxy => exact .cons hxy (forall₂_of_getElem? fun i => h (i + 1))

theorem Pointwise.extract (h : Pointwise r xs ys) (n : Nat) :
    List.Forall₂ r (xs.extract n xs.size).toList (ys.extract n ys.size).toList := by
  refine forall₂_of_getElem? fun i => ?_
  rw [Array.getElem?_toList, Array.getElem?_toList, Array.getElem?_extract,
    Array.getElem?_extract, h.size_eq]
  split
  · exact h _
  · exact .none

theorem getElem?_of_forall₂ {xs : List α} {ys : List β} (h : List.Forall₂ r xs ys) :
    ∀ i : Nat, Option.Rel r xs[i]? ys[i]? := by
  induction h with
  | nil => exact fun _ => .none
  | cons hxy _ ih =>
    intro i
    cases i with
    | zero => exact .some hxy
    | succ i => exact ih i

end Pointwise

/-! ## Computations in parallel -/

section Paired

variable {ε σ τ α α' β β' : Type} {Q : α → σ → β → τ → Prop} {F : ε → σ → τ → Prop}

/-- Both computations succeed as given, or both fail with the same error in states as given. -/
inductive Paired (Q : α → σ → β → τ → Prop) (F : ε → σ → τ → Prop) :
    EStateM.Result ε σ α → EStateM.Result ε τ β → Prop where
  | ok {a : α} {s : σ} {b : β} {t : τ} (h : Q a s b t) : Paired Q F (.ok a s) (.ok b t)
  | error (e : ε) {s : σ} {t : τ} (h : F e s t) : Paired Q F (.error e s) (.error e t)

theorem Paired.bind {Q' : α' → σ → β' → τ → Prop} {m : EStateM ε σ α} {m' : EStateM ε τ β}
    {rest : α → EStateM ε σ α'} {rest' : β → EStateM ε τ β'} {s : σ} {t : τ}
    (h : Paired Q F (m s) (m' t))
    (h' : ∀ a s b t, Q a s b t → Paired Q' F (rest a s) (rest' b t)) :
    Paired Q' F ((m >>= rest) s) ((m' >>= rest') t) := by
  change Paired Q' F (EStateM.bind m rest s) (EStateM.bind m' rest' t)
  unfold EStateM.bind
  generalize m s = x at h ⊢
  generalize m' t = y at h ⊢
  cases h with
  | ok h => exact h' _ _ _ _ h
  | error e h => exact .error e h

theorem Paired.mono {Q' : α → σ → β → τ → Prop} {F' : ε → σ → τ → Prop}
    {x : EStateM.Result ε σ α} {y : EStateM.Result ε τ β} (h : Paired Q F x y)
    (hQ : ∀ a s b t, Q a s b t → Q' a s b t) (hF : ∀ e s t, F e s t → F' e s t) :
    Paired Q' F' x y := by
  cases h with
  | ok h => exact .ok (hQ _ _ _ _ h)
  | error e h => exact .error e (hF e _ _ h)

/-- From related states, the computations lead to related results and states, or they fail in the
same way in related states. -/
def Parallel (S : σ → τ → Prop) (r : α → β → Prop) (m : EStateM ε σ α) (m' : EStateM ε τ β) :
    Prop :=
  ∀ s t, S s t → Paired (fun a s b t => r a b ∧ S s t) (fun _ => S) (m s) (m' t)

namespace Parallel

variable {S : σ → τ → Prop} {r : α → β → Prop} {r' : α' → β' → Prop} {m : EStateM ε σ α}
  {m' : EStateM ε τ β}

theorem done {a : α} {b : β} (h : r a b) :
    Parallel S r (pure a : EStateM ε σ α) (pure b : EStateM ε τ β) :=
  fun _ _ hs => .ok ⟨h, hs⟩

theorem fails (e : ε) :
    Parallel S r (throw e : EStateM ε σ α) (throw e : EStateM ε τ β) :=
  fun _ _ hs => .error e hs

theorem bind {rest : α → EStateM ε σ α'} {rest' : β → EStateM ε τ β'} (h : Parallel S r m m')
    (h' : ∀ a b, r a b → Parallel S r' (rest a) (rest' b)) :
    Parallel S r' (m >>= rest) (m' >>= rest') :=
  fun s t hs => (h s t hs).bind fun a s b t hab => h' a b hab.1 s t hab.2

theorem andThen {m' : EStateM ε τ α} {rest : α → EStateM ε σ α'} {rest' : α → EStateM ε τ β'}
    (h : Parallel S Eq m m') (h' : ∀ a, Parallel S r' (rest a) (rest' a)) :
    Parallel S r' (m >>= rest) (m' >>= rest') := by
  refine h.bind fun a b hab => ?_
  subst hab
  exact h' a

theorem read : Parallel S S (get : EStateM ε σ σ) (get : EStateM ε τ τ) :=
  fun _ _ hs => .ok ⟨hs, hs⟩

theorem modified {f : σ → σ} {f' : τ → τ} (h : ∀ s t, S s t → S (f s) (f' t)) :
    Parallel S Eq (modify f : EStateM ε σ PUnit) (modify f' : EStateM ε τ PUnit) :=
  fun _ _ hs => .ok ⟨rfl, h _ _ hs⟩

theorem written {s : σ} {t : τ} (h : S s t) :
    Parallel S Eq (set s : EStateM ε σ PUnit) (set t : EStateM ε τ PUnit) :=
  fun _ _ _ => .ok ⟨rfl, h⟩

end Parallel

end Paired

/-! ## Arenas -/

namespace Arena

variable {α : Type} {r : α → α → Prop} {a a' : Arena α}

structure Alike (r : α → α → Prop) (a a' : Arena α) : Prop where
  slots : Pointwise (fun s s' => s'.generation = s.generation ∧ Option.Rel r s.content s'.content)
    a.slots a'.slots
  free : a'.free = a.free
  live : a'.live = a.live

namespace Alike

theorem get? (h : Alike r a a') (handle : Handle) :
    Option.Rel r (a.get? handle) (a'.get? handle) := by
  have hslot := h.slots handle.index.toNat
  unfold Arena.get?
  generalize a.slots[handle.index.toNat]? = s at hslot
  generalize a'.slots[handle.index.toNat]? = s' at hslot
  cases hslot with
  | none => exact .none
  | @some s s' hs =>
    change Option.Rel r (if s.generation == handle.generation then s.content else none)
      (if s'.generation == handle.generation then s'.content else none)
    rw [hs.1]
    split
    · exact hs.2
    · exact .none

theorem contains_eq (h : Alike r a a') (handle : Handle) :
    a'.contains handle = a.contains handle := by
  have hget := h.get? handle
  unfold contains
  generalize a.get? handle = x at hget
  generalize a'.get? handle = x' at hget
  cases hget <;> rfl

theorem insert (h : Alike r a a') {v v' : α} (hv : r v v') :
    (a'.insert v').1 = (a.insert v).1 ∧ Alike r (a.insert v).2 (a'.insert v').2 := by
  unfold Arena.insert
  rw [h.free, h.live]
  cases a.free with
  | nil =>
    refine ⟨by rw [h.slots.size_eq], h.slots.push ⟨rfl, .some hv⟩, rfl, rfl⟩
  | cons i free =>
    have hgeneration : (a'.slots[i.toNat]?.map (·.generation)).getD 0 =
        (a.slots[i.toNat]?.map (·.generation)).getD 0 := by
      have hslot := h.slots i.toNat
      generalize a.slots[i.toNat]? = s at hslot
      generalize a'.slots[i.toNat]? = s' at hslot
      cases hslot with
      | none => rfl
      | some hs => exact hs.1
    exact ⟨congrArg (Handle.mk i) hgeneration,
      h.slots.modify i.toNat fun s s' hs => ⟨hs.1, .some hv⟩, rfl, rfl⟩

theorem modify (h : Alike r a a') (handle : Handle) {f f' : α → α}
    (hf : ∀ v v', r v v' → r (f v) (f' v')) :
    Alike r (a.modify handle f) (a'.modify handle f') := by
  refine ⟨h.slots.modify _ fun s s' hs => ?_, h.free, h.live⟩
  rw [hs.1]
  split
  · exact ⟨rfl, rel_map hs.2 hf⟩
  · exact hs

theorem erase (h : Alike r a a') (handle : Handle) : Alike r (a.erase handle) (a'.erase handle) :=
  ⟨h.slots.modify _ fun _ _ hs => ⟨by rw [hs.1], .none⟩, congrArg (handle.index :: ·) h.free,
    congrArg (· - 1) h.live⟩

end Alike

end Arena

end StackCode
