import StackCode.Table

/-! # Lookups in tables -/

namespace StackCode.Table

variable {κ α : Type} [BEq κ] [LawfulBEq κ]

theorem lookup_put (k k' : κ) (a : α) (entries : List (κ × α)) :
    (put k a entries).lookup k' = if k' == k then some a else entries.lookup k' := by
  induction entries with
  | nil =>
    simp only [put, List.lookup_cons, List.lookup_nil]
    cases k' == k <;> rfl
  | cons e entries ih =>
    obtain ⟨k₁, a₁⟩ := e
    by_cases h : k = k₁
    · subst h
      simp only [put, beq_self_eq_true, if_true, List.lookup_cons]
      cases k' == k <;> rfl
    · simp only [put, beq_eq_false_iff_ne.mpr h, Bool.false_eq_true, if_false,
        List.lookup_cons]
      by_cases h₁ : k' = k₁
      · subst h₁
        rw [if_neg (by simpa using Ne.symm h)]
        simp
      · simp only [beq_eq_false_iff_ne.mpr h₁, ih]

theorem get?_insert (t : Table κ α) (k k' : κ) (a : α) :
    (t.insert k a).get? k' = if k' == k then some a else t.get? k' :=
  lookup_put k k' a t.entries

/-- Of the entries that are written one after another, the last one of a key counts. -/
theorem get?_foldl_insert {β : Type} (key : β → κ) (value : β → α) (xs : List β) (t : Table κ α)
    (k : κ) : (xs.foldl (fun t x => t.insert (key x) (value x)) t).get? k =
      ((xs.reverse.find? (key · == k)).map value).or (t.get? k) := by
  induction xs generalizing t with
  | nil => rfl
  | cons x xs ih =>
    rw [List.foldl_cons, ih, get?_insert, List.reverse_cons, List.find?_append,
      List.find?_singleton]
    cases xs.reverse.find? (key · == k) with
    | some y => rfl
    | none =>
      by_cases h : key x = k
      · simp [h]
      · simp [h, Ne.symm h]

theorem mem_of_get?_ofList {entries : List (κ × α)} {k : κ} {a : α}
    (h : (ofList entries).get? k = some a) : (k, a) ∈ entries := by
  rw [ofList, get?_foldl_insert Prod.fst Prod.snd entries empty k, empty, get?, List.lookup_nil,
    Option.or_none] at h
  obtain ⟨⟨k', a'⟩, hfind, rfl⟩ := Option.map_eq_some_iff.mp h
  have hkey := List.find?_some hfind
  cases eq_of_beq hkey
  exact List.mem_reverse.mp (List.mem_of_find?_eq_some hfind)

end StackCode.Table
