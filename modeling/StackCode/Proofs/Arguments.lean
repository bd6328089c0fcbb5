import Mathlib.Data.List.Perm.Basic
import Mathlib.Data.List.Nodup
import StackCode.Proofs.Calls

/-! # Labelled arguments

An argument with a label is for the parameter of this name, and the other ones are for the rest of
the parameters in order.
-/

namespace StackCode

/-- A labelled argument is given for its label, and the other ones for the rest of the parameters in
order. -/
structure Argument.Given (params : List String) (args : List Argument) (given : String → Expr) :
    Prop where
  labelled : ∀ arg ∈ args, ∀ name, arg.label = some name → given name = arg.value
  unlabelled : (params.filter (· ∉ args.filterMap Argument.label)).map given =
    (args.filter (·.label.isNone)).map (·.value)

namespace Lowering

namespace Labelled

variable {α : Type} (callee : String) {params : List String} {f : String → Option α}

theorem map_set (hp : params.Nodup) {i : Nat} {name : String} (hi : params[i]? = some name)
    (x : Option α) : (params.map f).set i x = params.map (Function.update f name x) := by
  refine List.ext_getElem? fun j => ?_
  rw [List.getElem?_set, List.getElem?_map, List.getElem?_map, List.length_map]
  obtain ⟨hlt, hname⟩ := List.getElem?_eq_some_iff.mp hi
  by_cases hij : i = j
  · subst hij
    rw [if_pos rfl, if_pos hlt, hi, Option.map_some, Function.update_self]
  · rw [if_neg hij]
    refine Option.map_congr fun y hy => (Function.update_of_ne ?_ _ _).symm
    rintro rfl
    exact hij ((List.getElem?_inj hlt hp).mp (hi.trans hy.symm))

/-- Labelled arguments that are all for different parameters get there. -/
theorem foldl_give (hp : params.Nodup) (args : List (Labelled α))
    (hl : (args.filterMap label).Nodup)
    (hf : ∀ name ∈ args.filterMap label, name ∈ params ∧ f name = none) :
    ∃ g, args.foldl (give callee params) ⟨params.map f, []⟩ = ⟨params.map g, []⟩ ∧
      (∀ name, name ∉ args.filterMap label → g name = f name) ∧
      ∀ arg ∈ args, ∀ name, arg.label = some name → g name = some arg.value := by
  induction args generalizing f with
  | nil => exact ⟨f, rfl, fun _ _ => rfl, by simp⟩
  | cons arg args ih =>
    cases hlabel : arg.label with
    | none =>
      rw [List.filterMap_cons_none hlabel] at hl hf ⊢
      obtain ⟨g, hg, hold, hnew⟩ := ih hl hf
      refine ⟨g, ?_, hold, List.forall_mem_cons.mpr ⟨by simp [hlabel], hnew⟩⟩
      rw [List.foldl_cons, give, hlabel]
      exact hg
    | some label =>
      rw [List.filterMap_cons_some hlabel] at hl hf ⊢
      obtain ⟨hfresh, hl⟩ := List.nodup_cons.mp hl
      obtain ⟨⟨hmem, hnone⟩, hf⟩ := List.forall_mem_cons.mp hf
      obtain ⟨i, hi⟩ : ∃ i, params.findIdx? (· == label) = some i :=
        Option.isSome_iff_exists.mp (by simpa using hmem)
      have hget : params[i]? = some label := by
        obtain ⟨hlt, he, -⟩ := List.findIdx?_eq_some_iff_getElem.mp hi
        rw [List.getElem?_eq_getElem hlt, eq_of_beq he]
      obtain ⟨g, hg, hold, hnew⟩ := ih (f := Function.update f label (some arg.value)) hl
        fun name hn => ⟨(hf name hn).1, by
          rw [Function.update_of_ne (by rintro rfl; exact hfresh hn), (hf name hn).2]⟩
      refine ⟨g, ?_, fun name hn => ?_, List.forall_mem_cons.mpr ⟨fun name hname => ?_, hnew⟩⟩
      · rw [List.foldl_cons, give, hlabel]
        simp only [hi, List.getElem?_map, hget, Option.map_some, hnone]
        rw [map_set hp hget, hg]
      · rw [List.mem_cons, not_or] at hn
        obtain ⟨hne, hn⟩ := hn
        rw [hold name hn, Function.update_of_ne hne]
      · cases hlabel.symm.trans hname
        rw [hold label hfresh, Function.update_self]

/-- The slots that stay empty take the rest in order. -/
theorem fill_eq_map (hp : params.Nodup) (d : α) (rest : List α)
    (hlen : rest.length = (params.filter fun name => (f name).isNone).length) :
    ∃ g, fill (params.map f) rest = params.map g ∧ (∀ name a, f name = some a → g name = a) ∧
      (params.filter fun name => (f name).isNone).map g = rest := by
  induction params generalizing rest with
  | nil =>
    exact ⟨fun name => (f name).getD d, rfl, fun _ _ h => by simp [h],
      (List.length_eq_zero_iff.mp hlen).symm⟩
  | cons name params ih =>
    obtain ⟨hfresh, hp⟩ := List.nodup_cons.mp hp
    cases hname : f name with
    | some a =>
      rw [List.filter_cons_of_neg (by simp [hname])] at hlen ⊢
      obtain ⟨g, hg, hold, hrest⟩ := ih hp rest hlen
      exact ⟨g, by rw [List.map_cons, hname, fill, hg, List.map_cons, hold name a hname],
        hold, hrest⟩
    | none =>
      rw [List.filter_cons_of_pos (by simp [hname])] at hlen ⊢
      obtain _ | ⟨a, rest⟩ := rest
      · cases hlen
      obtain ⟨g, hg, hold, hrest⟩ := ih hp rest (Nat.succ.inj hlen)
      have hsame : ∀ x ∈ params, Function.update g name a x = g x :=
        fun x hx => Function.update_of_ne (by rintro rfl; exact hfresh hx) _ _
      refine ⟨Function.update g name a, ?_, fun x b hx => ?_, ?_⟩
      · rw [List.map_cons, hname, fill, hg, List.map_cons, Function.update_self,
          List.map_congr_left hsame]
      · rw [Function.update_of_ne (fun h => by rw [h, hname] at hx; cases hx), hold x b hx]
      · rw [List.map_cons, Function.update_self,
          List.map_congr_left fun x hx => hsame x (List.mem_of_mem_filter hx), hrest]

theorem length_unlabelled (args : List (Labelled α)) :
    args.length = (args.filterMap label).length + (unlabelled args).length := by
  rw [unlabelled, List.length_map]
  induction args with
  | nil => rfl
  | cons arg args ih =>
    cases hlabel : arg.label with
    | none =>
      rw [List.filterMap_cons_none hlabel, List.filter_cons_of_pos (by simp [hlabel])]
      simp only [List.length_cons]
      omega
    | some label =>
      rw [List.filterMap_cons_some hlabel, List.filter_cons_of_neg (by simp [hlabel])]
      simp only [List.length_cons]
      omega

theorem problems_give_suffix (params : List String) (args : List (Labelled α)) (s : Slots α) :
    s.problems <:+ (args.foldl (give callee params) s).problems := by
  induction args generalizing s with
  | nil => exact List.suffix_rfl
  | cons arg args ih =>
    refine .trans ?_ (ih (give callee params s arg))
    unfold give
    split
    · exact List.suffix_rfl
    split
    · exact List.suffix_cons _ _
    split
    · exact List.suffix_rfl
    · exact List.suffix_cons _ _

/-- Labels that cause no problems are names of different parameters that have got nothing yet. -/
theorem labels_of_give {args : List (Labelled α)} {s : Slots α}
    (h : (args.foldl (give callee params) s).problems = []) :
    (args.filterMap label).Nodup ∧ ∀ name ∈ args.filterMap label,
      ∃ i, params.findIdx? (· == name) = some i ∧ s.slots[i]? = some none := by
  induction args generalizing s with
  | nil => exact ⟨.nil, by simp⟩
  | cons arg args ih =>
    rw [List.foldl_cons] at h
    have hgive : (give callee params s arg).problems = [] :=
      List.suffix_nil.mp (h ▸ problems_give_suffix callee params args _)
    cases hlabel : arg.label with
    | none =>
      rw [List.filterMap_cons_none hlabel]
      rw [give, hlabel] at h
      exact ih h
    | some label =>
      rw [List.filterMap_cons_some hlabel]
      simp only [give, hlabel] at h hgive
      cases hi : params.findIdx? (· == label) with
      | none =>
        rw [hi] at hgive
        cases hgive
      | some i =>
        rw [hi] at hgive
        have hslot : s.slots[i]? = some none := by
          dsimp only at hgive
          split at hgive
          · assumption
          · cases hgive
        simp only [hi, hslot] at h
        obtain ⟨hnodup, hfree⟩ := ih h
        have hother : ∀ name ∈ args.filterMap Labelled.label, ∃ j, j ≠ i ∧
            params.findIdx? (· == name) = some j ∧ s.slots[j]? = some none := by
          intro name hn
          obtain ⟨j, hj, hget⟩ := hfree name hn
          rw [List.getElem?_set] at hget
          split at hget
          · split at hget <;> cases hget
          · rename_i hne
            exact ⟨j, Ne.symm hne, hj, hget⟩
        refine ⟨List.nodup_cons.mpr ⟨fun hm => ?_, hnodup⟩, List.forall_mem_cons.mpr
          ⟨⟨i, hi, hslot⟩, fun name hn => ?_⟩⟩
        · obtain ⟨j, hne, hj, -⟩ := hother label hm
          exact hne (Option.some.inj (hj.symm.trans hi))
        · obtain ⟨j, -, hj⟩ := hother name hn
          exact ⟨j, hj⟩

theorem labels_of_arrange {args : List (Labelled α)}
    (h : (arrange callee (some params) args).1 = []) :
    (args.filterMap label).Nodup ∧ ∀ name ∈ args.filterMap label, name ∈ params := by
  rw [arrange] at h
  split at h
  · obtain ⟨hnodup, hfree⟩ := labels_of_give callee (List.reverse_eq_nil_iff.mp h)
    refine ⟨hnodup, fun name hn => ?_⟩
    obtain ⟨i, hi, -⟩ := hfree name hn
    obtain ⟨hlt, he, -⟩ := List.findIdx?_eq_some_iff_getElem.mp hi
    exact eq_of_beq he ▸ List.getElem_mem hlt
  · rename_i hnone
    have hlabels : args.filterMap label = [] := List.filterMap_eq_nil_iff.mpr (by simpa using hnone)
    simp [hlabels]

/-- Arguments of which there is one for each parameter are in the order of the parameters. -/
theorem arrange_given (d : α) (hp : params.Nodup) (args : List (Labelled α))
    (hl : (args.filterMap label).Nodup) (hmem : ∀ name ∈ args.filterMap label, name ∈ params)
    (hlen : args.length = params.length) :
    ∃ g, arrange callee (some params) args = ([], params.map g) ∧
      (∀ arg ∈ args, ∀ name, arg.label = some name → g name = arg.value) ∧
      (params.filter (· ∉ args.filterMap label)).map g = unlabelled args := by
  obtain ⟨f, hgive, hold, hnew⟩ := foldl_give callee (f := fun _ => none) hp args hl
    fun name hn => ⟨hmem name hn, rfl⟩
  have hempty : (params.filter fun name => (f name).isNone) =
      params.filter (· ∉ args.filterMap label) := by
    refine List.filter_congr fun name _ => ?_
    by_cases hn : name ∈ args.filterMap label
    · obtain ⟨arg, harg, hlabel⟩ := List.mem_filterMap.mp hn
      simp [hnew arg harg name hlabel, hn]
    · simp [hold name hn, hn]
  have hcount : (unlabelled args).length =
      (params.filter (· ∉ args.filterMap label)).length := by
    have hperm : (params.filter (· ∈ args.filterMap label)).Perm (args.filterMap label) :=
      (List.perm_ext_iff_of_nodup (hp.filter _) hl).mpr fun name => by simpa using hmem name
    have hsplit := List.length_eq_length_filter_add (l := params)
      (fun name => decide (name ∈ args.filterMap label))
    have hargs := length_unlabelled args
    rw [hperm.length_eq] at hsplit
    simp only [decide_not] at hsplit ⊢
    omega
  obtain ⟨g, hfill, hgiven, hrest⟩ := fill_eq_map hp d (unlabelled args) (hempty ▸ hcount)
  refine ⟨g, ?_, fun arg harg name hname => hgiven name _ (hnew arg harg name hname),
    hempty ▸ hrest⟩
  rw [arrange]
  split
  · rw [place, hlen, Nat.max_self, ← List.map_const', hgive]
    exact congrArg _ hfill
  · rename_i hnone
    have hall : ∀ arg ∈ args, arg.label = none := by simpa using hnone
    have hlabels : args.filterMap label = [] := List.filterMap_eq_nil_iff.mpr hall
    rw [hempty, hlabels, unlabelled, List.filter_eq_self.mpr (by simp),
      List.filter_eq_self.mpr fun arg harg => by simp [hall arg harg]] at hrest
    rw [hrest]

end Labelled

theorem arrange_arguments {callee : String} {params : List String} {args : List Argument}
    (hp : params.Nodup) (hlen : args.length = params.length)
    (h : (Labelled.arrange callee (some params) (arguments args)).1 = []) :
    ∃ given, Argument.Given params args given ∧
      (Labelled.arrange "" (some params) (labelled args)).2 = params.map given := by
  have hlabels : (labelled args).filterMap Labelled.label = args.filterMap Argument.label := by
    rw [labelled, List.filterMap_map]
    rfl
  have hbuilds : (arguments args).filterMap Labelled.label = args.filterMap Argument.label := by
    rw [arguments_eq, List.filterMap_map, ← hlabels]
    rfl
  obtain ⟨hnodup, hmem⟩ := Labelled.labels_of_arrange callee h
  rw [hbuilds, ← hlabels] at hnodup hmem
  obtain ⟨given, harrange, hgiven, hrest⟩ := Labelled.arrange_given ""
    ⟨.literal .none, .none, .synthesized⟩ hp (labelled args) hnodup hmem
    ((List.length_map _).trans hlen)
  refine ⟨given, ⟨fun arg harg => hgiven _ (List.mem_map_of_mem harg), ?_⟩, by rw [harrange]⟩
  rw [hlabels] at hrest
  rw [hrest, Labelled.unlabelled, labelled, List.filter_map, List.map_map]
  rfl

end Lowering

end StackCode
