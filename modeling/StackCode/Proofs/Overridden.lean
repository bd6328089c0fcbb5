import StackCode.Proofs.Grounding
import StackCode.Proofs.LinkOrder

/-! # Overridden declarations

A declaration that is followed by another one of its name does not count. What takes effect of the
files of a module are the last declarations and all other statements. Compilation finds the same
from names and types whether or not the overridden declarations are there.
-/

namespace StackCode.Linking

open Lowering

namespace TopLevel

/-- What is left of a declaration that is followed by another one of its name. Where the name stands
for a value in the end, an earlier declaration of the value reads it. -/
def overridden? (module : String) (g : Option Global) (s : Stmt) : Option Stmt :=
  match s.kind with
  | .bind name _ ty _ =>
    if g = some (.value (.value module name)) then some ⟨.expr ⟨.var name, ty, s.loc⟩, s.loc⟩
    else none
  | _ => none

/-- What takes effect of a statement among all statements of a module. -/
def effective? (module : String) (ts : List TopLevel) (t : TopLevel) : Option Stmt :=
  match t.declared? module with
  | none => some t.stmt
  | some (name, _) =>
    if (last? module ts name).map (·.place) = some t.place then some t.stmt
    else overridden? module (global? module ts name) t.stmt

end TopLevel

def effective (module : String) (files : List SourceFile) : List SourceFile :=
  files.zipIdx.map fun file =>
    { file.1 with
      stmts := (TopLevel.ofFile file).filterMap
        (TopLevel.effective? module (TopLevel.ofFiles files)) }

namespace TopLevel

variable {module name : String} {ts : List TopLevel} {t : TopLevel}

inductive Effect (module : String) (ts : List TopLevel) (t : TopLevel) : Option Stmt → Prop where
  | plain (declared : t.declared? module = none) : Effect module ts t (some t.stmt)
  | last {name : String} {g : Global} (declared : t.declared? module = some (name, g))
      (place : (last? module ts name).map (·.place) = some t.place) :
      Effect module ts t (some t.stmt)
  | read {name : String} {mutable : Bool} {ty : Ty} {value : Option Expr}
      (kind : t.stmt.kind = .bind name mutable ty value)
      (place : (last? module ts name).map (·.place) ≠ some t.place)
      (global : global? module ts name = some (.value (.value module name))) :
      Effect module ts t (some ⟨.expr ⟨.var name, ty, t.stmt.loc⟩, t.stmt.loc⟩)
  | dropped {name : String} {g : Global} (declared : t.declared? module = some (name, g))
      (place : (last? module ts name).map (·.place) ≠ some t.place)
      (global : ∀ name mutable ty value, t.stmt.kind = .bind name mutable ty value →
        global? module ts name ≠ some (.value (.value module name))) :
      Effect module ts t none

theorem effect_effective? (module : String) (ts : List TopLevel) (t : TopLevel) :
    Effect module ts t (t.effective? module ts) := by
  unfold effective?
  cases hd : t.declared? module with
  | none => exact .plain hd
  | some p =>
    obtain ⟨name, g⟩ := p
    dsimp only
    split
    · rename_i hl
      exact .last hd hl
    · rename_i hl
      unfold overridden?
      split
      · rename_i name' mutable ty value hk
        obtain rfl : name' = name := by
          rw [declared?, hk] at hd
          cases hd
          rfl
        split
        · rename_i hg
          exact .read hk hl hg
        · rename_i hg
          refine .dropped hd hl fun n m u v hk' => ?_
          cases hk.symm.trans hk'
          exact hg
      · rename_i hk
        exact .dropped hd hl fun n m u v hk' => absurd hk' (hk n m u v)

def counted? (module : String) (ts : List TopLevel) (t : TopLevel) : Option TopLevel :=
  (t.effective? module ts).map (⟨t.path, ⟨0, 0⟩, ·⟩)

theorem map_unplaced_effective (module : String) (files : List SourceFile) :
    (ofFiles (effective module files)).map unplaced =
      (ofFiles files).filterMap (counted? module (ofFiles files)) := by
  rw [map_unplaced_ofFiles, effective, List.flatMap_map]
  conv => rhs; rw [ofFiles, List.filterMap_flatMap]
  congr 1
  funext file
  simp only [ofFile, List.filterMap_map, List.map_filterMap]
  rfl

theorem last?_unplaced (ts : List TopLevel) :
    last? module (ts.map unplaced) name = (last? module ts name).map unplaced := by
  rw [last?, ← List.map_reverse, List.find?_map]
  rfl

theorem counted?_of_last (h : last? module ts name = some t) :
    counted? module ts t = some t.unplaced := by
  obtain ⟨-, g, hg⟩ := last?_spec h
  simp only [counted?, effective?, hg, h, Option.map_some, if_true]
  rfl

/-- What takes effect declares a name only if it is the last declaration of the name. -/
theorem last_of_counted? {u : TopLevel} (h : counted? module ts t = some u)
    (hu : u.declares module name = true) :
    u = t.unplaced ∧ (last? module ts name).map (·.place) = some t.place := by
  obtain ⟨s, hs, rfl⟩ := Option.map_eq_some_iff.mp h
  obtain ⟨g, hg⟩ := declares_eq_true.mp hu
  have heffect := effect_effective? module ts t
  rw [hs] at heffect
  cases heffect with
  | plain hd => cases hd.symm.trans hg
  | last hd hl =>
    cases hd.symm.trans hg
    exact ⟨rfl, hl⟩
  | read => cases hg

theorem declares_of_counted? {u : TopLevel} (h : counted? module ts t = some u)
    (hu : u.declares module name = true) : t.declares module name = true := by
  rw [(last_of_counted? h hu).1] at hu
  exact hu

/-- The last declaration of a name stays the last one. -/
theorem last?_counted (ts : List TopLevel) (name : String) :
    last? module (ts.filterMap (counted? module ts)) name =
      (last? module ts name).map unplaced := by
  have hdeclares : ∀ t, (counted? module ts t).any (·.declares module name) = true →
      t.declares module name = true := by
    intro t ht
    cases hc : counted? module ts t with
    | none => simp [hc] at ht
    | some u => exact declares_of_counted? hc (by simpa [hc] using ht)
  rw [last?, ← List.filterMap_reverse, List.find?_filterMap]
  cases h : last? module ts name with
  | none =>
    have hnone : ts.reverse.find? (fun t => (counted? module ts t).any (·.declares module name)) =
        none := by
      refine List.find?_eq_none.mpr fun t ht hc => ?_
      exact List.find?_eq_none.mp h t ht (hdeclares t hc)
    rw [hnone]
    rfl
  | some t =>
    obtain ⟨ht, before, after, hsplit, hbefore⟩ := List.find?_eq_some_iff_append.mp h
    have hsome : ts.reverse.find? (fun t => (counted? module ts t).any (·.declares module name)) =
        some t := by
      refine List.find?_eq_some_iff_append.mpr ⟨?_, before, after, hsplit, fun u hu => ?_⟩
      · rw [counted?_of_last h]
        exact ht
      · have hu := hbefore u hu
        cases hc : (counted? module ts u).any (·.declares module name) with
        | false => rfl
        | true => simp [hdeclares u hc] at hu
    rw [hsome]
    exact counted?_of_last h

/-- What a name stands for does not depend on overridden declarations. -/
theorem global?_effective (module : String) (files : List SourceFile) (name : String) :
    global? module (ofFiles (effective module files)) name =
      global? module (ofFiles files) name := by
  have hlast : (last? module (ofFiles (effective module files)) name).map unplaced =
      (last? module (ofFiles files) name).map unplaced := by
    rw [← last?_unplaced, map_unplaced_effective, last?_counted]
  have hglobal : ∀ ts : List TopLevel, global? module ts name =
      ((last? module ts name).map unplaced).bind fun t => (t.declared? module).map Prod.snd := by
    intro ts
    rw [global?, Option.bind_map]
    rfl
  rw [hglobal, hglobal, hlast]

theorem distinct_effective (module : String) (files : List SourceFile) :
    Distinct module (ofFiles (effective module files)) := by
  have hplaced : Distinct module ((ofFiles (effective module files)).map unplaced) := by
    rw [map_unplaced_effective, Distinct, List.pairwise_filterMap]
    refine (pairwise_place_ne files).imp fun {t u} hne t' ht u' hu name g g' hg hg' => hne ?_
    have hl := (last_of_counted? ht (declares_eq_true.mpr ⟨g, hg⟩)).2
    have hl' := (last_of_counted? hu (declares_eq_true.mpr ⟨g', hg'⟩)).2
    exact Option.some.inj (hl.symm.trans hl')
  exact List.pairwise_map.mp hplaced

/-- What statements add under a key is found alike, unless the last declaration of the name adds
nothing under the key while an earlier one does. -/
theorem get?_effective {κ α : Type} [BEq κ] [LawfulBEq κ] {module : String}
    {files : List SourceFile} {f : TopLevel → List (κ × α)} (hf : ∀ t, f t.unplaced = f t)
    (owner : κ → Option String)
    (ho : ∀ t, ∀ e ∈ f t, ∃ name g, t.declared? module = some (name, g) ∧ owner e.1 = some name)
    {k : κ} (h : ∀ name, owner k = some name → (∃ t ∈ ofFiles files, ∃ e ∈ f t, e.1 = k) →
      ∀ u, last? module (ofFiles files) name = some u → ∃ e ∈ f u, e.1 = k) :
    (Table.empty.insertAll ((ofFiles (effective module files)).flatMap f)).get? k =
      (Table.empty.insertAll ((ofFiles files).flatMap f)).get? k := by
  let find (t : TopLevel) := (f t).reverse.find? (·.1 == k)
  have hfind : ∀ {t e}, find t = some e → e ∈ f t ∧ e.1 = k := by
    intro t e he
    have hk := List.find?_some he
    exact ⟨List.mem_reverse.mp (List.mem_of_find?_eq_some he), eq_of_beq hk⟩
  have hdeclares : ∀ {t e}, find t = some e →
      ∃ name, owner k = some name ∧ t.declares module name = true := by
    intro t e he
    obtain ⟨hm, rfl⟩ := hfind he
    obtain ⟨name, g, hg, hn⟩ := ho t e hm
    exact ⟨name, hn, declares_eq_true.mpr ⟨g, hg⟩⟩
  have hcounted : ∀ {t e}, (counted? module (ofFiles files) t).bind find = some e →
      find t = some e := by
    intro t e he
    obtain ⟨u, hu, he⟩ := Option.bind_eq_some_iff.mp he
    obtain ⟨name, -, hd⟩ := hdeclares he
    rw [(last_of_counted? hu hd).1] at he
    simpa only [find, hf] using he
  rw [flatMap_unplaced hf (ofFiles (effective module files)), map_unplaced_effective,
    Table.get?_insertAll_flatMap, Table.get?_insertAll_flatMap, ← List.filterMap_reverse,
    ← List.head?_filterMap, List.filterMap_filterMap, List.head?_filterMap]
  congr 2
  change (ofFiles files).reverse.findSome? (fun t => (counted? module _ t).bind find) =
    (ofFiles files).reverse.findSome? find
  cases hs : (ofFiles files).reverse.findSome? find with
  | none =>
    refine List.findSome?_eq_none_iff.mpr fun t ht => ?_
    refine Option.eq_none_iff_forall_ne_some.mpr fun e he => ?_
    cases (List.findSome?_eq_none_iff.mp hs t ht).symm.trans (hcounted he)
  | some e =>
    obtain ⟨t, ht, he⟩ := List.exists_of_findSome?_eq_some hs
    obtain ⟨name, hn, hd⟩ := hdeclares he
    obtain ⟨u, hu⟩ : ∃ u, last? module (ofFiles files) name = some u :=
      Option.isSome_iff_exists.mp (List.find?_isSome.mpr ⟨t, ht, hd⟩)
    obtain ⟨x, hx⟩ : ∃ x, find u = some x := by
      obtain ⟨x, hm, hk⟩ := h name hn ⟨t, List.mem_reverse.mp ht, e, hfind he⟩ u hu
      exact Option.isSome_iff_exists.mp
        (List.find?_isSome.mpr ⟨x, List.mem_reverse.mpr hm, beq_iff_eq.mpr hk⟩)
    have hlast : (counted? module (ofFiles files) u).bind find = some x := by
      rw [counted?_of_last hu, Option.bind_some]
      simpa only [find, hf] using hx
    have hsame : ∀ b y, find b = some y → b.declares module name = true := by
      intro b y hy
      obtain ⟨name', hn', hd'⟩ := hdeclares hy
      cases hn.symm.trans hn'
      exact hd'
    rw [← hs, findSome?_of_last hu hx hsame]
    exact findSome?_of_last hu hlast fun b y hy => hsame b y (hcounted hy)

theorem names_of_declared? {g : Global} (h : t.declared? module = some (name, g)) :
    g.symbol.kind.names = [name] := by
  obtain ⟨path, place, kind, loc⟩ := t
  rw [declared?] at h
  cases kind with
  | func decl =>
    obtain ⟨_, -, he⟩ := Option.map_eq_some_iff.mp h
    cases he
    rfl
  | bind name' mutable ty value =>
    cases h
    rfl
  | struct decl =>
    dsimp only at h
    split at h <;> cases h
    rfl
  | enum decl =>
    dsimp only at h
    split at h
    · cases h
    · split at h <;> cases h
      rfl
  | _ => cases h

theorem mem_structs {e : Symbol × StructType} (h : e ∈ t.structs module) :
    ∃ decl, t.stmt.kind = .struct decl ∧ e = (.struct module decl.name, .ofDecl module decl) := by
  obtain ⟨path, place, kind, loc⟩ := t
  cases kind with
  | struct decl =>
    simp only [structs] at h
    split at h
    · cases h
    · exact ⟨decl, rfl, List.mem_singleton.mp h⟩
  | _ => cases h

theorem exists_mem_enums {s : Symbol} (h : t.declared? module = some (name, .enum s)) :
    ∃ e ∈ t.enums module, e.1 = s := by
  obtain ⟨path, place, kind, loc⟩ := t
  cases kind with
  | func decl =>
    obtain ⟨_, -, he⟩ := Option.map_eq_some_iff.mp h
    cases he
  | struct decl =>
    simp only [declared?] at h
    split at h <;> cases h
  | enum decl =>
    simp only [declared?] at h
    split at h
    · cases h
    rename_i hc
    split at h
    · cases h
    rename_i hv
    cases h
    refine ⟨(.enum module decl.name, .ofDecl module decl), ?_, rfl⟩
    simp only [enums, if_neg hc, if_neg hv, List.mem_singleton]
  | _ => cases h

theorem exists_mem_params {s : Symbol} (h : t.declared? module = some (name, .function s)) :
    ∃ e ∈ t.params module, e.1 = s := by
  rcases declared?_cases h with
    ⟨decl, hk, hn, he⟩ | ⟨_, _, _, -, he⟩ | ⟨_, -, -, he⟩ | ⟨_, he⟩ <;> cases he
  refine ⟨(.function module name decl.paramTypes, decl.paramNames), ?_, rfl⟩
  simp [params, hk, hn]

theorem tables_of_struct {decl : StructDecl} (hk : t.stmt.kind = .struct decl)
    {p : String × Global} (hd : t.declared? module = some p) :
    t.structs module = [(.struct module decl.name, .ofDecl module decl)] ∧
      t.params module = memberParams (.ofDecl module decl) decl := by
  by_cases hp : decl.properties.length > maxProperties
  · simp only [declared?, hk, if_pos hp] at hd
    cases hd
  · constructor
    · simp only [structs, hk, if_neg hp]
    · simp only [params, hk, if_neg hp]

theorem exists_mem_memberParams {decl : StructDecl} {k : Symbol}
    (hk : (StructType.ofDecl module decl).method? name = some k) :
    ∃ e ∈ memberParams (.ofDecl module decl) decl, e.1 = k := by
  obtain ⟨method, hm, hn, -⟩ := StructType.method?_ofDecl hk
  refine ⟨(k, method.paramNames), List.mem_append_right _ ?_, rfl⟩
  refine List.mem_filterMap.mpr ⟨method, hm, ?_⟩
  simp [hn, hk]

/-- The names of a method's parameters come from the struct that declares it. -/
theorem struct_of_mem_params {e : Symbol × List String} (h : e ∈ t.params module)
    {owner method : String} {params : List String} {m : String}
    (he : e.1 = .method m owner method params) :
    m = module ∧ ∃ x ∈ t.structs module, x.1 = .struct module owner := by
  obtain ⟨path, place, kind, loc⟩ := t
  cases kind with
  | func decl =>
    obtain ⟨_, -, rfl⟩ := List.mem_map.mp h
    cases he
  | struct decl =>
    simp only [TopLevel.params] at h
    split at h
    · cases h
    · rename_i hp
      obtain ⟨_, _, hs⟩ := mem_memberParams h
      cases he.symm.trans hs
      refine ⟨rfl, (.struct module decl.name, .ofDecl module decl), ?_, rfl⟩
      simp only [structs, if_neg hp, List.mem_singleton]
  | _ => cases h

end TopLevel

section Tables

variable {module : String} {files : List SourceFile} {imports : List Linked}

theorem structs_declarations : (declarations module files imports).space.structs =
    Table.empty.insertAll ((TopLevel.ofFiles files).flatMap (TopLevel.structs module)) := by
  rw [declarations_space, TopLevel.foldl_extend]
  rfl

theorem enums_declarations : (declarations module files imports).space.enums =
    Table.empty.insertAll ((TopLevel.ofFiles files).flatMap (TopLevel.enums module)) := by
  rw [declarations_space, TopLevel.foldl_extend]
  rfl

theorem params_declarations : (declarations module files imports).space.params =
    Table.empty.insertAll ((TopLevel.ofFiles files).flatMap (TopLevel.params module)) := by
  rw [declarations_space, TopLevel.foldl_extend]
  rfl

/-- A descriptor comes from a declaration of the struct. -/
theorem exists_mem_structs {s : Symbol} {type : StructType}
    (h : (declarations module files imports).space.structs.get? s = some type) :
    ∃ t ∈ TopLevel.ofFiles files, (s, type) ∈ t.structs module := by
  rw [structs_declarations] at h
  exact List.mem_flatMap.mp (Table.mem_of_get?_ofList h)

end Tables

/-! ## Names in imported modules -/

theorem names_of_export {l : Linked} (h : FromFiles l) {name : String} {g : Global}
    (hg : l.module.exports.get? name = some g) : g.symbol.kind.names = [name] := by
  rcases h.of_mem_modules l.module_mem_modules with he | ⟨module, files, imports, he, -⟩
  · rw [he] at hg
    obtain ⟨type, ht, he⟩ := List.mem_map.mp (Table.mem_of_get?_ofList hg)
    cases he
    simp only [List.mem_cons, List.not_mem_nil, or_false] at ht
    rcases ht with rfl | rfl <;> rfl
  · rw [he] at hg
    obtain ⟨t, -, hd, -, -⟩ := exists_last_of_export hg
    exact TopLevel.names_of_declared? hd

/-- The methods of a struct belong to its name. -/
theorem symbols_of_method {l : Linked} (h : FromFiles l) {m : Module} (hm : m ∈ l.modules)
    {s k : Symbol} {type : StructType} (hs : m.structs.get? s = some type) {name : String}
    (hk : type.method? name = some k) :
    ∃ owner params, s = .struct m.name owner ∧ k = .method m.name owner name params := by
  rcases h.of_mem_modules hm with rfl | ⟨module, files, imports, rfl, -⟩
  · obtain ⟨type', ht, he⟩ := List.mem_map.mp (Table.mem_of_get?_ofList hs)
    cases he
    simp only [List.mem_cons, List.not_mem_nil, or_false] at ht
    rcases ht with rfl | rfl
    all_goals
      obtain ⟨params, -, rfl⟩ := Standard.method?_structType hk
      exact ⟨_, params, rfl, rfl⟩
  · rw [link_structs] at hs
    obtain ⟨t, -, ht⟩ := exists_mem_structs hs
    obtain ⟨decl, -, he⟩ := TopLevel.mem_structs ht
    cases he
    obtain ⟨method, -, -, rfl⟩ := StructType.method?_ofDecl hk
    rw [link_name]
    exact ⟨_, _, rfl, rfl⟩

/-! ## Lookups without overridden declarations -/

/-- A module that is the standard one itself may declare the types of the collections. If it does,
their names stand for them in the end. -/
def KeepsCollections (module : String) (files : List SourceFile) : Prop :=
  module = Symbol.standardModule → ∀ t ∈ TopLevel.ofFiles files, ∀ decl,
    t.stmt.kind = .struct decl →
    decl.name = Standard.arrayName ∨ decl.name = Standard.dictionaryName →
    TopLevel.global? module (TopLevel.ofFiles files) decl.name =
      some (.struct (.struct module decl.name))

section Lookups

variable {module : String} {files : List SourceFile} {imports : List Linked}

/-- If a struct is declared at all, a name stands for it in the end. -/
def Visible (module : String) (files : List SourceFile) (s : Symbol) : Prop :=
  (∃ t ∈ TopLevel.ofFiles files, ∃ e ∈ t.structs module, e.1 = s) →
    ∃ name, TopLevel.global? module (TopLevel.ofFiles files) name = some (.struct s)

variable {name : String} {g : Global} {s : Symbol}

theorem exists_last_of_global? (h : TopLevel.global? module (TopLevel.ofFiles files) name = some g)
    :
    ∃ t, TopLevel.last? module (TopLevel.ofFiles files) name = some t ∧
      t.declared? module = some (name, g) := by
  obtain ⟨t, ht, hd⟩ := Option.bind_eq_some_iff.mp h
  obtain ⟨-, g', hg'⟩ := TopLevel.last?_spec ht
  rw [hg'] at hd
  cases hd
  exact ⟨t, ht, hg'⟩

/-- A name stands for what it is declared as, or for what an import exports under it. -/
theorem resolve?_cases (himports : ∀ i ∈ imports, FromFiles i)
    (h : (declarations module files imports).space.resolve? name = some g) :
    TopLevel.global? module (TopLevel.ofFiles files) name = some g ∨
      TopLevel.last? module (TopLevel.ofFiles files) name = none ∧
        g.symbol.kind.names = [name] := by
  rw [Space.resolve?, collects_declarations.globals] at h
  cases hg : TopLevel.global? module (TopLevel.ofFiles files) name with
  | some g' =>
    rw [hg] at h
    exact .inl h
  | none =>
    rw [hg] at h
    obtain ⟨i, hi, he⟩ := List.exists_of_findSome?_eq_some h
    rw [List.mem_reverse, collects_declarations.importing] at hi
    refine .inr ⟨?_, ?_⟩
    · cases hl : TopLevel.last? module (TopLevel.ofFiles files) name with
      | none => rfl
      | some t =>
        obtain ⟨-, g', hg'⟩ := TopLevel.last?_spec hl
        rw [TopLevel.global?, hl, Option.bind_some, hg'] at hg
        cases hg
    · exact names_of_export (forall_mem_withStandard .standard himports i hi) he

/-- Whatever declarations add under the symbol that a name stands for is found alike. -/
theorem get?_effective_of_resolve? (himports : ∀ i ∈ imports, FromFiles i) {α : Type}
    {f : TopLevel → List (Symbol × α)} (hf : ∀ t, f t.unplaced = f t)
    (ho : ∀ t, ∀ e ∈ f t, ∃ name g, t.declared? module = some (name, g) ∧
      e.1.kind.names.head? = some name)
    (hr : (declarations module files imports).space.resolve? name = some g)
    (hadds : ∀ t, t.declared? module = some (name, g) → ∃ e ∈ f t, e.1 = g.symbol) :
    (Table.empty.insertAll ((TopLevel.ofFiles (effective module files)).flatMap f)).get? g.symbol =
      (Table.empty.insertAll ((TopLevel.ofFiles files).flatMap f)).get? g.symbol := by
  refine TopLevel.get?_effective hf (·.kind.names.head?) ho fun name' hn _ u hu => ?_
  rcases resolve?_cases himports hr with hg | ⟨hl, hs⟩
  · obtain ⟨t, ht, hd⟩ := exists_last_of_global? hg
    rw [TopLevel.names_of_declared? hd] at hn
    cases hn
    cases ht.symm.trans hu
    exact hadds _ hd
  · rw [hs] at hn
    cases hn
    cases hl.symm.trans hu

/-- The last declaration of a visible struct. -/
theorem Visible.exists_last (hv : Visible module files s)
    (h : ∃ t ∈ TopLevel.ofFiles files, ∃ e ∈ t.structs module, e.1 = s) :
    ∃ u decl, TopLevel.last? module (TopLevel.ofFiles files) decl.name = some u ∧
      s = .struct module decl.name ∧ u.stmt.kind = .struct decl ∧
      u.structs module = [(.struct module decl.name, .ofDecl module decl)] ∧
      u.params module = TopLevel.memberParams (.ofDecl module decl) decl := by
  obtain ⟨name, hg⟩ := hv h
  obtain ⟨u, hu, hd⟩ := exists_last_of_global? hg
  rcases TopLevel.declared?_cases hd with
    ⟨_, -, -, he⟩ | ⟨_, _, _, -, he⟩ | ⟨decl, hk, rfl, he⟩ | ⟨_, he⟩ <;> cases he
  obtain ⟨hs, hp⟩ := TopLevel.tables_of_struct hk hd
  exact ⟨u, decl, hu, rfl, hk, hs, hp⟩

theorem Visible.structs_effective (hv : Visible module files s) :
    (declarations module (effective module files) imports).space.structs.get? s =
      (declarations module files imports).space.structs.get? s := by
  rw [structs_declarations, structs_declarations]
  refine TopLevel.get?_effective (fun _ => rfl) (·.kind.names.head?) TopLevel.structs_owner
    fun name hn hadds u hu => ?_
  obtain ⟨u', decl, hu', rfl, -, hs, -⟩ := hv.exists_last hadds
  cases hn
  cases hu.symm.trans hu'
  exact ⟨_, hs ▸ List.mem_singleton_self _, rfl⟩

theorem Visible.structType?_effective (hv : Visible module files s) :
    (declarations module (effective module files) imports).space.structType? s =
      (declarations module files imports).space.structType? s := by
  rw [Space.structType?, Space.structType?, hv.structs_effective,
    collects_declarations.importing, collects_declarations.importing]

theorem Visible.params_effective (himports : ∀ i ∈ imports, FromFiles i) {k : Symbol}
    (hv : Visible module files s) {type : StructType}
    (ht : (declarations module files imports).space.structType? s = some type)
    (hk : type.method? name = some k) :
    (declarations module (effective module files) imports).space.params.get? k =
      (declarations module files imports).space.params.get? k := by
  rw [params_declarations, params_declarations]
  refine TopLevel.get?_effective (fun _ => rfl) (·.kind.names.head?) TopLevel.params_owner
    fun owner hn hadds u hu => ?_
  have hlast : (∃ t ∈ TopLevel.ofFiles files, ∃ e ∈ t.structs module, e.1 = s) →
      ∃ u decl, TopLevel.last? module (TopLevel.ofFiles files) decl.name = some u ∧
        s = .struct module decl.name ∧
        u.params module = TopLevel.memberParams (.ofDecl module decl) decl ∧
        (declarations module files imports).space.structs.get? s = some (.ofDecl module decl) := by
    intro h
    obtain ⟨u, decl, hu, rfl, hkind, -, hparams⟩ := hv.exists_last h
    have hstruct : u.struct? module = some (.ofDecl module decl) := by
      simp only [TopLevel.struct?, hkind]
    exact ⟨u, decl, hu, rfl, hparams, collects_declarations.struct _ u _ hu hstruct⟩
  rw [Space.structType?] at ht
  cases hs : (declarations module files imports).space.structs.get? s with
  | some type' =>
    rw [hs] at ht
    cases ht
    obtain ⟨t, ht, he⟩ := exists_mem_structs hs
    obtain ⟨u', decl, hu', rfl, hparams, hget⟩ := hlast ⟨t, ht, _, he, rfl⟩
    cases hs.symm.trans hget
    obtain ⟨e, he, hek⟩ := TopLevel.exists_mem_memberParams hk
    obtain ⟨method, -, -, rfl⟩ := StructType.method?_ofDecl hk
    cases hn
    cases hu.symm.trans hu'
    exact ⟨e, hparams ▸ he, hek⟩
  | none =>
    rw [hs, collects_declarations.importing] at ht
    obtain ⟨i, hi, ht⟩ := List.exists_of_findSome?_eq_some ht
    obtain ⟨m, hm, ht⟩ := Option.bind_eq_some_iff.mp ht
    obtain ⟨owner', params, rfl, rfl⟩ := symbols_of_method
      (forall_mem_withStandard .standard himports i hi) (List.mem_of_find?_eq_some hm) ht hk
    obtain ⟨t, ht, e, he, hek⟩ := hadds
    obtain ⟨hmodule, x, hx, hxs⟩ := TopLevel.struct_of_mem_params he hek
    rw [hmodule] at hs hlast
    obtain ⟨_, _, -, -, -, hget⟩ := hlast ⟨t, ht, x, hx, hxs⟩
    cases hs.symm.trans hget

theorem visible_of_resolve? (himports : ∀ i ∈ imports, FromFiles i)
    (hr : (declarations module files imports).space.resolve? name = some (.struct s)) :
    Visible module files s := by
  rintro ⟨t, ht, e, he, rfl⟩
  rcases resolve?_cases himports hr with hg | ⟨hl, hs⟩
  · exact ⟨name, hg⟩
  · obtain ⟨name', g, hd, hn⟩ := TopLevel.structs_owner t e he
    have hnames : e.1.kind.names = [name] := hs
    rw [hnames] at hn
    cases hn
    have hdeclares := List.find?_eq_none.mp hl t (List.mem_reverse.mpr ht)
    exact absurd (TopLevel.declares_eq_true.mpr ⟨g, hd⟩) hdeclares

theorem KeepsCollections.visible (h : KeepsCollections module files)
    (hn : name = Standard.arrayName ∨ name = Standard.dictionaryName) :
    Visible module files (Standard.structSymbol name) := by
  rintro ⟨t, ht, e, he, hs⟩
  obtain ⟨decl, hk, rfl⟩ := TopLevel.mem_structs he
  cases hs
  exact ⟨decl.name, h rfl t ht decl hk hn⟩

/-- Compilation finds the same from names and types without overridden declarations. -/
theorem seen_effective (himports : ∀ i ∈ imports, FromFiles i)
    (hkeeps : KeepsCollections module files) :
    (declarations module (effective module files) imports).space.Seen
      (declarations module files imports).space := by
  have hd : (declarations module files imports).Collects module _ _ := collects_declarations
  have hd' : (declarations module (effective module files) imports).Collects module _ _ :=
    collects_declarations
  have hresolve : ∀ name,
      (declarations module (effective module files) imports).space.resolve? name =
        (declarations module files imports).space.resolve? name := by
    intro name
    rw [Space.resolve?, Space.resolve?, hd.globals, hd'.globals, hd.importing, hd'.importing,
      TopLevel.global?_effective]
  have harray : Visible module files (Standard.structSymbol Standard.arrayName) :=
    hkeeps.visible (.inl rfl)
  have hdictionary : Visible module files (Standard.structSymbol Standard.dictionaryName) :=
    hkeeps.visible (.inr rfl)
  refine ⟨hd'.named.trans hd.named.symm, hresolve, fun ty => ?_, fun ty => ?_,
    fun name s hs => ?_, fun ty t name s ht hs => ?_⟩
  · cases ty with
    | enum name =>
      rw [Space.enumOf?, Space.enumOf?, hresolve]
      split
      · rename_i s hr
        have henums : (declarations module (effective module files) imports).space.enums.get? s =
            (declarations module files imports).space.enums.get? s := by
          rw [enums_declarations, enums_declarations]
          exact get?_effective_of_resolve? himports (fun _ => rfl) TopLevel.enums_owner hr
            fun t => TopLevel.exists_mem_enums
        rw [Space.enumType?, Space.enumType?, hd.importing, hd'.importing, henums]
      · rfl
    | _ => rfl
  · cases ty with
    | struct name =>
      rw [Space.structOf?, Space.structOf?, hresolve]
      split
      · rename_i s hr
        exact (visible_of_resolve? himports hr).structType?_effective
      · rfl
    | array _ => exact harray.structType?_effective
    | dictionary _ _ => exact hdictionary.structType?_effective
    | _ => rfl
  · rw [Space.params?, Space.params?, params_declarations, params_declarations]
    exact get?_effective_of_resolve? himports (fun _ => rfl) TopLevel.params_owner hs
      fun t => TopLevel.exists_mem_params
  · cases ty with
    | struct name' =>
      rw [Space.structOf?] at ht
      split at ht
      · rename_i s' hr
        exact (visible_of_resolve? himports hr).params_effective himports ht hs
      · cases ht
    | array _ => exact harray.params_effective himports ht hs
    | dictionary _ _ => exact hdictionary.params_effective himports ht hs
    | _ => cases ht

end Lookups

end StackCode.Linking
