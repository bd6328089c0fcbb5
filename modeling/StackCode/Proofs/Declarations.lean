import StackCode.Linking.Declarations
import StackCode.Proofs.Table

/-! # The last declaration of a name

The statements at the top of all files are taken up one after another. What a name stands for in the
end, and where it was declared, is what the last statement that declares it says.
-/

namespace StackCode

theorem StructType.method?_ofDecl {module name : String} {decl : StructDecl} {s : Symbol}
    (h : (StructType.ofDecl module decl).method? name = some s) :
    ∃ method ∈ decl.methods, method.name = some name ∧
      s = .method module decl.name name method.paramTypes := by
  obtain ⟨method, hm, hentry⟩ := List.mem_filterMap.mp (Table.mem_of_get?_ofList h)
  obtain ⟨n, hn, he⟩ := Option.map_eq_some_iff.mp hentry
  cases he
  exact ⟨method, hm, hn, rfl⟩

namespace Linking

structure TopLevel where
  path : String
  place : Place
  stmt : Stmt

namespace TopLevel

def ofFile (file : SourceFile × Nat) : List TopLevel :=
  file.1.stmts.zipIdx.map fun (s, i) => ⟨file.1.path, ⟨file.2, i⟩, s⟩

def ofFiles (files : List SourceFile) : List TopLevel := files.zipIdx.flatMap ofFile

/-- The name that a statement declares, unless it is refused, and what the name stands for. -/
def declared? (module : String) (t : TopLevel) : Option (String × Global) :=
  match t.stmt.kind with
  | .func decl => decl.name.map fun name =>
      (name, .function (.function module name decl.paramTypes))
  | .bind name .. => some (name, .value (.value module name))
  | .struct decl =>
    if decl.properties.length > maxProperties then none
    else some (decl.name, .struct (.struct module decl.name))
  | .enum decl =>
    if decl.cases.length > maxCases then none
    else if decl.cases.any (·.values.length > maxAssociated) then none
    else some (decl.name, .enum (.enum module decl.name))
  | _ => none

def struct? (module : String) (t : TopLevel) : Option StructType :=
  match t.stmt.kind with
  | .struct decl => some (.ofDecl module decl)
  | _ => none

def declares (module name : String) (t : TopLevel) : Bool :=
  (t.declared? module).any (·.1 == name)

def last? (module : String) (ts : List TopLevel) (name : String) : Option TopLevel :=
  ts.reverse.find? (·.declares module name)

def global? (module : String) (ts : List TopLevel) (name : String) : Option Global :=
  (last? module ts name).bind fun t => (t.declared? module).map Prod.snd

variable {module name : String} {t : TopLevel}

theorem declared?_cases {g : Global} (h : t.declared? module = some (name, g)) :
    (∃ decl, t.stmt.kind = .func decl ∧ decl.name = some name ∧
      g = .function (.function module name decl.paramTypes)) ∨
    (∃ mutable ty value, t.stmt.kind = .bind name mutable ty value ∧
      g = .value (.value module name)) ∨
    (∃ decl, t.stmt.kind = .struct decl ∧ decl.name = name ∧
      g = .struct (.struct module name)) ∨ ∃ s, g = .enum s := by
  obtain ⟨path, place, kind, loc⟩ := t
  rw [declared?] at h
  cases kind with
  | func decl =>
    obtain ⟨name', hn, he⟩ := Option.map_eq_some_iff.mp h
    cases he
    exact .inl ⟨decl, rfl, hn, rfl⟩
  | bind name' mutable ty value =>
    cases h
    exact .inr (.inl ⟨mutable, ty, value, rfl, rfl⟩)
  | struct decl =>
    dsimp only at h
    split at h
    · cases h
    · cases h
      exact .inr (.inr (.inl ⟨decl, rfl, rfl, rfl⟩))
  | enum decl =>
    dsimp only at h
    split at h
    · cases h
    · split at h
      · cases h
      · cases h
        exact .inr (.inr (.inr ⟨_, rfl⟩))
  | _ => cases h

theorem declares_eq_true :
    t.declares module name = true ↔ ∃ g, t.declared? module = some (name, g) := by
  cases h : t.declared? module with
  | none => simp [declares, h]
  | some p =>
    obtain ⟨name', g⟩ := p
    simp [declares, h]

theorem last?_append (ts : List TopLevel) (t : TopLevel) :
    last? module (ts ++ [t]) name =
      if t.declares module name then some t else last? module ts name := by
  rw [last?, List.reverse_append, List.reverse_singleton, List.singleton_append, List.find?_cons]
  cases t.declares module name <;> rfl

theorem last?_spec {ts : List TopLevel} (h : last? module ts name = some t) :
    t ∈ ts ∧ ∃ g, t.declared? module = some (name, g) :=
  ⟨List.mem_reverse.mp (List.mem_of_find?_eq_some h), declares_eq_true.mp (List.find?_some h)⟩

/-- What only declarations of a name have is found at the last of them. -/
theorem findSome?_of_last {β : Type} {ts : List TopLevel} {find : TopLevel → Option β} {x : β}
    (hl : last? module ts name = some t) (hx : find t = some x)
    (hd : ∀ u y, find u = some y → u.declares module name = true) :
    ts.reverse.findSome? find = some x := by
  obtain ⟨-, behind, before, hsplit, hbehind⟩ := List.find?_eq_some_iff_append.mp hl
  refine List.findSome?_eq_some_iff.mpr ⟨behind, t, before, hsplit, hx, fun u hu => ?_⟩
  refine Option.eq_none_iff_forall_ne_some.mpr fun y hy => ?_
  simpa [hd u y hy] using hbehind u hu

theorem mem_ofFiles {files : List SourceFile} (h : t ∈ ofFiles files) :
    ∃ file, files[t.place.file]? = some file ∧ file.stmts[t.place.stmt]? = some t.stmt ∧
      t.path = file.path := by
  obtain ⟨⟨file, k⟩, hfile, ht⟩ := List.mem_flatMap.mp h
  obtain ⟨⟨s, i⟩, hs, rfl⟩ := List.mem_map.mp ht
  exact ⟨file, List.mk_mem_zipIdx_iff_getElem?.mp hfile, List.mk_mem_zipIdx_iff_getElem?.mp hs, rfl⟩

theorem eq_of_place_eq {files : List SourceFile} {u : TopLevel} (ht : t ∈ ofFiles files)
    (hu : u ∈ ofFiles files) (h : t.place = u.place) : t = u := by
  obtain ⟨file, hfile, hs, hpath⟩ := mem_ofFiles ht
  obtain ⟨file', hfile', hs', hpath'⟩ := mem_ofFiles hu
  obtain ⟨path, place, s⟩ := t
  obtain ⟨path', place', s'⟩ := u
  subst h
  cases hfile.symm.trans hfile'
  cases hs.symm.trans hs'
  cases hpath.trans hpath'.symm
  rfl

theorem pairwise_place_ne (files : List SourceFile) :
    (ofFiles files).Pairwise fun t u => t.place ≠ u.place := by
  have hidx : ∀ {α : Type} (l : List α), l.zipIdx.Pairwise fun x y => x.2 ≠ y.2 := by
    intro α l
    rw [← List.pairwise_map, List.zipIdx_map_snd]
    exact List.nodup_range'
  rw [ofFiles, List.pairwise_flatMap]
  refine ⟨fun file _ => ?_, (hidx files).imp fun hne t ht u hu h => hne ?_⟩
  · rw [ofFile, List.pairwise_map]
    exact (hidx _).imp fun hne h => hne (congrArg Place.stmt h)
  · obtain ⟨x, -, rfl⟩ := List.mem_map.mp ht
    obtain ⟨y, -, rfl⟩ := List.mem_map.mp hu
    exact congrArg Place.file h

end TopLevel

namespace Declarations

structure Collects (module : String) (imports : List Linked) (ts : List TopLevel)
    (d : Declarations) : Prop where
  named : d.space.module = module
  importing : d.space.imports = imports
  globals : ∀ name, d.space.globals.get? name = TopLevel.global? module ts name
  places : ∀ name, d.places.get? name = (TopLevel.last? module ts name).map (·.place)
  struct : ∀ name t type, TopLevel.last? module ts name = some t → t.struct? module = some type →
    d.space.structs.get? (.struct module name) = some type
  owned : ∀ s type, d.space.structs.get? s = some type → s.module = module

variable {module : String} {imports : List Linked} {ts : List TopLevel} {d : Declarations}

theorem foldl_params {f : Space → FuncDecl → Space}
    (hf : ∀ space method, ∃ params, f space method = { space with params })
    (methods : List FuncDecl) {start space : Space}
    (hstart : ∃ params, start = { space with params }) :
    ∃ params, methods.foldl f start = { space with params } := by
  induction methods generalizing start with
  | nil => exact hstart
  | cons method methods ih =>
    obtain ⟨params, rfl⟩ := hstart
    obtain ⟨params', hm⟩ := hf { space with params } method
    exact ih ⟨params', hm⟩

theorem structParams_eq (space : Space) (t : StructType) (decl : StructDecl) :
    ∃ params, structParams space t decl = { space with params } := by
  unfold structParams
  refine foldl_params (fun space method => ?_) decl.methods ?_
  · cases method.name.bind t.method? with
    | none => exact ⟨space.params, rfl⟩
    | some symbol => exact ⟨_, rfl⟩
  · cases t.initializer with
    | none => exact ⟨space.params, rfl⟩
    | some initializer => exact ⟨_, rfl⟩

namespace Collects

theorem init (module : String) (imports : List Linked) :
    Collects module imports [] { space := { module, imports } } := by
  refine ⟨rfl, rfl, fun _ => rfl, fun _ => rfl, fun _ _ _ h => ?_, fun _ _ h => ?_⟩
  · cases h
  · cases h

theorem skip (h : Collects module imports ts d) {t : TopLevel} (ht : t.declared? module = none)
    (problems : List Diagnostic) : Collects module imports (ts ++ [t]) { d with problems } := by
  have hlast : ∀ name, TopLevel.last? module (ts ++ [t]) name = TopLevel.last? module ts name := by
    intro name
    rw [TopLevel.last?_append, TopLevel.declares, ht]
    rfl
  refine ⟨h.named, h.importing, fun name => ?_, fun name => ?_, fun name u type hu => ?_, h.owned⟩
  · rw [TopLevel.global?, hlast]
    exact h.globals name
  · rw [hlast]
    exact h.places name
  · rw [hlast] at hu
    exact h.struct name u type hu

theorem add (h : Collects module imports ts d) {t : TopLevel} {name : String} {g : Global}
    (ht : t.declared? module = some (name, g)) {space : Space}
    (hmodule : space.module = d.space.module) (himports : space.imports = d.space.imports)
    (hglobals : space.globals = d.space.globals.insert name g)
    (hstructs : space.structs = match t.struct? module with
      | some type => d.space.structs.insert (.struct module name) type
      | none => d.space.structs) :
    Collects module imports (ts ++ [t]) (d.add t.place name space) := by
  have hdeclares : ∀ other, t.declares module other = (other == name) := by
    intro other
    rw [TopLevel.declares, ht]
    exact BEq.comm
  refine ⟨hmodule.trans h.named, himports.trans h.importing, fun other => ?_, fun other => ?_,
    fun other u type hu hk => ?_, fun s u hs => ?_⟩
  · rw [TopLevel.global?, TopLevel.last?_append, hdeclares, Declarations.add, hglobals,
      Table.get?_insert]
    split
    · rw [Option.bind_some, ht]
      rfl
    · exact h.globals other
  · rw [TopLevel.last?_append, hdeclares, Declarations.add, Table.get?_insert]
    split
    · rfl
    · exact h.places other
  · rw [TopLevel.last?_append, hdeclares] at hu
    rw [Declarations.add, hstructs]
    by_cases ho : other = name
    · subst ho
      rw [beq_self_eq_true, if_pos rfl] at hu
      cases hu
      simp only [hk, Table.get?_insert, beq_self_eq_true, if_true]
    · rw [if_neg (by simpa using ho)] at hu
      have hold := h.struct other u type hu hk
      split
      · rw [Table.get?_insert, if_neg, hold]
        simpa [Symbol.struct] using ho
      · exact hold
  · rw [Declarations.add, hstructs] at hs
    split at hs
    · rw [Table.get?_insert] at hs
      split at hs
      · rename_i hkey
        rw [eq_of_beq hkey]
        rfl
      · exact h.owned s u hs
    · exact h.owned s u hs

theorem declare (h : Collects module imports ts d) (t : TopLevel) :
    Collects module imports (ts ++ [t]) (d.declare t.path t.place t.stmt) := by
  obtain ⟨path, place, s⟩ := t
  obtain ⟨kind, loc⟩ := s
  unfold Declarations.declare
  rw [h.named]
  cases kind with
  | func decl =>
    cases hn : decl.name with
    | none =>
      have ht : TopLevel.declared? module ⟨path, place, .func decl, loc⟩ = none := by
        simp only [TopLevel.declared?, hn, Option.map_none]
      simp only [hn]
      exact h.skip ht _
    | some name =>
      have ht : TopLevel.declared? module ⟨path, place, .func decl, loc⟩ =
          some (name, .function (.function module name decl.paramTypes)) := by
        simp only [TopLevel.declared?, hn, Option.map_some]
      simp only [hn]
      exact h.add ht rfl rfl rfl rfl
  | bind name mutable ty value => exact h.add rfl rfl rfl rfl rfl
  | struct decl =>
    by_cases hp : decl.properties.length > maxProperties
    · have ht : TopLevel.declared? module ⟨path, place, .struct decl, loc⟩ = none := by
        simp only [TopLevel.declared?, if_pos hp]
      simp only [if_pos hp]
      exact h.skip ht _
    · have ht : TopLevel.declared? module ⟨path, place, .struct decl, loc⟩ =
          some (decl.name, .struct (.struct module decl.name)) := by
        simp only [TopLevel.declared?, if_neg hp]
      obtain ⟨params, hspace⟩ := structParams_eq d.space (.ofDecl module decl) decl
      simp only [if_neg hp, hspace]
      exact h.add ht rfl rfl rfl rfl
  | enum decl =>
    by_cases hc : decl.cases.length > maxCases
    · have ht : TopLevel.declared? module ⟨path, place, .enum decl, loc⟩ = none := by
        simp only [TopLevel.declared?, if_pos hc]
      simp only [if_pos hc]
      exact h.skip ht _
    · by_cases hv : decl.cases.any (·.values.length > maxAssociated)
      · have ht : TopLevel.declared? module ⟨path, place, .enum decl, loc⟩ = none := by
          simp only [TopLevel.declared?, if_neg hc, if_pos hv]
        simp only [if_neg hc, if_pos hv]
        exact h.skip ht _
      · have ht : TopLevel.declared? module ⟨path, place, .enum decl, loc⟩ =
            some (decl.name, .enum (.enum module decl.name)) := by
          simp only [TopLevel.declared?, if_neg hc, if_neg hv]
        simp only [if_neg hc, if_neg hv]
        exact h.add ht rfl rfl rfl rfl
  | _ => exact h.skip rfl d.problems

theorem foldl (h : Collects module imports ts d) (us : List TopLevel) :
    Collects module imports (ts ++ us)
      (us.foldl (fun d t => d.declare t.path t.place t.stmt) d) := by
  induction us generalizing ts d with
  | nil => rwa [List.append_nil]
  | cons u us ih =>
    rw [List.append_cons]
    exact ih (h.declare u)

end Collects

theorem ofFiles_eq (module : String) (imports : List Linked) (files : List SourceFile) :
    ofFiles module imports files = (TopLevel.ofFiles files).foldl
      (fun d t => d.declare t.path t.place t.stmt) { space := { module, imports } } := by
  rw [TopLevel.ofFiles, List.foldl_flatMap]
  simp only [TopLevel.ofFile, List.foldl_map]
  rfl

theorem collects_ofFiles (module : String) (imports : List Linked) (files : List SourceFile) :
    (ofFiles module imports files).Collects module imports (TopLevel.ofFiles files) := by
  rw [ofFiles_eq]
  exact (Collects.init module imports).foldl _

/-- Whether a statement is the last one that declares a name is seen from its place. -/
theorem Collects.isLast_iff {files : List SourceFile}
    (h : Collects module imports (TopLevel.ofFiles files) d) {t : TopLevel}
    (ht : t ∈ TopLevel.ofFiles files) {name : String} :
    d.isLast name t.place = true ↔
      TopLevel.last? module (TopLevel.ofFiles files) name = some t := by
  rw [isLast, h.places, beq_iff_eq]
  constructor
  · intro hp
    obtain ⟨u, hu, hplace⟩ := Option.map_eq_some_iff.mp hp
    rw [hu, TopLevel.eq_of_place_eq (TopLevel.last?_spec hu).1 ht hplace]
  · intro hl
    rw [hl]
    rfl

end Declarations

end Linking

end StackCode
