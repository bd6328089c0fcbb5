import Mathlib.Data.List.Nodup
import StackCode.Proofs.Initializers
import StackCode.Proofs.Resolution
import StackCode.Proofs.MainChunk

/-! # The bodies of a program

In a graph of modules that were compiled without problems, whose bodies have symbols of their own,
every symbol leads a running program to the body that it was made for. The bodies follow the
analysis of what is bound, functions and initializers need neither captures nor a receiver, methods
need no captures, and the cases that bodies name are those that the graph declares.
-/

namespace StackCode

def Symbol.IsMethod (s : Symbol) : Prop := ∃ owner name params, s.kind = .method owner name params

/-- The chunk can be entered without captures and without a receiver. -/
def Chunk.Free (c : Chunk Value) : Prop := c.captures = #[] ∧ c.hasReceiver = false

structure StructType.Regular (t : StructType) : Prop where
  initializer : ∀ s, t.initializer = some s → s.IsMethod
  method : ∀ name s, t.method? name = some s → s.IsMethod

/-- The structs and enums of the module are as they are declared. -/
structure Module.Regular (m : Module) : Prop where
  structs : ∀ s t, m.structs.get? s = some t → t.Regular
  methods : ∀ s t, m.structs.get? s = some t → ∀ name k, t.method? name = some k → k.module = m.name
  enums : ∀ s t, m.enums.get? s = some t → s.module = m.name ∧ t.Regular s

namespace Linking

/-! ## Declared types -/

theorem regular_ofDecl (module : String) (decl : StructDecl) :
    (StructType.ofDecl module decl).Regular where
  initializer s hs := by
    cases hs
    exact ⟨_, _, _, rfl⟩
  method name s hs := by
    obtain ⟨method, -, -, rfl⟩ := StructType.method?_ofDecl hs
    exact ⟨_, _, _, rfl⟩

variable {module : String}

theorem regular_enum {decl : EnumDecl} (hc : ¬ decl.cases.length > maxCases)
    (hv : ¬ decl.cases.any (·.values.length > maxAssociated) = true) :
    (EnumType.ofDecl module decl).Regular (.enum module decl.name) where
  symbol := rfl
  cases := by
    rw [EnumType.ofDecl, List.length_map]
    omega
  values case hcase := by
    obtain ⟨c, hmem, rfl⟩ := List.mem_map.mp hcase
    refine Nat.not_lt.mp fun hlt => hv (List.any_eq_true.mpr ⟨c, hmem, ?_⟩)
    exact decide_eq_true hlt

/-- The types in the space are as they are declared. -/
structure Declarations.Regular (module : String) (d : Declarations) : Prop where
  named : d.space.module = module
  structs : ∀ s t, d.space.structs.get? s = some t → t.Regular
  methods : ∀ s t, d.space.structs.get? s = some t → ∀ name k, t.method? name = some k →
    k.module = module
  enums : ∀ s t, d.space.enums.get? s = some t → s.module = module ∧ t.Regular s

theorem Declarations.Regular.declare {d : Declarations} (h : d.Regular module) (t : TopLevel) :
    (d.declare t.path t.place t.stmt).Regular module := by
  obtain ⟨path, place, kind, loc⟩ := t
  unfold Declarations.declare
  rw [h.named]
  cases kind with
  | func decl =>
    dsimp only
    cases decl.name with
    | none => exact { h with }
    | some name => exact { h with }
  | bind name mutable ty value => exact { h with }
  | struct decl =>
    obtain ⟨params, hspace⟩ := structParams_eq d.space (.ofDecl module decl) decl
    dsimp only
    split
    · exact { h with }
    · rw [hspace]
      have hstruct : ∀ s t,
          (d.space.structs.insert (.struct module decl.name) (.ofDecl module decl)).get? s = some
            t →
          t = .ofDecl module decl ∨ d.space.structs.get? s = some t := by
        intro s t hs
        rw [Table.get?_insert] at hs
        split at hs
        · exact .inl (Option.some.inj hs).symm
        · exact .inr hs
      refine ⟨h.named, fun s t hs => ?_, fun s t hs name k hk => ?_, h.enums⟩
      · rcases hstruct s t hs with rfl | hs
        · exact regular_ofDecl module decl
        · exact h.structs s t hs
      · rcases hstruct s t hs with rfl | hs
        · obtain ⟨method, -, -, rfl⟩ := StructType.method?_ofDecl hk
          rfl
        · exact h.methods s t hs name k hk
  | enum decl =>
    dsimp only
    split
    · exact { h with }
    split
    · exact { h with }
    rename_i hc hv
    refine { h with enums := fun s t hs => ?_ }
    have hs : (d.space.enums.insert (.enum module decl.name) (.ofDecl module decl)).get? s =
        some t := hs
    rw [Table.get?_insert] at hs
    split at hs
    · rename_i hkey
      cases hs
      rw [eq_of_beq hkey]
      exact ⟨rfl, regular_enum hc hv⟩
    · exact h.enums s t hs
  | _ => exact h

theorem Declarations.Regular.foldl {d : Declarations} (h : d.Regular module) (ts : List TopLevel) :
    (ts.foldl (fun d t => d.declare t.path t.place t.stmt) d).Regular module := by
  induction ts generalizing d with
  | nil => exact h
  | cons t ts ih => exact ih (h.declare t)

variable {module : String} {files : List SourceFile} {imports : List Linked}

theorem regular_declarations : (declarations module files imports).Regular module := by
  have hinit : Declarations.Regular module
      { space := { module, imports := withStandard module imports } } :=
    ⟨rfl, fun _ _ h => (by cases h), fun _ _ h => (by cases h), fun _ _ h => (by cases h)⟩
  rw [declarations, Declarations.ofFiles_eq]
  exact hinit.foldl _

theorem link_enums : (link module files imports).module.enums =
    (declarations module files imports).space.enums := by
  rw [link_eq]
  rfl

theorem regular_link : (link module files imports).module.Regular where
  structs := by
    rw [link_structs]
    exact regular_declarations.structs
  methods := by
    rw [link_structs, link_name]
    exact regular_declarations.methods
  enums := by
    rw [link_enums, link_name]
    exact regular_declarations.enums

end Linking

theorem Standard.regular_module : Standard.module.Regular where
  structs s t h := by
    rcases eq_of_get? h with rfl | rfl
    all_goals
      refine ⟨nofun, fun name s hs => ?_⟩
      obtain ⟨params, -, rfl⟩ := method?_structType hs
      exact ⟨_, _, _, rfl⟩
  methods s t h name k hk := by
    rcases eq_of_get? h with rfl | rfl
    all_goals
      obtain ⟨params, -, rfl⟩ := method?_structType hk
      rfl
  enums s t h := by cases h

namespace Linking

variable {module : String} {files : List SourceFile} {imports : List Linked} {l : Linked}
  {Q : List SourceFile → Prop} {b : Piece}

theorem FromFiles.regular (h : FromFiles l) {m : Module} (hm : m ∈ l.modules) :
    m.Regular := by
  rcases h.of_mem_modules hm with rfl | ⟨module, files, imports, rfl, -⟩
  · exact Standard.regular_module
  · exact regular_link

/-! ## Types in sight -/

theorem exists_struct_of_structType? {s : Symbol} {t : StructType}
    (ht : (declarations module files imports).space.structType? s = some t) :
    ∃ m ∈ (link module files imports).modules, m.structs.get? s = some t := by
  rw [Space.structType?] at ht
  cases hs : (declarations module files imports).space.structs.get? s with
  | some t' =>
    rw [hs] at ht
    cases ht
    exact ⟨_, Linked.module_mem_modules _, by rw [link_structs]; exact hs⟩
  | none =>
    rw [hs] at ht
    obtain ⟨i, hi, ht⟩ := List.exists_of_findSome?_eq_some ht
    rw [collects_declarations.importing] at hi
    obtain ⟨m, hm, ht⟩ := Option.bind_eq_some_iff.mp ht
    exact ⟨m, modules_subset_of_mem hi (List.mem_of_find?_eq_some hm), ht⟩

theorem exists_struct_of_structOf? {ty : Ty} {t : StructType}
    (ht : (declarations module files imports).space.structOf? ty = some t) :
    ∃ m ∈ (link module files imports).modules, ∃ s, m.structs.get? s = some t := by
  have hfound : ∀ s, (declarations module files imports).space.structType? s = some t →
      ∃ m ∈ (link module files imports).modules, ∃ s, m.structs.get? s = some t := by
    intro s hs
    obtain ⟨m, hm, ht⟩ := exists_struct_of_structType? hs
    exact ⟨m, hm, s, ht⟩
  cases ty with
  | struct name =>
    rw [Space.structOf?] at ht
    split at ht
    · exact hfound _ ht
    · cases ht
  | array _ | dictionary _ _ => exact hfound _ ht
  | _ => cases ht

section Space

variable (h : ∀ m ∈ (link module files imports).modules, m.Regular)
include h

theorem regular_structOf? {ty : Ty} {t : StructType}
    (ht : (declarations module files imports).space.structOf? ty = some t) : t.Regular := by
  obtain ⟨m, hm, s, hs⟩ := exists_struct_of_structOf? ht
  exact (h m hm).structs s t hs

variable {t : EnumType} {s : Symbol}

theorem exists_enum_of_enumType?
    (ht : (declarations module files imports).space.enumType? s = some t) :
    ∃ m ∈ (link module files imports).modules, m.name = s.module ∧ m.enums.get? s = some t := by
  rw [Space.enumType?] at ht
  cases hs : (declarations module files imports).space.enums.get? s with
  | some t' =>
    rw [hs] at ht
    cases ht
    refine ⟨_, Linked.module_mem_modules _, ?_, by rw [link_enums]; exact hs⟩
    exact link_name.trans (regular_declarations.enums s t hs).1.symm
  | none =>
    rw [hs] at ht
    obtain ⟨i, hi, ht⟩ := List.exists_of_findSome?_eq_some ht
    rw [collects_declarations.importing] at hi
    obtain ⟨m, hm, ht⟩ := Option.bind_eq_some_iff.mp ht
    have hmem : m ∈ (link module files imports).modules :=
      modules_subset_of_mem hi (List.mem_of_find?_eq_some hm)
    exact ⟨m, hmem, ((h m hmem).enums s t ht).1.symm, ht⟩

theorem regular_enumType? (ht : (declarations module files imports).space.enumType? s = some t) :
    t.Regular s := by
  obtain ⟨m, hm, -, ht⟩ := exists_enum_of_enumType? h ht
  exact ((h m hm).enums s t ht).2

theorem enumType?_of_space {l : Linked} (hagree : Agree l.modules)
    (hsub : (link module files imports).modules ⊆ l.modules)
    (ht : (declarations module files imports).space.enumType? s = some t) :
    l.enumType? s = some t := by
  obtain ⟨m, hm, hn, ht⟩ := exists_enum_of_enumType? h ht
  rw [Linked.enumType?, Linked.find?, hagree.find? (hsub hm) hn]
  exact ht

end Space

/-! ## Bodies with symbols of their own -/

open Lowering

section Bodies

variable (module : String) (files : List SourceFile) (imports : List Linked)

def bodies : List (Chunk Value) :=
  (pieces module files imports).flatMap (·.chunks (declarations module files imports).space)

def Distinct : Prop := ((bodies module files imports).map (·.symbol)).Nodup

end Bodies

/-- Modules that are compiled without problems from files as told, all the way down to the standard
module. No two bodies of one of them have the same symbol. -/
inductive Separate (Q : List SourceFile → Prop) : Linked → Prop where
  | standard : Separate Q Standard.linked
  | link {module : String} {files : List SourceFile} {imports : List Linked}
      (diagnostics : (link module files imports).module.diagnostics = [])
      (distinct : Distinct module files imports) (given : Q files)
      (separate : ∀ i ∈ imports, Separate Q i) : Separate Q (link module files imports)

theorem Separate.mono {Q' : List SourceFile → Prop} (hQ : ∀ files, Q files → Q' files)
    (h : Separate Q l) : Separate Q' l := by
  induction h with
  | standard => exact .standard
  | link hd hdistinct hfiles _ ih => exact .link hd hdistinct (hQ _ hfiles) ih

theorem Separate.fromFiles (h : Separate Q l) :
    FromFiles l := by
  induction h with
  | standard => exact .standard
  | link _ _ _ _ ih => exact .link ih

theorem Separate.of_imports (h : Separate Q l) : ∀ i ∈ l.imports, Separate Q i := by
  cases h with
  | standard => exact fun i hi => absurd hi List.not_mem_nil
  | link _ _ _ himports =>
    rw [link_imports]
    exact forall_mem_withStandard .standard himports

section Chunks

variable {b : Piece} {r : Compiled} {s : Symbol} {c c' : Chunk Value}

theorem mem_of_get? (h : (link module files imports).module.chunks.get? s = some c) :
    c.symbol = s ∧ (c ∈ bodies module files imports ∨
      startChunk? module files imports = some c) := by
  rw [link_chunks_get?] at h
  have hs := List.find?_some h
  refine ⟨eq_of_beq hs, ?_⟩
  rcases List.mem_append.mp (List.mem_reverse.mp (List.mem_of_find?_eq_some h)) with hc | hc
  · exact .inl hc
  · exact .inr (Option.mem_toList.mp hc)

theorem Distinct.eq (h : Distinct module files imports) (hc : c ∈ bodies module files imports)
    (hc' : c' ∈ bodies module files imports) (hs : c.symbol = c'.symbol) : c = c' :=
  List.inj_on_of_nodup_map h hc hc' hs

/-- A body is found under its symbol, unless this is the symbol of the start. -/
theorem get?_of_mem_bodies (h : Distinct module files imports)
    (hc : c ∈ bodies module files imports) (hne : c.symbol ≠ mainSymbol module) :
    (link module files imports).module.chunks.get? c.symbol = some c := by
  have hmem : c ∈ registered module files imports := List.mem_append_left _ hc
  obtain ⟨c', hc'⟩ := Option.isSome_iff_exists.mp (isSome_of_mem_registered hmem)
  obtain ⟨hs, hb | hstart⟩ := mem_of_get? hc'
  · rw [hc', h.eq hb hc hs]
  · exact absurd (hs.symm.trans (mainChunk?_eq_some hstart).symbol) hne

theorem exists_piece_of_mem_bodies (hc : c ∈ bodies module files imports) :
    ∃ b ∈ pieces module files imports, ∃ r,
      b.compile (declarations module files imports).space = .ok r ∧ c ∈ r.chunk :: r.nested := by
  obtain ⟨b, hb, hc⟩ := List.mem_flatMap.mp hc
  exact ⟨b, hb, Piece.exists_of_mem_chunks hc⟩

theorem nested_subset_bodies (hb : b ∈ pieces module files imports)
    (hr : b.compile (declarations module files imports).space = .ok r) :
    r.nested ⊆ bodies module files imports := by
  intro c hc
  refine List.mem_flatMap.mpr ⟨b, hb, ?_⟩
  simp [Piece.chunks, hr, hc]

theorem chunk_mem_bodies (hb : b ∈ pieces module files imports) (hv : b.isValue = false)
    (hr : b.compile (declarations module files imports).space = .ok r) :
    r.chunk ∈ bodies module files imports := by
  refine List.mem_flatMap.mpr ⟨b, hb, ?_⟩
  simp [Piece.chunks, hr, hv]

/-- The symbol of a literal is that of a function with a number in its name. -/
theorem symbol_of_mem_nested {space : Space} {name : String} {symbol : Symbol}
    {literals : List Nest} (h : r.Of space name symbol literals) (hc : c ∈ r.nested) :
    ∃ name params, c.symbol = .function space.module name params ∧ '#' ∈ name.toList := by
  rw [h.nested] at hc
  obtain ⟨t, ht, hc⟩ := Nest.mem_allChunks.mp hc
  obtain ⟨number, hb⟩ := h.built.mem ht
  generalize r.chunk.name = parent at hb
  clear ht
  induction hb with
  | @node parent label number params c' literals hname hsymbol _ _ ih =>
    rcases Nest.mem_chunks.mp hc with hc | rfl
    · obtain ⟨t, ht, hc⟩ := Nest.mem_allChunks.mp hc
      obtain ⟨k, hk⟩ := List.mem_iff_getElem?.mp ht
      exact ih k t hk hc
    · exact ⟨_, params, hsymbol, by simp⟩

/-- The chunk of a whole body captures nothing and has a receiver only if the body is a method. -/
theorem traced_of_piece (hr : b.compile (declarations module files imports).space = .ok r) :
    r.chunk.captures = #[] ∧ r.chunk.hasReceiver = b.source.kind.hasReceiver := by
  have hreg : RegularEnums False (declarations module files imports).space := False.elim
  obtain ⟨symbol, literals, -, ht⟩ := Source.compile_traced hreg False.elim hr
  exact ⟨ht.captures, ht.receiver⟩

theorem free_of_start (h : startChunk? module files imports = some c) : c.Free := by
  have htraced : (Nest.node c []).Traced False (declarations module files imports).space ∧ _ :=
    mainChunk?_traced h
  exact ⟨htraced.2.2.1, htraced.2.1⟩

theorem captures_of_isMethod (hs : s.IsMethod)
    (h : (link module files imports).module.chunks.get? s = some c) : c.captures = #[] := by
  obtain ⟨owner, name, params, hk⟩ := hs
  obtain ⟨rfl, hc | hc⟩ := mem_of_get? h
  · obtain ⟨b, hb, r, hr, hc⟩ := exists_piece_of_mem_bodies hc
    rcases List.mem_cons.mp hc with rfl | hc
    · exact (traced_of_piece hr).1
    · obtain ⟨symbol, literals, -, hof⟩ := Source.compile_eq_ok hr
      obtain ⟨name', params', hsymbol, -⟩ := symbol_of_mem_nested hof hc
      rw [hsymbol] at hk
      cases hk
  · exact (free_of_start hc).1

/-- The chunk under the symbol of a body without a receiver can be entered without one. -/
theorem free_of_piece (hd : (link module files imports).module.diagnostics = [])
    (hdistinct : Distinct module files imports) (hb : b ∈ pieces module files imports)
    (hv : b.isValue = false) (hk : b.source.kind.hasReceiver = false)
    (hs : b.source.symbol? = some s)
    (h : (link module files imports).module.chunks.get? s = some c) : c.Free := by
  obtain ⟨r, hr⟩ := (compiles_of_diagnostics hd).1 b hb
  obtain ⟨symbol, literals, hsymbol, hof⟩ := Source.compile_eq_ok hr
  cases hs.symm.trans hsymbol
  obtain ⟨hs, hc | hc⟩ := mem_of_get? h
  · rw [hdistinct.eq hc (chunk_mem_bodies hb hv hr) (hs.trans hof.symbol.symm)]
    have ht := traced_of_piece hr
    exact ⟨ht.1, ht.2.trans hk⟩
  · exact free_of_start hc

theorem free_of_export (hd : (link module files imports).module.diagnostics = [])
    (hdistinct : Distinct module files imports) {name : String}
    (he : (link module files imports).module.exports.get? name = some (.function s)) :
    s.module = module ∧
      ∀ c, (link module files imports).module.chunks.get? s = some c → c.Free := by
  obtain ⟨t, decl, -, -, rfl, hb⟩ := function_mem_pieces he
  exact ⟨rfl, fun c h => free_of_piece hd hdistinct hb rfl rfl rfl h⟩

theorem free_of_file (hd : (link module files imports).module.diagnostics = [])
    (hdistinct : Distinct module files imports) {file : SourceFile} (hf : file ∈ files)
    (h : (link module files imports).module.chunks.get? (fileSymbol module file.path) = some c) :
    c.Free :=
  free_of_piece hd hdistinct (file_mem_pieces hf) rfl rfl rfl h

theorem free_of_initializers
    (h : (link module files imports).module.initializers.get? s = some c) : c.Free := by
  rw [link_initializers_get?] at h
  obtain ⟨b, hb, hc⟩ := List.mem_flatMap.mp (List.mem_reverse.mp (List.mem_of_find?_eq_some h))
  obtain ⟨symbol, x, loc, r, hsource, hr, -, rfl⟩ := Piece.exists_of_mem_initializers hc
  have ht := traced_of_piece hr
  rw [hsource] at ht
  exact ht

end Chunks

/-! ## Names in files -/

/-- If the analysis is strict, no file reads or assigns to the name of a subject. -/
def FilesApart (strict : Prop) (files : List SourceFile) : Prop :=
  ∀ file ∈ files, Apart strict (Stmt.variablesOf file.stmts)

variable {strict : Prop}

theorem apart_of_mem_stmts {stmts : List Stmt} (h : Apart strict (Stmt.variablesOf stmts))
    {s : Stmt} (hs : s ∈ stmts) : Apart strict s.kind.variables := by
  induction stmts with
  | nil => cases hs
  | cons t ts ih =>
    rw [Stmt.variablesOf] at h
    rcases List.mem_cons.mp hs with rfl | hs
    · obtain ⟨kind, loc⟩ := s
      rw [Stmt.variables] at h
      exact h.left
    · exact ih h.right hs

theorem apart_of_mem_decls {decls : List FuncDecl} (h : Apart strict (FuncDecl.variablesOf decls))
    {decl : FuncDecl} (hd : decl ∈ decls) : Apart strict decl.variables := by
  induction decls with
  | nil => cases hd
  | cons d ds ih =>
    rw [FuncDecl.variablesOf] at h
    rcases List.mem_cons.mp hd with rfl | hd
    · exact h.left
    · exact ih h.right hd

theorem apart_of_mem_ofStruct {path : String} {type : StructType} {decl : StructDecl}
    (h : Apart strict decl.variables) (hb : b ∈ Piece.ofStruct path type decl) :
    Apart strict b.source.variables := by
  rcases Piece.mem_ofStruct.mp hb with rfl | ⟨method, hm, name, s, -, -, rfl⟩
  · exact h
  · obtain ⟨name, properties, init, methods, loc⟩ := decl
    rw [StructDecl.variables] at h
    exact apart_of_mem_decls h.right.right hm

theorem apart_of_mem_ofTopLevel {d : Declarations} {t : TopLevel}
    (h : Apart strict t.stmt.kind.variables) (hb : b ∈ Piece.ofTopLevel d t) :
    Apart strict b.source.variables := by
  obtain ⟨path, place, kind, loc⟩ := t
  rw [Piece.ofTopLevel] at hb
  cases kind with
  | func decl =>
    rw [StmtKind.variables] at h
    dsimp only at hb
    split at hb
    · split at hb
      · rw [List.mem_singleton.mp hb]
        exact h
      · cases hb
    · cases hb
  | bind name mutable ty value =>
    rw [StmtKind.variables] at h
    dsimp only at hb
    split at hb
    · rw [List.mem_singleton.mp hb]
      exact h
    · cases hb
  | struct decl =>
    rw [StmtKind.variables] at h
    dsimp only at hb
    split at hb
    · split at hb
      · exact apart_of_mem_ofStruct h hb
      · cases hb
    · cases hb
  | _ => cases hb

theorem apart_of_mem_pieces (h : FilesApart strict files) (hb : b ∈ pieces module files imports) :
    Apart strict b.source.variables := by
  obtain ⟨⟨file, k⟩, hfile, hb⟩ := List.mem_flatMap.mp hb
  have hstmts := h file (List.fst_mem_of_mem_zipIdx hfile)
  rcases List.mem_cons.mp hb with rfl | hb
  · exact hstmts
  · obtain ⟨t, ht, hb⟩ := List.mem_flatMap.mp hb
    obtain ⟨⟨s, n⟩, hs, rfl⟩ := List.mem_map.mp ht
    exact apart_of_mem_ofTopLevel (apart_of_mem_stmts hstmts (List.fst_mem_of_mem_zipIdx hs)) hb

end Linking

namespace Lowering

variable {strict : Prop} {space : Space}

/-- Every chunk in a body that follows the analysis is that of such a body. -/
theorem Nest.Traced.exists_of_mem {t : Nest} (h : t.Traced strict space) {c : Chunk Value}
    (hc : c ∈ t.chunks) : ∃ literals, Follows strict space c literals ∧
      ∀ u ∈ literals, u.chunk ∈ Nest.allChunks t.literals := by
  induction h with
  | @node c' literals hfollows _ ih =>
    rcases Nest.mem_chunks.mp hc with hc | rfl
    · obtain ⟨t, ht, hc⟩ := Nest.mem_allChunks.mp hc
      obtain ⟨literals', hf, hsub⟩ := ih t ht hc
      exact ⟨literals', hf, fun u hu =>
        Nest.mem_allChunks.mpr ⟨t, ht, Nest.mem_chunks.mpr (.inl (hsub u hu))⟩⟩
    · exact ⟨literals, hfollows, fun u hu => Nest.mem_allChunks.mpr ⟨u, hu, u.chunk_mem_chunks⟩⟩

end Lowering

namespace Machine

open Linking Lowering

section Programs

variable (strict : Prop) (enum? : Symbol → Option EnumType) (p : Program)

/-- What is entered by way of a symbol in the chunk can be entered so. -/
def Admits (c : Chunk Value) : Instruction → Prop
  | ⟨.getModuleFunction, (n : UInt16)⟩ | ⟨.callChunk, (n : UInt16)⟩ =>
    ∀ s c', c.symbol? n = some s → p.chunk? s = some c' → c'.Free
  | ⟨.getMethod, (n : UInt16)⟩ => ∀ s, c.symbol? n = some s → s.IsMethod
  | ⟨.invokeMethod, (n : Selector)⟩ => ∀ s, c.symbol? n.symbol = some s → s.IsMethod
  | _ => True

/-- The chunk follows the analysis in the program. -/
structure Grounded (c : Chunk Value) : Prop where
  follows : ∃ space literals, Follows strict space c literals ∧
    (∀ t ∈ literals, p.chunk? t.chunk.symbol = some t.chunk) ∧
    (strict → ∀ s t, space.enumType? s = some t → enum? s = some t)
  admits : ∀ o i, c.Reaches o → c.instruction? o = some i → Admits p c i
  constants : ∀ v ∈ c.constants, v.Plain

/-- All bodies that the program may enter follow the analysis. -/
structure Program.Grounded : Prop where
  main : Machine.Grounded strict enum? p p.main
  free : p.main.Free
  arity : p.main.arity = 0
  chunk : ∀ s c, p.chunk? s = some c → Machine.Grounded strict enum? p c
  initializer : ∀ s c, p.initializer? s = some c → Machine.Grounded strict enum? p c ∧ c.Free
  method : ∀ s c, s.IsMethod → p.chunk? s = some c → c.captures = #[]
  struct : ∀ s t, p.structType? s = some t → t.Regular

end Programs

section Graph

variable {strict : Prop} {p : Program} {l : Linked} (hp : p.modules = l.modules)

include hp

variable {c : Chunk Value} {s : Symbol} {m : Module}

theorem exists_module_of_chunk? (h : p.chunk? s = some c) :
    ∃ m ∈ l.modules, m.chunks.get? s = some c := by
  obtain ⟨m, hm, hc⟩ := Option.bind_eq_some_iff.mp h
  exact ⟨m, hp ▸ Program.mem_of_find? hm, hc⟩

theorem exists_module_of_initializer? (h : p.initializer? s = some c) :
    ∃ m ∈ l.modules, m.initializers.get? s = some c := by
  obtain ⟨m, hm, hc⟩ := Option.bind_eq_some_iff.mp h
  exact ⟨m, hp ▸ Program.mem_of_find? hm, hc⟩

variable (hagree : Agree l.modules)

include hagree

theorem chunk?_eq_get? (hm : m ∈ l.modules) (hs : s.module = m.name) :
    p.chunk? s = m.chunks.get? s := by
  rw [Program.chunk?, Program.find?, hp, hagree.find? hm hs.symm]
  rfl

variable (hl : Separate (FilesApart strict) l)

include hl

theorem free_of_function (hm : m ∈ l.modules) {name : String}
    (he : m.exports.get? name = some (.function s)) (hc : p.chunk? s = some c) :
    c.Free := by
  obtain ⟨k, hk, rfl, -⟩ := exists_of_mem_modules (fun _ => Separate.of_imports) hl hm
  cases hk with
  | standard =>
    have howns := (Standard.complete_module.function name s he).2
    cases howns
  | link hd hdistinct _ _ =>
    obtain ⟨hs, hfree⟩ := free_of_export hd hdistinct he
    rw [chunk?_eq_get? hp hagree hm (hs.trans link_name.symm)] at hc
    exact hfree c hc

variable {module : String} {files : List SourceFile} {imports : List Linked}
  (hsub : (link module files imports).modules ⊆ l.modules)

include hsub

omit hp hagree in
theorem regular_of_mem (hm : m ∈ (link module files imports).modules) : m.Regular :=
  hl.fromFiles.regular (hsub hm)

theorem admits_of_means {literals : List Nest} {i : Instruction}
    (hm : Means (declarations module files imports).space c literals i) : Admits p c i := by
  obtain ⟨op, operand⟩ := i
  cases op
  case getModuleFunction =>
    obtain ⟨s, hs, name, hr⟩ := hm
    obtain ⟨m, hmem, he⟩ := exists_export hsub hr
    intro s' c' hs' hc'
    cases hs.symm.trans hs'
    exact free_of_function hp hagree hl hmem he hc'
  case getMethod | invokeMethod =>
    obtain ⟨s, hs, ty, type, name, ht, hmethod⟩ := hm
    intro s' hs'
    cases hs.symm.trans hs'
    exact (regular_structOf? (fun _ => regular_of_mem hl hsub) ht).method name s hmethod
  case callChunk => exact hm.elim
  all_goals trivial

omit hp hagree hl hsub in
theorem admits_of_holds {V : Instruction → Prop} (h : c.Holds V) (hV : ∀ i, V i → Admits p c i)
    (o : Nat) (i : Instruction) (ho : c.Reaches o) (hi : c.instruction? o = some i) :
    Admits p c i := by
  cases hd : i.distance? with
  | none => exact hV i (h.of_reaches ho hi hd)
  | some x =>
    obtain ⟨op, operand⟩ := i
    cases op
    case jump | jumpIfFalse | loop => trivial
    all_goals cases hd

omit hl in
theorem chunk?_of_mem_nested (hdistinct : Distinct module files imports) {b : Piece} {r : Compiled}
    (hb : b ∈ pieces module files imports)
    (hr : b.compile (declarations module files imports).space = .ok r) (hc : c ∈ r.nested) :
    p.chunk? c.symbol = some c := by
  obtain ⟨symbol, literals, -, hof⟩ := Source.compile_eq_ok hr
  obtain ⟨name, params, hsymbol, hnumber⟩ := symbol_of_mem_nested hof hc
  have hmodule : c.symbol.module = (link module files imports).module.name := by
    rw [hsymbol]
    exact collects_declarations.named.trans link_name.symm
  rw [chunk?_eq_get? hp hagree (hsub (Linked.module_mem_modules _)) hmodule]
  refine get?_of_mem_bodies hdistinct (nested_subset_bodies hb hr hc) fun he => ?_
  have hname : name = "<main>" := by
    injection hsymbol.symm.trans he with _ hkind
    exact (SymbolKind.function.inj hkind).1
  rw [hname] at hnumber
  revert hnumber
  decide

theorem grounded_of_piece (hdistinct : Distinct module files imports)
    (hfiles : FilesApart strict files) {b : Piece} {r : Compiled}
    (hb : b ∈ pieces module files imports)
    (hr : b.compile (declarations module files imports).space = .ok r)
    (hc : c ∈ r.chunk :: r.nested) : Grounded strict l.enumType? p c := by
  have hregular : ∀ m ∈ (link module files imports).modules, m.Regular :=
    fun _ => regular_of_mem hl hsub
  obtain ⟨symbol, literals, -, hof⟩ := Source.compile_eq_ok hr
  obtain ⟨body, hbody, rfl⟩ := hof.exists_holds hc
  have hsound := (hof.sound.of_holds hbody).assembled
  obtain ⟨symbol', literals', -, htraced⟩ := Source.compile_traced
    (fun _ s t => regular_enumType? hregular) (apart_of_mem_pieces hfiles hb) hr
  have hmem : body.chunk ∈ (Nest.node r.chunk literals').chunks := by
    rw [Nest.mem_chunks]
    rcases List.mem_cons.mp hc with hc | hc
    · exact .inr hc
    · exact .inl (htraced.nested ▸ hc)
  obtain ⟨inner, hfollows, hinner⟩ := htraced.traced.exists_of_mem hmem
  refine ⟨⟨_, inner, hfollows, fun t ht => ?_, fun _ s t ht => ?_⟩, ?_, hsound.constants⟩
  · refine chunk?_of_mem_nested hp hagree hsub hdistinct hb hr ?_
    rw [htraced.nested]
    exact hinner t ht
  · exact enumType?_of_space hregular hagree hsub ht
  · exact admits_of_holds hsound.holds fun _ => admits_of_means hp hagree hl hsub

theorem grounded_of_start (hd : (link module files imports).module.diagnostics = [])
    (hdistinct : Distinct module files imports) (hc : startChunk? module files imports = some c) :
    Grounded strict l.enumType? p c := by
  have hregular : ∀ m ∈ (link module files imports).modules, m.Regular :=
    fun _ => regular_of_mem hl hsub
  have hown : (link module files imports).module ∈ l.modules := hsub (Linked.module_mem_modules _)
  have hstart := mainChunk?_eq_some hc
  have htraced : (Nest.node c []).Traced strict (declarations module files imports).space :=
    (mainChunk?_traced hc).1
  obtain ⟨inner, hfollows, hinner⟩ := htraced.exists_of_mem (Nest.chunk_mem_chunks _)
  refine ⟨⟨_, inner, hfollows, fun t ht => ?_, fun _ s t ht => ?_⟩, ?_, fun v hv => ?_⟩
  · exact absurd (hinner t ht) List.not_mem_nil
  · exact enumType?_of_space hregular hagree hsub ht
  · refine admits_of_holds hstart.holds fun i hi => ?_
    obtain ⟨op, operand⟩ := i
    cases op
    case callChunk =>
      obtain ⟨file, hfile, hs⟩ := hi
      intro s' c' hs' hc'
      cases hs.symm.trans hs'
      rw [chunk?_eq_get? hp hagree hown link_name.symm] at hc'
      exact free_of_file hd hdistinct hfile hc'
    case getModuleFunction =>
      obtain ⟨s, hmain, hs⟩ := hi
      intro s' c' hs' hc'
      cases hs.symm.trans hs'
      exact free_of_function hp hagree hl hown (exports_main hmain) hc'
    case pushNone | defineLocal | defineCell | getLocal | setLocal | notEqual | pop | call | ret =>
      trivial
    all_goals exact hi.elim
  · rw [hstart.constants] at hv
    exact absurd hv (Array.not_mem_empty v)

end Graph

theorem grounded_of_keeps {strict : Prop} {p : Program} {l : Linked} (hp : p.modules = l.modules)
    (hagree : Agree l.modules) (hl : Separate (FilesApart strict) l) {c : Chunk Value}
    (hc : l.Keeps c) : Grounded strict l.enumType? p c := by
  obtain ⟨m, hm, s, hc⟩ := hc.exists_module
  obtain ⟨k, hk, rfl, hsub⟩ := exists_of_mem_modules (fun _ => Separate.of_imports) hl hm
  cases hk with
  | standard => rcases hc with hc | hc | hc <;> cases hc
  | link hd hdistinct hfiles _ =>
    rcases isBody_of_module hc with hc | ⟨b, hb, r, hr, hc⟩
    · exact grounded_of_start hp hagree hl hsub hd hdistinct hc
    · exact grounded_of_piece hp hagree hl hsub hdistinct hfiles hb hr hc

theorem grounded_of_separate {strict : Prop} {p : Program} {l : Linked} {limits : Limits}
    (hp : Program.ofLinked? l limits = some p) (hagree : Agree l.modules)
    (hl : Separate (FilesApart strict) l) : p.Grounded strict l.enumType? := by
  obtain ⟨hmain, -, hmodules⟩ := Program.ofLinked?_eq_some hp
  obtain ⟨hkeeps, hchunk, hinitializer⟩ := keeps_of_ofLinked? hp
  have hgrounded : ∀ c, l.Keeps c → Grounded strict l.enumType? p c := fun c hc =>
    grounded_of_keeps hmodules hagree hl hc
  have hstart : p.main.Free ∧ p.main.arity = 0 := by
    cases hl with
    | standard => cases hmain
    | @link module files imports =>
      have hmain : startChunk? module files imports = some p.main := link_main.symm.trans hmain
      have htraced : (Nest.node p.main []).Traced False (declarations module files imports).space ∧
          _ := mainChunk?_traced hmain
      exact ⟨free_of_start hmain, htraced.2.2.2⟩
  refine ⟨hgrounded _ hkeeps, hstart.1, hstart.2, fun s c hc => hgrounded c (hchunk s c hc),
    fun s c hc => ⟨hgrounded c (hinitializer s c hc), ?_⟩, fun s c hs hc => ?_, fun s t ht => ?_⟩
  · obtain ⟨m, hm, hc⟩ := exists_module_of_initializer? hmodules hc
    obtain ⟨k, hk, rfl, -⟩ := exists_of_mem_modules (fun _ => Separate.of_imports) hl hm
    cases hk with
    | standard => cases hc
    | link => exact free_of_initializers hc
  · obtain ⟨m, hm, hc⟩ := exists_module_of_chunk? hmodules hc
    obtain ⟨k, hk, rfl, -⟩ := exists_of_mem_modules (fun _ => Separate.of_imports) hl hm
    cases hk with
    | standard => cases hc
    | link => exact captures_of_isMethod hs hc
  · obtain ⟨m, hm, ht⟩ := Option.bind_eq_some_iff.mp ht
    exact (hl.fromFiles.regular (hmodules ▸ Program.mem_of_find? hm)).structs s t ht

end Machine

end StackCode
