import StackCode.Proofs.Collections
import StackCode.Proofs.Registration

/-! # What a module exports is there

A module that is compiled without problems holds the chunk of every function that it exports, the
initializer of every value, and for every struct its descriptor with the chunks of the initializer
and the methods. The standard module exports only what the machine provides.
-/

namespace StackCode

namespace Module

def Owns (m : Module) (s : Symbol) : Prop := s.module = m.name ∧ (m.chunks.get? s).isSome

/-- Instances of the struct can be made and their methods called: by the machine, or with chunks of
the module. -/
structure Offers (m : Module) (type : StructType) : Prop where
  initializer : if type.symbol.isStandard then
      type.name = Standard.arrayName ∨ type.name = Standard.dictionaryName
    else ∀ s, type.initializer = some s → m.Owns s
  method : ∀ name s, type.method? name = some s →
    if s.isStandard then Collection.Provides s else m.Owns s

structure Complete (m : Module) : Prop where
  function : ∀ name s, m.exports.get? name = some (.function s) → m.Owns s
  value : ∀ name s, m.exports.get? name = some (.value s) →
    s.module = m.name ∧ (m.initializers.get? s).isSome
  struct : ∀ name s, m.exports.get? name = some (.struct s) →
    s.module = m.name ∧ ∃ type, m.structs.get? s = some type ∧ m.Offers type

end Module

namespace Standard

variable {s : Symbol}

theorem method?_structType {name : String} {properties : List String}
    {methods : List (String × List String)} {method : String}
    (h : (structType name properties methods).method? method = some s) :
    ∃ params, (method, params) ∈ methods ∧
      s = .method Symbol.standardModule name method params := by
  obtain ⟨⟨method', params⟩, hm, he⟩ := List.mem_map.mp (Table.mem_of_get?_ofList h)
  cases he
  exact ⟨params, hm, rfl⟩

theorem offers_arrayType : module.Offers arrayType := by
  refine ⟨.inl rfl, fun name s hs => ?_⟩
  obtain ⟨params, hm, rfl⟩ := method?_structType hs
  exact ⟨_, _, _, rfl, .inl ⟨rfl, List.mem_map_of_mem (f := Prod.fst) hm⟩⟩

theorem offers_dictionaryType : module.Offers dictionaryType := by
  refine ⟨.inr rfl, fun name s hs => ?_⟩
  obtain ⟨params, hm, rfl⟩ := method?_structType hs
  exact ⟨_, _, _, rfl, .inr ⟨rfl, List.mem_map_of_mem (f := Prod.fst) hm⟩⟩

theorem eq_of_get? {type : StructType} (h : module.structs.get? s = some type) :
    type = arrayType ∨ type = dictionaryType := by
  have hmem := Table.mem_of_get?_ofList h
  simp only [List.map_cons, List.map_nil, List.mem_cons, List.not_mem_nil, or_false,
    Prod.mk.injEq] at hmem
  exact hmem.imp And.right And.right

/-- The structs of the standard module are those that the machine provides. -/
theorem offers_of_get? {type : StructType} (h : module.structs.get? s = some type) :
    module.Offers type := by
  rcases eq_of_get? h with rfl | rfl
  · exact offers_arrayType
  · exact offers_dictionaryType

theorem complete_module : module.Complete := by
  have hexports : ∀ name g, module.exports.get? name = some g →
      ∃ type ∈ [arrayType, dictionaryType], g = .struct type.symbol := by
    intro name g h
    obtain ⟨type, ht, he⟩ := List.mem_map.mp (Table.mem_of_get?_ofList h)
    cases he
    exact ⟨type, ht, rfl⟩
  refine ⟨fun name s h => ?_, fun name s h => ?_, fun name s h => ?_⟩
  · obtain ⟨_, _, he⟩ := hexports name _ h
    cases he
  · obtain ⟨_, _, he⟩ := hexports name _ h
    cases he
  · obtain ⟨type, ht, he⟩ := hexports name _ h
    cases he
    simp only [List.mem_cons, List.not_mem_nil, or_false] at ht
    rcases ht with rfl | rfl
    · exact ⟨rfl, arrayType, by rfl, offers_arrayType⟩
    · exact ⟨rfl, dictionaryType, by rfl, offers_dictionaryType⟩

end Standard

namespace Linking

open Lowering

variable {module : String} {files : List SourceFile} {imports : List Linked}
  (h : (link module files imports).module.diagnostics = [])

include h in
/-- Without problems every body has a chunk, and so has the start. -/
theorem compiles_of_diagnostics :
    (∀ b ∈ pieces module files imports, ∃ r,
      b.compile (declarations module files imports).space = .ok r) ∧
    ∃ c, startChunk? module files imports = some c := by
  rw [link_eq] at h
  simp only [Linked.module, List.append_eq_nil_iff, List.flatMap_eq_nil_iff] at h
  obtain ⟨⟨-, hproblems⟩, hstart⟩ := h
  constructor
  · intro b hb
    have hb := hproblems b hb
    rw [Piece.problems] at hb
    cases hr : b.compile (declarations module files imports).space with
    | ok r => exact ⟨r, rfl⟩
    | error problems =>
      rw [hr] at hb
      subst hb
      exact absurd hr (Source.compile_ne_error _ _ _)
  · cases hs : startChunk? module files imports with
    | some c => exact ⟨c, rfl⟩
    | none =>
      rw [hs] at hstart
      cases hstart

theorem isSome_of_mem_registered {c : Chunk Value} (h : c ∈ registered module files imports) :
    ((link module files imports).module.chunks.get? c.symbol).isSome := by
  rw [link_chunks_get?, List.find?_isSome]
  exact ⟨c, List.mem_reverse.mpr h, beq_self_eq_true c.symbol⟩

variable {s : Symbol}

include h in
theorem owns_of_mem_pieces {b : Piece} (hb : b ∈ pieces module files imports)
    (hv : b.isValue = false) (hs : b.source.symbol? = some s) (hm : s.module = module) :
    (link module files imports).module.Owns s := by
  obtain ⟨r, hr⟩ := (compiles_of_diagnostics h).1 b hb
  obtain ⟨symbol, literals, hsymbol, hof⟩ := Source.compile_eq_ok hr
  cases hs.symm.trans hsymbol
  have hmem : r.chunk ∈ registered module files imports := by
    refine List.mem_append_left _ (List.mem_flatMap.mpr ⟨b, hb, ?_⟩)
    simp [Piece.chunks, hr, hv]
  refine ⟨hm.trans link_name.symm, ?_⟩
  rw [← hof.symbol]
  exact isSome_of_mem_registered hmem

theorem file_mem_pieces {file : SourceFile} (hf : file ∈ files) :
    ⟨file.path, .file (fileSymbol module file.path) file.stmts⟩ ∈ pieces module files imports := by
  obtain ⟨k, hk⟩ := List.mem_iff_getElem?.mp hf
  refine List.mem_flatMap.mpr ⟨(file, k), List.mk_mem_zipIdx_iff_getElem?.mpr hk, ?_⟩
  rw [Piece.ofFile, collects_declarations.named]
  exact List.mem_cons_self

include h in
theorem owns_fileSymbol {file : SourceFile} (hf : file ∈ files) :
    (link module files imports).module.Owns (fileSymbol module file.path) :=
  owns_of_mem_pieces h (file_mem_pieces hf) rfl rfl rfl

theorem exports_main (h : userMain? (declarations module files imports).space = some s) :
    (link module files imports).module.exports.get? "main" = some (.function s) := by
  rw [link_exports]
  unfold userMain? at h
  split at h
  · rename_i hg
    split at h
    · cases h
      exact hg
    · cases h
  · cases h

include h in
theorem initializer_of_mem_pieces {b : Piece} (hb : b ∈ pieces module files imports)
    (hv : b.isValue = true) (hs : b.source.symbol? = some s) :
    ((link module files imports).module.initializers.get? s).isSome := by
  obtain ⟨r, hr⟩ := (compiles_of_diagnostics h).1 b hb
  obtain ⟨symbol, literals, hsymbol, hof⟩ := Source.compile_eq_ok hr
  cases hs.symm.trans hsymbol
  rw [link_initializers_get?, List.find?_isSome]
  refine ⟨r.chunk, List.mem_reverse.mpr (List.mem_flatMap.mpr ⟨b, hb, ?_⟩),
    beq_iff_eq.mpr hof.symbol⟩
  simp [Piece.initializers, hr, hv]

theorem offers_of_last (hname : module ≠ Symbol.standardModule)
    (h : (link module files imports).module.diagnostics = []) {decl : StructDecl} {t : TopLevel}
    (ht : t ∈ TopLevel.ofFiles files)
    (hpieces : Piece.ofTopLevel (declarations module files imports) t =
      Piece.ofStruct t.path (.ofDecl module decl) decl) :
    (link module files imports).module.Offers (.ofDecl module decl) := by
  have hstandard : ∀ kind, Symbol.isStandard ⟨module, kind⟩ = false := fun kind =>
    beq_eq_false_iff_ne.mpr hname
  have hmem : ∀ b ∈ Piece.ofStruct t.path (.ofDecl module decl) decl,
      b ∈ pieces module files imports := fun b hb => mem_pieces ht (hpieces ▸ hb)
  refine ⟨?_, fun name s hs => ?_⟩
  · rw [show (StructType.ofDecl module decl).symbol.isStandard = false from hstandard _]
    intro s hs
    cases hs
    exact owns_of_mem_pieces h (hmem _ (Piece.mem_ofStruct.mpr (.inl rfl))) rfl rfl rfl
  · obtain ⟨method, hm, hn, rfl⟩ := StructType.method?_ofDecl hs
    rw [show Symbol.isStandard (.method module decl.name name method.paramTypes) = false from
      hstandard _]
    exact owns_of_mem_pieces h (hmem _ (Piece.mem_ofStruct.mpr
      (.inr ⟨method, hm, name, _, hn, hs, rfl⟩))) rfl rfl rfl

/-- What a module exports is what the last statement that declares the name says. -/
theorem exists_last_of_export {name : String} {g : Global}
    (hg : (link module files imports).module.exports.get? name = some g) :
    ∃ t ∈ TopLevel.ofFiles files, t.declared? module = some (name, g) ∧
      (declarations module files imports).isLast name t.place = true ∧
      TopLevel.last? module (TopLevel.ofFiles files) name = some t := by
  rw [link_exports, collects_declarations.globals] at hg
  obtain ⟨t, ht, hdecl⟩ := Option.bind_eq_some_iff.mp hg
  obtain ⟨hmem, g', hg'⟩ := TopLevel.last?_spec ht
  rw [hg'] at hdecl
  cases hdecl
  exact ⟨t, hmem, hg', (collects_declarations.isLast_iff hmem).mpr ht, ht⟩

theorem function_mem_pieces {name : String}
    (hg : (link module files imports).module.exports.get? name = some (.function s)) :
    ∃ t decl, TopLevel.last? module (TopLevel.ofFiles files) name = some t ∧
      t.stmt.kind = .func decl ∧ s = .function module name decl.paramTypes ∧
      ⟨t.path, .function s decl⟩ ∈ pieces module files imports := by
  obtain ⟨t, ht, hdecl, hl, hlast⟩ := exists_last_of_export hg
  rcases TopLevel.declared?_cases hdecl with
    ⟨decl, hk, hn, he⟩ | ⟨_, _, _, -, he⟩ | ⟨_, -, -, he⟩ | ⟨_, he⟩ <;> cases he
  refine ⟨t, decl, hlast, hk, rfl, mem_pieces ht ?_⟩
  simp only [Piece.ofTopLevel, hk, hn, hl, collects_declarations.named, if_true,
    List.mem_singleton]

/-- A module that is compiled without problems holds whatever it exports. -/
theorem complete_link (hname : module ≠ Symbol.standardModule)
    (h : (link module files imports).module.diagnostics = []) :
    (link module files imports).module.Complete := by
  have hd : (declarations module files imports).Collects module _ _ := collects_declarations
  refine ⟨fun name s hg => ?_, fun name s hg => ?_, fun name s hg => ?_⟩
  · obtain ⟨t, decl, -, -, rfl, hb⟩ := function_mem_pieces hg
    exact owns_of_mem_pieces h hb rfl rfl rfl
  · obtain ⟨t, ht, hdecl, hl, -⟩ := exists_last_of_export hg
    rcases TopLevel.declared?_cases hdecl with
      ⟨_, -, -, he⟩ | ⟨_, _, value, hk, he⟩ | ⟨_, -, -, he⟩ | ⟨_, he⟩ <;> cases he
    have hpieces : Piece.ofTopLevel (declarations module files imports) t =
        [⟨t.path, .value (.value module name) value t.stmt.loc⟩] := by
      simp only [Piece.ofTopLevel, hk, hl, hd.named, if_true]
    have hb := mem_pieces ht (hpieces ▸ List.mem_singleton_self _)
    exact ⟨link_name.symm, initializer_of_mem_pieces h hb rfl rfl⟩
  · obtain ⟨t, ht, hdecl, hl, hlast⟩ := exists_last_of_export hg
    rcases TopLevel.declared?_cases hdecl with
      ⟨_, -, -, he⟩ | ⟨_, _, _, -, he⟩ | ⟨decl, hk, rfl, he⟩ | ⟨_, he⟩ <;> cases he
    have hstruct : t.struct? module = some (.ofDecl module decl) := by
      simp only [TopLevel.struct?, hk]
    have htype := hd.struct decl.name t _ hlast hstruct
    have hpieces : Piece.ofTopLevel (declarations module files imports) t =
        Piece.ofStruct t.path (.ofDecl module decl) decl := by
      simp only [Piece.ofTopLevel, hk, hl, hd.named, if_true, Space.structType?, htype]
    refine ⟨link_name.symm, .ofDecl module decl, ?_, offers_of_last hname h ht hpieces⟩
    rw [link_structs]
    exact htype

end Linking

end StackCode
