import StackCode.Linking.Basic
import StackCode.Proofs.CompiledBodies
import StackCode.Proofs.Declarations

/-! # The chunks of a module

Linking compiles the bodies of a module one after another and keeps their chunks by symbol. Of
several chunks with the same symbol the last one stays.
-/

namespace StackCode.Linking

open Lowering

/-- A body that is compiled for a module, with the path of its file. -/
structure Piece where
  path : String
  source : Source

namespace Piece

def ofStruct (path : String) (type : StructType) (decl : StructDecl) : List Piece :=
  ⟨path, .initializer type decl⟩ :: decl.methods.filterMap fun method =>
    (method.name.bind type.method?).map fun symbol => ⟨path, .method type symbol method⟩

theorem mem_ofStruct {b : Piece} {path : String} {type : StructType} {decl : StructDecl} :
    b ∈ ofStruct path type decl ↔ b = ⟨path, .initializer type decl⟩ ∨
      ∃ method ∈ decl.methods, ∃ name s, method.name = some name ∧ type.method? name = some s ∧
        b = ⟨path, .method type s method⟩ := by
  simp only [ofStruct, List.mem_cons, List.mem_filterMap, Option.map_eq_some_iff,
    Option.bind_eq_some_iff]
  refine or_congr Iff.rfl (exists_congr fun method => and_congr Iff.rfl ?_)
  constructor
  · rintro ⟨s, ⟨name, hn, hs⟩, rfl⟩
    exact ⟨name, s, hn, hs, rfl⟩
  · rintro ⟨name, s, hn, hs, rfl⟩
    exact ⟨s, ⟨name, hn, hs⟩, rfl⟩

/-- The bodies of the declaration that a statement makes, if it is the last one of its name. -/
def ofTopLevel (d : Declarations) (t : TopLevel) : List Piece :=
  match t.stmt.kind with
  | .func decl =>
    match decl.name with
    | some name =>
      if d.isLast name t.place then
        [⟨t.path, .function (.function d.space.module name decl.paramTypes) decl⟩]
      else []
    | none => []
  | .bind name _ _ value =>
    if d.isLast name t.place then
      [⟨t.path, .value (.value d.space.module name) value t.stmt.loc⟩]
    else []
  | .struct decl =>
    if d.isLast decl.name t.place then
      match d.space.structType? (.struct d.space.module decl.name) with
      | some type => ofStruct t.path type decl
      | none => []
    else []
  | _ => []

def ofFile (d : Declarations) (file : SourceFile × Nat) : List Piece :=
  ⟨file.1.path, .file (fileSymbol d.space.module file.1.path) file.1.stmts⟩ ::
    (TopLevel.ofFile file).flatMap (ofTopLevel d)

/-- All bodies of a module in the order in which they are compiled. -/
def ofFiles (d : Declarations) (files : List SourceFile) : List Piece :=
  files.zipIdx.flatMap (ofFile d)

def compile (space : Space) (b : Piece) : Except (List Diagnostic) Compiled :=
  b.source.compile space b.path

def isValue (b : Piece) : Bool :=
  match b.source with
  | .value .. => true
  | _ => false

def chunks (space : Space) (b : Piece) : List (Chunk Value) :=
  match b.compile space with
  | .ok r => r.nested ++ if b.isValue then [] else [r.chunk]
  | .error _ => []

def initializers (space : Space) (b : Piece) : List (Chunk Value) :=
  match b.compile space with
  | .ok r => if b.isValue then [r.chunk] else []
  | .error _ => []

def problems (space : Space) (b : Piece) : List Diagnostic :=
  match b.compile space with
  | .ok _ => []
  | .error problems => problems

variable {space : Space} {b : Piece} {r : Compiled} {c : Chunk Value}

theorem mem_of_mem_chunks (h : b.compile space = .ok r) (hc : c ∈ b.chunks space) :
    c ∈ r.chunk :: r.nested := by
  simp only [chunks, h, List.mem_append] at hc
  rcases hc with hc | hc
  · exact List.mem_cons_of_mem _ hc
  · split at hc
    · cases hc
    · exact List.mem_singleton.mp hc ▸ List.mem_cons_self

theorem exists_of_mem_chunks (h : c ∈ b.chunks space) :
    ∃ r, b.compile space = .ok r ∧ c ∈ r.chunk :: r.nested := by
  cases hr : b.compile space with
  | ok r => exact ⟨r, rfl, mem_of_mem_chunks hr h⟩
  | error problems =>
    rw [chunks, hr] at h
    cases h

/-- The chunk that computes a value comes from a declaration of the value. -/
theorem exists_of_mem_initializers (h : c ∈ b.initializers space) :
    ∃ symbol x loc r, b.source = .value symbol x loc ∧ b.compile space = .ok r ∧
      Compiled.ofValue space b.path symbol x loc = .ok r ∧ c = r.chunk := by
  obtain ⟨path, source⟩ := b
  cases hr : Piece.compile space ⟨path, source⟩ with
  | error problems =>
    rw [initializers, hr] at h
    cases h
  | ok r =>
    rw [initializers, hr] at h
    cases source with
    | value symbol x loc => exact ⟨symbol, x, loc, r, rfl, rfl, hr, List.mem_singleton.mp h⟩
    | _ => cases h

end Piece

namespace Output

def addPiece (space : Space) (o : Output) (b : Piece) : Output :=
  if b.isValue then o.addValue (b.compile space) else o.addBody (b.compile space)

variable {d : Declarations} {space : Space} (o : Output)

theorem addStruct_eq (path : String) (type : StructType) (decl : StructDecl) :
    o.addStruct space path type decl =
      (Piece.ofStruct path type decl).foldl (addPiece space) o := by
  rw [addStruct, Piece.ofStruct, List.foldl_cons, List.foldl_filterMap]
  congr 1
  funext o method
  cases method.name.bind type.method? <;> rfl

theorem addDeclaration_eq (t : TopLevel) :
    o.addDeclaration d t.path t.place t.stmt =
      (Piece.ofTopLevel d t).foldl (addPiece d.space) o := by
  obtain ⟨path, place, kind, loc⟩ := t
  rw [addDeclaration, Piece.ofTopLevel]
  cases kind with
  | func decl =>
    dsimp only
    cases decl.name with
    | none => rfl
    | some name =>
      dsimp only
      cases d.isLast name place <;> rfl
  | bind name mutable ty value =>
    dsimp only
    cases d.isLast name place <;> rfl
  | struct decl =>
    dsimp only
    cases d.isLast decl.name place with
    | false => rfl
    | true =>
      simp only [if_true]
      cases d.space.structType? (.struct d.space.module decl.name) with
      | none => rfl
      | some type => exact o.addStruct_eq path type decl
  | _ => rfl

theorem addFile_eq (file : SourceFile × Nat) :
    addFile d o file = (Piece.ofFile d file).foldl (addPiece d.space) o := by
  rw [addFile, Piece.ofFile, List.foldl_cons, List.foldl_flatMap, TopLevel.ofFile, List.foldl_map]
  congr 1
  funext o x
  exact o.addDeclaration_eq ⟨file.1.path, ⟨file.2, x.2⟩, x.1⟩

theorem addPiece_eq (b : Piece) :
    o.addPiece space b =
      { chunks := (b.chunks space).foldl (fun t c => t.insert c.symbol c) o.chunks
        initializers := (b.initializers space).foldl (fun t c => t.insert c.symbol c) o.initializers
        diagnostics := o.diagnostics ++ b.problems space } := by
  rw [addPiece, Piece.chunks, Piece.initializers, Piece.problems]
  cases b.compile space with
  | ok r => cases b.isValue <;> simp [addValue, addBody, addChunks]
  | error problems => cases b.isValue <;> simp [addValue, addBody]

theorem foldl_addPiece (bs : List Piece) :
    bs.foldl (addPiece space) o =
      { chunks := (bs.flatMap (·.chunks space)).foldl (fun t c => t.insert c.symbol c) o.chunks
        initializers := (bs.flatMap (·.initializers space)).foldl
          (fun t c => t.insert c.symbol c) o.initializers
        diagnostics := o.diagnostics ++ bs.flatMap (·.problems space) } := by
  induction bs generalizing o with
  | nil => simp
  | cons b bs ih =>
    rw [List.foldl_cons, ih, addPiece_eq]
    simp [List.foldl_append]

end Output

section Link

variable (module : String) (files : List SourceFile) (imports : List Linked)

def declarations : Declarations := .ofFiles module (withStandard module imports) files

def pieces : List Piece := Piece.ofFiles (declarations module files imports) files

def startChunk? : Option (Chunk Value) :=
  mainChunk? module files (userMain? (declarations module files imports).space)

/-- The chunks of the module in the order in which they are kept. -/
def registered : List (Chunk Value) :=
  (pieces module files imports).flatMap (·.chunks (declarations module files imports).space) ++
    (startChunk? module files imports).toList

variable {module files imports}

theorem link_eq : link module files imports =
    .mk { name := module
          main := startChunk? module files imports
          chunks := (registered module files imports).foldl (fun t c => t.insert c.symbol c) {}
          initializers := ((pieces module files imports).flatMap
            (·.initializers (declarations module files imports).space)).foldl
              (fun t c => t.insert c.symbol c) {}
          structs := (declarations module files imports).space.structs
          enums := (declarations module files imports).space.enums
          exports := (declarations module files imports).space.globals
          diagnostics := (declarations module files imports).problems.reverse ++
            (pieces module files imports).flatMap
              (·.problems (declarations module files imports).space) ++
            match startChunk? module files imports with
            | some _ => []
            | none => [⟨.tooManySymbols, module, .synthesized, none⟩] }
      (withStandard module imports) := by
  have hfiles : ∀ o, files.zipIdx.foldl (Output.addFile (declarations module files imports)) o =
      (pieces module files imports).foldl
        (Output.addPiece (declarations module files imports).space) o := by
    intro o
    rw [pieces, Piece.ofFiles, List.foldl_flatMap]
    congr 1
    funext o file
    exact o.addFile_eq file
  rw [link]
  dsimp only
  rw [← declarations, ← startChunk?, hfiles, Output.foldl_addPiece, registered]
  cases startChunk? module files imports with
  | some c => simp [Output.addChunks, List.foldl_append]
  | none => simp

theorem link_name : (link module files imports).module.name = module := by
  rw [link_eq]
  rfl

theorem link_main :
    (link module files imports).module.main = startChunk? module files imports := by
  rw [link_eq]
  rfl

theorem link_structs : (link module files imports).module.structs =
    (declarations module files imports).space.structs := by
  rw [link_eq]
  rfl

theorem link_exports : (link module files imports).module.exports =
    (declarations module files imports).space.globals := by
  rw [link_eq]
  rfl

theorem link_imports : (link module files imports).imports = withStandard module imports := by
  rw [link_eq]
  rfl

/-- Of the chunks with a symbol the last one stays. -/
theorem link_chunks_get? (s : Symbol) :
    (link module files imports).module.chunks.get? s =
      (registered module files imports).reverse.find? (·.symbol == s) := by
  rw [link_eq]
  refine (Table.get?_foldl_insert Chunk.symbol id _ _ s).trans ?_
  rw [Option.map_id]
  exact Option.or_none

theorem link_initializers_get? (s : Symbol) :
    (link module files imports).module.initializers.get? s =
      ((pieces module files imports).flatMap
        (·.initializers (declarations module files imports).space)).reverse.find?
          (·.symbol == s) := by
  rw [link_eq]
  refine (Table.get?_foldl_insert Chunk.symbol id _ _ s).trans ?_
  rw [Option.map_id]
  exact Option.or_none

/-- The chunk is the start of the module, or it comes from a piece or from a literal in it. -/
def IsBody (module : String) (files : List SourceFile) (imports : List Linked) (c : Chunk Value) :
    Prop :=
  startChunk? module files imports = some c ∨ ∃ b ∈ pieces module files imports, ∃ r,
    b.compile (declarations module files imports).space = .ok r ∧ c ∈ r.chunk :: r.nested

theorem isBody_of_module {s : Symbol} {c : Chunk Value}
    (h : (link module files imports).module.main = some c ∨
      (link module files imports).module.chunks.get? s = some c ∨
      (link module files imports).module.initializers.get? s = some c) :
    IsBody module files imports c := by
  rcases h with h | h | h
  · exact .inl (link_main.symm.trans h)
  · rw [link_chunks_get?] at h
    rcases List.mem_append.mp (List.mem_reverse.mp (List.mem_of_find?_eq_some h)) with h | h
    · obtain ⟨b, hb, hc⟩ := List.mem_flatMap.mp h
      exact .inr ⟨b, hb, Piece.exists_of_mem_chunks hc⟩
    · exact .inl (Option.mem_toList.mp h)
  · rw [link_initializers_get?] at h
    obtain ⟨b, hb, hc⟩ := List.mem_flatMap.mp (List.mem_reverse.mp (List.mem_of_find?_eq_some h))
    obtain ⟨_, _, _, r, -, hr, -, rfl⟩ := Piece.exists_of_mem_initializers hc
    exact .inr ⟨b, hb, r, hr, List.mem_cons_self⟩

theorem collects_declarations : (declarations module files imports).Collects module
    (withStandard module imports) (TopLevel.ofFiles files) := Declarations.collects_ofFiles ..

theorem mem_pieces {t : TopLevel} (ht : t ∈ TopLevel.ofFiles files) {b : Piece}
    (hb : b ∈ Piece.ofTopLevel (declarations module files imports) t) :
    b ∈ pieces module files imports := by
  obtain ⟨file, hf, ht⟩ := List.mem_flatMap.mp ht
  refine List.mem_flatMap.mpr ⟨file, hf, List.mem_cons_of_mem _ ?_⟩
  exact List.mem_flatMap.mpr ⟨t, ht, hb⟩

end Link

end StackCode.Linking
