import StackCode.Linking.Declarations
import StackCode.Linking.Entry

/-! # Linking

Compiles the source files of a module against the modules that it imports. The declarations of all
files are collected first; then every body is compiled with all of them in sight.
-/

namespace StackCode.Linking

open Lowering

/-- What the bodies of a module are compiled to. -/
structure Output where
  chunks : Table Symbol (Chunk Value) := {}
  initializers : Table Symbol (Chunk Value) := {}
  diagnostics : List Diagnostic := []

namespace Output

def addChunks (o : Output) (chunks : List (Chunk Value)) : Output :=
  { o with chunks := chunks.foldl (fun t c => t.insert c.symbol c) o.chunks }

def addBody (o : Output) : Except (List Diagnostic) Compiled → Output
  | .ok c => (o.addChunks c.nested).addChunks [c.chunk]
  | .error problems => { o with diagnostics := o.diagnostics ++ problems }

def addValue (o : Output) : Except (List Diagnostic) Compiled → Output
  | .ok c =>
    let o := o.addChunks c.nested
    { o with initializers := o.initializers.insert c.chunk.symbol c.chunk }
  | .error problems => { o with diagnostics := o.diagnostics ++ problems }

def addStruct (o : Output) (space : Space) (path : String) (t : StructType) (decl : StructDecl) :
    Output :=
  let o := o.addBody (Compiled.ofInitializer space path t decl)
  decl.methods.foldl (fun o method =>
    match method.name.bind t.method? with
    | some symbol => o.addBody (Compiled.ofMethod space path t symbol method)
    | none => o) o

/-- Compiles the declaration that a statement makes, if it is the last one of its name. -/
def addDeclaration (d : Declarations) (path : String) (o : Output) (place : Place) (s : Stmt) :
    Output :=
  let module := d.space.module
  match s.kind with
  | .func decl =>
    match decl.name with
    | some name =>
      if d.isLast name place then
        o.addBody (Compiled.ofFunction d.space path (.function module name decl.paramTypes) decl)
      else o
    | none => o
  | .bind name _ _ value =>
    if d.isLast name place then
      o.addValue (Compiled.ofValue d.space path (.value module name) value s.loc)
    else o
  | .struct decl =>
    if d.isLast decl.name place then
      match d.space.structType? (.struct module decl.name) with
      | some t => o.addStruct d.space path t decl
      | none => o
    else o
  | _ => o

/-- Compiles the statements of a file, then its declarations. -/
def addFile (d : Declarations) (o : Output) (file : SourceFile × Nat) : Output :=
  let path := file.1.path
  let o := o.addBody (Compiled.ofFile d.space path (fileSymbol d.space.module path) file.1.stmts)
  file.1.stmts.zipIdx.foldl (fun o (s, i) => o.addDeclaration d path ⟨file.2, i⟩ s) o

end Output

/-- The imports of a module. Unless the module is the standard one itself, the standard module comes
first, so that every other import hides its names. -/
def withStandard (module : String) (imports : List Linked) : List Linked :=
  if module == Symbol.standardModule then imports
  else
    let (standard, others) := imports.partition (·.name == Symbol.standardModule)
    standard.head?.getD Standard.linked :: others

def userMain? (space : Space) : Option Symbol :=
  match space.globals.get? "main" with
  | some (.function symbol) =>
    match symbol.kind with
    | .function _ [] => some symbol
    | _ => none
  | _ => none

/-- Compiles files to a module, which keeps the problems that were found. -/
def link (module : String) (files : List SourceFile) (imports : List Linked) : Linked :=
  let imports := withStandard module imports
  let d := Declarations.ofFiles module imports files
  let o := files.zipIdx.foldl (Output.addFile d) { diagnostics := d.problems.reverse }
  let main := mainChunk? module files (userMain? d.space)
  let o := match main with
    | some chunk => o.addChunks [chunk]
    | none =>
      let problem : Diagnostic := ⟨.tooManySymbols, module, .synthesized, none⟩
      { o with diagnostics := o.diagnostics ++ [problem] }
  .mk { name := module, main, chunks := o.chunks, initializers := o.initializers,
        structs := d.space.structs, enums := d.space.enums, exports := d.space.globals,
        diagnostics := o.diagnostics } imports

/-- Compiles files to a module without problems. -/
def compile (module : String) (files : List SourceFile) (imports : List Linked) :
    Except (List Diagnostic) Linked :=
  let linked := link module files imports
  match linked.module.diagnostics with
  | [] => .ok linked
  | problems => .error problems

end StackCode.Linking
