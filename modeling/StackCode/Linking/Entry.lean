import StackCode.Code.Check
import StackCode.Code.Layout
import StackCode.Syntax.Tree

/-! # Entry of a module

The main chunk runs the files in order and keeps the last result that is not `none`. If the module
declares a function `main` without parameters, it is called at the end and its result counts.
-/

namespace StackCode.Linking

def fileSymbol (module path : String) : Symbol := .function module ("<file " ++ path ++ ">") []

def mainSymbol (module : String) : Symbol := .function module "<main>" []

def resultSlot : UInt8 := 0

def fileSlot : UInt8 := 1

/-- Runs a file and keeps its result unless it is `none`. -/
def runFile (index : UInt16) : List Code :=
  [.instr 0 ⟨.callChunk, index⟩, .bind 0 fileSlot, .instr 0 ⟨.getLocal, fileSlot⟩,
    .instr 0 ⟨.pushNone, ()⟩, .instr 0 ⟨.notEqual, ()⟩,
    .when .synthesized (Code.join [.instr 0 ⟨.getLocal, fileSlot⟩, .instr 0 ⟨.setLocal, resultSlot⟩,
      .instr 0 ⟨.pop, ()⟩])]

def addSymbols? (c : Chunk Value) : List Symbol → Option (List UInt16 × Chunk Value)
  | [] => some ([], c)
  | s :: ss =>
    match c.addSymbol s with
    | (some index, c) => do
      let (indices, c) ← addSymbols? c ss
      return (index :: indices, c)
    | (none, _) => none

/-- The main chunk, unless it would need too many symbols. -/
def mainChunk? (module : String) (files : List SourceFile) (main : Option Symbol) :
    Option (Chunk Value) := do
  let head : Chunk Value :=
    { name := "<main>", symbol := mainSymbol module, locals := #["<result>", "<file result>"] }
  let (indices, head) ← addSymbols? head (files.map (fileSymbol module ·.path))
  let (finish, head) ← match main with
    | some symbol =>
      match head.addSymbol symbol with
      | (some index, head) =>
        pure ([.instr 0 ⟨.getModuleFunction, index⟩, .instr 0 ⟨.call, (0 : UInt8)⟩], head)
      | (none, _) => none
    | none => pure ([Code.instr 0 ⟨.getLocal, resultSlot⟩], head)
  let code := Code.join <| [.instr 0 ⟨.pushNone, ()⟩, .bind 0 resultSlot] ++
    indices.flatMap runFile ++ finish ++ [.instr 0 ⟨.ret, ()⟩]
  return code.layout [] head

end StackCode.Linking
