/-! # Source locations -/

namespace StackCode

/-- A position in a source file, counted from one; `0:0` stands for a node without a place of its
own. -/
structure Location where
  line : UInt32
  column : UInt32
deriving DecidableEq, Repr

namespace Location

/-- The location of nodes that no source text wrote. -/
def synthesized : Location := ⟨0, 0⟩

instance : Inhabited Location := ⟨synthesized⟩

def startOf (line : UInt32) : Location := ⟨line, 1⟩

def text (loc : Location) : String := toString loc.line ++ ":" ++ toString loc.column

end Location

end StackCode
