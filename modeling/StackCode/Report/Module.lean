import StackCode.Module
import StackCode.Report.Chunk

/-! # Reports on modules

Descriptors, diagnostics, traps and whole modules as JSON. What has no order of its own is sorted by
name or by symbol.
-/

namespace StackCode

open Json

def sortedByName {α : Type} (entries : List (String × α)) : List (String × α) :=
  entries.mergeSort fun a b => a.1 ≤ b.1

def sortedBySymbol {α : Type} (symbol : α → Symbol) (items : List α) : List α :=
  items.mergeSort fun a b => (symbol a).le (symbol b)

namespace Global

def tag : Global → String
  | function _ => "Function"
  | value _ => "Value"
  | struct _ => "Struct"
  | enum _ => "Enum"

def toJson (g : Global) : Json := arr [str g.tag, str g.symbol.text]

end Global

namespace StructType

def toJson (t : StructType) : Json :=
  obj [("symbol", str t.symbol.text), ("name", str t.name), ("properties", texts t.properties),
    ("count", nat t.propertyCount), ("init", orNull (str ·.text) t.initializer),
    ("init_params", texts t.initParams),
    ("methods", arr ((sortedByName t.methods.entries).map fun (name, s) =>
      arr [str name, str s.text]))]

end StructType

namespace EnumType

def toJson (t : EnumType) : Json :=
  obj [("symbol", str t.symbol.text),
    ("cases", arr (t.cases.map fun c => arr [str c.name, texts (c.values.map Ty.text)]))]

end EnumType

namespace Diagnostic

def toJson (d : Diagnostic) : Json :=
  obj [("error", str d.problem.tag), ("message", str d.text), ("path", str d.path),
    ("line", nat d.loc.line.toNat), ("column", nat d.loc.column.toNat),
    ("hint", orNull str d.hint)]

end Diagnostic

namespace TraceEntry

def toJson (e : TraceEntry) : Json :=
  arr [str e.chunk, nat e.offset, nat e.line.toNat, orNull str e.source, str e.text]

end TraceEntry

namespace Trap

def members (t : Trap) : List (String × Json) :=
  [("error", str t.cause.tag), ("message", str t.cause.message), ("chunk", str t.chunk),
    ("offset", nat t.offset), ("line", nat t.line.toNat),
    ("trace", arr (t.trace.map TraceEntry.toJson)), ("text", str t.text)]

def toJson (t : Trap) : Json := obj t.members

end Trap

namespace Linked

/-- A module, with its chunks in the given form. -/
def toJson (chunk : Chunk Value → Json) (l : Linked) : Json :=
  let m := l.module
  obj [("name", str m.name), ("main", orNull (fun c => str c.symbol.text) m.main),
    ("chunks", arr ((sortedBySymbol (·.symbol) m.chunks.values).map chunk)),
    ("values", arr ((sortedBySymbol (·.symbol) m.initializers.values).map chunk)),
    ("structs", arr ((sortedBySymbol (·.symbol) m.structs.values).map StructType.toJson)),
    ("enums", arr ((sortedBySymbol (·.symbol) m.enums.values).map EnumType.toJson)),
    ("exports", arr ((sortedByName m.exports.entries).map fun (name, g) =>
      arr [str name, g.toJson])),
    ("imports", texts (l.imports.map (·.name)))]

end Linked

end StackCode
