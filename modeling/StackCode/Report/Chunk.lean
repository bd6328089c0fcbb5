import StackCode.Chunk.Listing
import StackCode.Report.Tag
import StackCode.Report.Value

/-! # Reports on chunks -/

namespace StackCode

open Json

namespace Opcode

/-- An opcode with its effects on the depth of the stack for some counts. -/
def toJson (counts : List Nat) (op : Opcode) : Json :=
  obj [("name", str op.name), ("size", nat op.size), ("operand", str op.layout.tag),
    ("effects", arr (counts.map fun n => int (op.effect n))), ("terminal", bool op.isTerminal)]

end Opcode

namespace Capture

def toJson (c : Capture) : Json :=
  match c.source with
  | .slot n => arr [str c.name, str "local", nat n.toNat]
  | .capture n => arr [str c.name, str "capture", nat n.toNat]

end Capture

namespace Chunk

def depthsJson (c : Chunk Value) : Json :=
  match c.depths with
  | .ok r =>
    obj [("max_depth", int r.maxDepth),
      ("depths", arr (r.entries.map fun (offset, depth) => arr [nat offset, int depth]))]
  | .error e => obj [("error", str e.tag), ("message", str e.message)]

def toJson (c : Chunk Value) : Json :=
  obj [("name", str c.name), ("symbol", str c.symbol.text), ("path", str c.path),
    ("arity", nat c.arity.toNat), ("has_receiver", bool c.hasReceiver),
    ("locals", texts c.locals.toList), ("captures", arr (c.captures.toList.map Capture.toJson)),
    ("code", str (c.code.foldl (fun s b => s ++ Text.hexByte b) "")),
    ("constants", arr (c.constants.toList.map Value.constantJson)),
    ("symbols", texts (c.symbols.toList.map Symbol.text)),
    ("lines", arr (c.lines.toList.map fun r => arr [nat r.line.toNat, nat r.count])),
    ("listing", str c.listing), ("verify", c.depthsJson)]

def summaryJson (c : Chunk Value) : Json :=
  obj [("name", str c.name), ("symbol", str c.symbol.text), ("len", nat c.size),
    ("constants", nat c.constants.size), ("symbols", nat c.symbols.size),
    ("locals", nat c.locals.size), ("captures", nat c.captures.size)]

end Chunk

end StackCode
