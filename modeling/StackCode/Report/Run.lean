import StackCode.Machine.Run
import StackCode.Report.Module

/-! # Reports on runs -/

namespace StackCode

open Json

/-- How deep the instances in the result of a run are shown. -/
def resultDepth : Nat := 4

namespace Heap

def counts (h : Heap) : Json := arr [nat h.cells.size, nat h.objects.size, nat h.blocks.size]

end Heap

namespace HeapError

def toJson (e : HeapError) : Json := obj [("error", str e.tag), ("message", str e.message)]

end HeapError

namespace Cause

def toJson (c : Cause) : Json := obj [("error", str c.tag), ("message", str c.message)]

end Cause

namespace Machine

def runJson (ending : Ending) (r : Remains) : Json :=
  let rest := [("output", texts r.output.toList), ("heap", r.heap.counts)]
  match ending with
  | .value v => obj (("value", v.toJson r.heap resultDepth) :: rest)
  | .trap t => obj (t.members ++ rest)
  | .fault => obj (("error", str "Fault") :: rest)
  | .unfinished => obj (("error", str "Unfinished") :: rest)

end Machine

end StackCode
