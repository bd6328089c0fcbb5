import StackCode.Json.Field
import StackCode.Machine.State

/-! # Settings

What can be chosen about the compilation and the execution of a program. Every setting has a
default, and a name that is no setting is refused.
-/

namespace StackCode

structure CompilerSettings where
  moduleName : String := "main"
  emitDisassembly : Bool := false
deriving DecidableEq, Repr

structure MachineSettings extends Machine.Limits where
  traceExecution : Bool := false
deriving DecidableEq, Repr

structure Settings where
  compiler : CompilerSettings := {}
  machine : MachineSettings := {}
deriving DecidableEq, Repr

open Json

namespace Json

/-- Reads a value as a record that has no keys but the given ones. -/
def closedRecord? (form : RecordForm) (keys : List String) (j : Json) :
    Option (List (Option (Part j))) :=
  match j with
  | obj members => if members.all (keys.contains ·.1) then record? form keys (obj members) else none
  | j => record? form keys j

end Json

namespace CompilerSettings

def read? (form : RecordForm) (j : Json) : Option CompilerSettings := do
  let keys := ["module_name", "emit_disassembly"]
  let [moduleName, emitDisassembly] ← j.closedRecord? form keys | none
  let default : CompilerSettings := {}
  let moduleName ← defaulted moduleName default.moduleName fun v _ => v.str?
  let emitDisassembly ← defaulted emitDisassembly default.emitDisassembly fun v _ => v.bool?
  return { moduleName, emitDisassembly }

def ofJson? : Json → Option CompilerSettings := read? .listed

def toJson (s : CompilerSettings) : Json :=
  obj [("module_name", str s.moduleName), ("emit_disassembly", bool s.emitDisassembly)]

end CompilerSettings

namespace MachineSettings

def read? (form : RecordForm) (j : Json) : Option MachineSettings := do
  let keys := ["max_frames", "max_stack", "max_block_slots", "trace_execution"]
  let [maxFrames, maxStack, maxBlockSlots, traceExecution] ← j.closedRecord? form keys | none
  let default : MachineSettings := {}
  let maxFrames ← defaulted maxFrames default.maxFrames fun v _ => v.nat64?
  let maxStack ← defaulted maxStack default.maxStack fun v _ => v.nat64?
  let maxBlockSlots ← defaulted maxBlockSlots default.maxBlockSlots fun v _ => v.nat64?
  let traceExecution ← defaulted traceExecution default.traceExecution fun v _ => v.bool?
  return { maxFrames, maxStack, maxBlockSlots, traceExecution }

def ofJson? : Json → Option MachineSettings := read? .listed

def toJson (s : MachineSettings) : Json :=
  obj [("max_frames", int s.maxFrames), ("max_stack", int s.maxStack),
    ("max_block_slots", int s.maxBlockSlots), ("trace_execution", bool s.traceExecution)]

end MachineSettings

namespace Settings

def read? (form : RecordForm) (j : Json) : Option Settings := do
  let [compiler, machine] ← j.closedRecord? form ["compiler", "vm"] | none
  let compiler ← defaulted compiler {} fun v _ => CompilerSettings.read? form v
  let machine ← defaulted machine {} fun v _ => MachineSettings.read? form v
  return { compiler, machine }

def ofJson? : Json → Option Settings := read? .listed

def toJson (s : Settings) : Json :=
  obj [("compiler", s.compiler.toJson), ("vm", s.machine.toJson)]

end Settings

end StackCode
