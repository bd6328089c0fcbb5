import StackCode.Settings.Basic
import StackCode.Toml.Parser

/-! # Settings as TOML -/

namespace StackCode.Settings

/-- All settings in two tables, if every limit can be written. -/
def toToml? (s : Settings) : Option String := do
  let maxFrames ← Toml.integer? s.machine.maxFrames
  let maxStack ← Toml.integer? s.machine.maxStack
  let maxBlockSlots ← Toml.integer? s.machine.maxBlockSlots
  return "[compiler]\n" ++ Toml.entry "module_name" (Toml.quote s.compiler.moduleName) ++
    Toml.entry "emit_disassembly" (Toml.truth s.compiler.emitDisassembly) ++
    "\n[vm]\n" ++ Toml.entry "max_frames" maxFrames ++ Toml.entry "max_stack" maxStack ++
    Toml.entry "max_block_slots" maxBlockSlots ++
    Toml.entry "trace_execution" (Toml.truth s.machine.traceExecution)

/-- Reads settings, which may also be given by arrays in the order in which they are written. -/
def ofToml? (text : String) : Option Settings := do read? .loose (← Toml.parse? text)

end StackCode.Settings
