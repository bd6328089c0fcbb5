import StackCode.Chunk.Listing
import StackCode.CommandLine.Help
import StackCode.Json.Parser
import StackCode.Session
import StackCode.Settings.Toml
import StackCode.Syntax.Reader

/-! # Responses

What the program answers to an invocation, given the contents of the files that it reads.
-/

namespace StackCode.CommandLine

inductive Complaint where
  | unreadableSource (path : String)
  | malformedSource (path : String)
  | unreadableSettings (path : String)
  | malformedSettings (path : String)
deriving DecidableEq, Repr

namespace Complaint

def message : Complaint → String
  | unreadableSource path => "Failed to read '" ++ path ++ "'"
  | malformedSource path => "'" ++ path ++ "' is not an analyzed source file"
  | unreadableSettings path => "failed to read " ++ path
  | malformedSettings path => "invalid configuration in " ++ path

end Complaint

structure Response where
  code : UInt32 := 0
  out : String := ""
  err : String := ""
  /-- Whether the time of the run is to be shown behind the regular output. -/
  timed : Bool := false

def trapCode : UInt32 := 1

def compileCode : UInt32 := 2

/-- The exit code of a program that used an operation outside of its domain. -/
def faultCode : UInt32 := 101

def settingsFile : String := "parley.toml"

namespace Invocation

def settingsPath (i : Invocation) : String := i.config.getD settingsFile

def paths (i : Invocation) : List String := i.settingsPath :: i.files

variable (content : String → Option String)

/-- The settings of the project, which need not have any, or those of the named file. -/
def loadSettings (i : Invocation) : Except Complaint Settings :=
  match content i.settingsPath with
  | none => if i.config.isSome then .error (.unreadableSettings i.settingsPath) else .ok {}
  | some text =>
    match Settings.ofToml? text with
    | some s => .ok s
    | none => .error (.malformedSettings i.settingsPath)

/-- The settings with the changes that the invocation asks for. -/
def settings (i : Invocation) : Except Complaint Settings := do
  let s ← i.loadSettings content
  let compiler := { s.compiler with moduleName := i.module.getD s.compiler.moduleName }
  let machine :=
    { s.machine with
      maxFrames := i.maxFrames.getD s.machine.maxFrames
      traceExecution := i.trace || s.machine.traceExecution }
  return { compiler, machine }

/-- How deeply arrays and objects may be nested in a file. -/
def maxNesting : Nat := 127

/-- A file holds one source file or a list of them. The fields of an alternative may be written as
an array. -/
def sourcesOf? (text : String) : Option (List SourceFile) := do
  let j ← Json.parse? text
  if maxNesting < j.depth then none
  match SourceFile.read? .listed j with
  | some file => return [file]
  | none => j.list fun v _ => SourceFile.read? .listed v

def loadSource (path : String) : Except Complaint (List SourceFile) :=
  match content path with
  | none => .error (.unreadableSource path)
  | some text =>
    match sourcesOf? text with
    | some files => .ok files
    | none => .error (.malformedSource path)

/-- The unit that all files of the invocation make. -/
def unit (i : Invocation) : Except Complaint (List SourceFile) := do
  return (← i.files.mapM (loadSource content)).flatten

end Invocation

namespace Response

def refuse (module : String) (problems : List Diagnostic) : Response :=
  let plural := if problems.length == 1 then "" else "s"
  let total := toString problems.length ++ " error" ++ plural ++ " in module '" ++ module ++ "'"
  { code := compileCode, err := Text.lines (problems.map ("error: " ++ ·.text) ++ [total]) }

def exitCode : Machine.Ending → UInt32
  | .value _ => 0
  | .fault => faultCode
  | .trap _ | .unfinished => trapCode

/-- Shows what a program printed and its value, or why it has none. -/
def ofSession (time : Bool) (module : String) (s : Session) : Response :=
  match s with
  | .refused problems => refuse module problems
  | .ran (.value v) _ => { out := Text.lines (s.output ++ [v.text]), timed := time }
  | .ran ending _ =>
    { code := exitCode ending, out := Text.lines s.output,
      err := Text.lines ["runtime error: " ++ ending.message?.getD ""] }

def disassembly (m : Module) : Response :=
  let chunks := m.chunks.values ++ m.initializers.values
  let sorted := chunks.mergeSort fun a b => a.name ≤ b.name
  { out := Text.lines (sorted.map Chunk.listing) }

def census (m : Module) : Response :=
  { out := Text.lines ["ok: module '" ++ m.name ++ "', " ++ toString m.chunks.size ++ " chunks, " ++
      toString m.initializers.size ++ " values"] }

def ofModule (module : String) (files : List SourceFile) (response : Module → Response) :
    Response :=
  match Linking.compile module files [] with
  | .ok l => response l.module
  | .error problems => refuse module problems

end Response

/-- Carries out an invocation, given the contents of files. -/
def Invocation.respond (i : Invocation) (content : String → Option String) :
    Except Complaint Response := do
  let s ← i.settings content
  let files ← i.unit content
  let module := s.compiler.moduleName
  match i.command with
  | .run => return .ofSession i.time module (.run module files s.machine.toLimits)
  | .disasm => return .ofModule module files Response.disassembly
  | .check => return .ofModule module files Response.census

end StackCode.CommandLine
