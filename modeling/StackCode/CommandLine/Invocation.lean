/-! # Invocations

What the arguments of the program ask for. Options for all commands may stand before or after the
name of the command; everything behind `--` is the name of a file.
-/

namespace StackCode.CommandLine

inductive Command where
  | run
  | disasm
  | check
deriving DecidableEq, Repr

namespace Command

def all : List Command := [run, disasm, check]

def name : Command → String
  | run => "run"
  | disasm => "disasm"
  | check => "check"

def ofName? (name : String) : Option Command := all.find? (·.name == name)

end Command

structure Invocation where
  command : Command
  files : List String
  config : Option String := none
  module : Option String := none
  verbosity : Nat := 0
  maxFrames : Option Nat := none
  time : Bool := false
  trace : Bool := false
deriving DecidableEq, Repr

inductive Topic where
  | program
  | command (c : Command)
  | help
deriving DecidableEq, Repr

inductive Request where
  | invocation (i : Invocation)
  | help (topic : Topic)
  | version
  | misuse
deriving DecidableEq, Repr

/-- The arguments that have been read so far. -/
structure Draft where
  command : Option Command := none
  /-- The last one first. -/
  files : List String := []
  config : Option String := none
  module : Option String := none
  verbosity : Nat := 0
  maxFrames : Option Nat := none
  time : Bool := false
  trace : Bool := false
  /-- The options that were given since the start or the name of the command, and may not be given
  again. -/
  given : List String := []

namespace Draft

def topic (d : Draft) : Topic :=
  match d.command with
  | some c => .command c
  | none => .program

def give (d : Draft) (name : String) : Except Request Draft :=
  if d.given.contains name then .error .misuse else .ok { d with given := name :: d.given }

/-- A number of 64 bits, which may have a plus sign. -/
def number? (s : String) : Option Nat :=
  let digits := match s.toList with
    | '+' :: rest => rest
    | cs => cs
  if digits.isEmpty || !digits.all Char.isDigit then none
  else
    let n := digits.foldl (fun n c => 10 * n + (c.toNat - '0'.toNat)) 0
    if n < UInt64.size then some n else none

def takesValue (d : Draft) (name : String) : Bool :=
  name == "config" || name == "module" || (name == "max-frames" && d.command == some .run)

def setOption (d : Draft) (name value : String) : Except Request Draft := do
  let d ← d.give name
  if name == "config" then
    if value.isEmpty then throw .misuse else return { d with config := some value }
  else if name == "module" then return { d with module := some value }
  else
    match number? value with
    | some n => return { d with maxFrames := some n }
    | none => throw .misuse

def setFlag (d : Draft) (name : String) : Except Request Draft :=
  match name with
  | "verbose" => .ok { d with verbosity := d.verbosity + 1 }
  | "help" => .error (.help d.topic)
  | "version" => .error (if d.command.isNone then .version else .misuse)
  | "time" =>
    if d.command == some .run then return { ← d.give name with time := true } else .error .misuse
  | "trace" =>
    if d.command == some .run then return { ← d.give name with trace := true } else .error .misuse
  | _ => .error .misuse

def setLetters (d : Draft) : List Char → Except Request Draft
  | [] => .ok d
  | 'v' :: rest => setLetters { d with verbosity := d.verbosity + 1 } rest
  | 'h' :: _ => .error (.help d.topic)
  | 'V' :: _ => .error (if d.command.isNone then .version else .misuse)
  | _ => .error .misuse

def addFile (d : Draft) (name : String) : Except Request Draft :=
  if name.isEmpty then .error .misuse else .ok { d with files := name :: d.files }

def finish (d : Draft) : Request :=
  match d.command, d.files.reverse with
  | some command, file :: files =>
    .invocation
      { command, files := file :: files, config := d.config, module := d.module,
        verbosity := d.verbosity, maxFrames := d.maxFrames, time := d.time, trace := d.trace }
  | _, _ => .misuse

def readFiles (d : Draft) : List String → Request
  | [] => d.finish
  | arg :: args =>
    match d.addFile arg with
    | .ok d => d.readFiles args
    | .error r => r

/-- Divides an option from the value that is attached to it. -/
def splitOption (arg : List Char) : String × Option String :=
  let name := arg.takeWhile (· != '=')
  match arg.dropWhile (· != '=') with
  | _ :: value => (String.ofList name, some (String.ofList value))
  | [] => (String.ofList name, none)

def isOption (arg : String) : Bool := arg.startsWith "-" && arg != "-"

def helpFor : List String → Request
  | [] => .help .program
  | ["help"] => .help .help
  | [name] =>
    match Command.ofName? name with
    | some command => .help (.command command)
    | none => .misuse
  | _ => .misuse

def read (d : Draft) : List String → Request
  | [] => d.finish
  | arg :: args =>
    let andThen (d : Except Request Draft) (next : Draft → Request) : Request :=
      match d with
      | .ok d => next d
      | .error r => r
    match arg.toList with
    | ['-', '-'] => if d.command.isSome then d.readFiles args else .misuse
    | '-' :: '-' :: option =>
      match splitOption option with
      | (name, some value) =>
        if d.takesValue name then andThen (d.setOption name value) (·.read args) else .misuse
      | (name, none) =>
        if d.takesValue name then
          match args with
          | value :: args =>
            if isOption value then .misuse else andThen (d.setOption name value) (·.read args)
          | [] => .misuse
        else andThen (d.setFlag name) (·.read args)
    | '-' :: c :: letters => andThen (d.setLetters (c :: letters)) (·.read args)
    | _ =>
      if d.command.isSome then andThen (d.addFile arg) (·.read args)
      else if arg == "help" then helpFor args
      else
        match Command.ofName? arg with
        | some command => { d with command := some command, given := [] }.read args
        | none => .misuse

end Draft

def Request.ofArgs (args : List String) : Request := ({} : Draft).read args

end StackCode.CommandLine
