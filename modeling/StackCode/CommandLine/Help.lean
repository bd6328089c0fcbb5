import StackCode.CommandLine.Invocation
import StackCode.Text.Column

/-! # Help texts -/

namespace StackCode.CommandLine

def programName : String := "parley"

def version : String := "0.3.0"

def versionText : String := Text.lines [programName ++ " " ++ version]

def programHelp : String :=
  Text.lines
    ["The Parley bytecode compiler and virtual machine",
     "",
     "Usage: parley [OPTIONS] <COMMAND>",
     "",
     "Commands:",
     "  run     Compile and run a compilation unit",
     "  disasm  Compile a compilation unit and print the bytecode of every chunk",
     "  check   Compile a compilation unit and report diagnostics",
     "  help    Print this message or the help of the given subcommand(s)",
     "",
     "Options:",
     "  -v, --verbose...       Log more (-v debug, -vv trace); overrides PARLEY_LOG",
     "      --config <CONFIG>  Configuration file (defaults to ./parley.toml when present)",
     "      --module <MODULE>  Name of the compiled module",
     "  -h, --help             Print help",
     "  -V, --version          Print version"]

def runHelp : String :=
  Text.lines
    ["Compile and run a compilation unit",
     "",
     "Usage: parley run [OPTIONS] <FILES>...",
     "",
     "Arguments:",
     "  <FILES>...  Analyzed source files (JSON)",
     "",
     "Options:",
     "      --time                     Print the elapsed execution time",
     "  -v, --verbose...               Log more (-v debug, -vv trace); overrides PARLEY_LOG",
     "      --config <CONFIG>          Configuration file (defaults to ./parley.toml when present)",
     "      --max-frames <MAX_FRAMES>  Maximum call depth",
     "      --module <MODULE>          Name of the compiled module",
     "      --trace                    Trace every executed instruction (needs -vv)",
     "  -h, --help                     Print help"]

def plainHelp (about name : String) : String :=
  Text.lines
    [about, "", "Usage: parley " ++ name ++ " [OPTIONS] <FILES>...", "",
     "Arguments:",
     "  <FILES>...  Analyzed source files (JSON)",
     "",
     "Options:",
     "  -v, --verbose...       Log more (-v debug, -vv trace); overrides PARLEY_LOG",
     "      --config <CONFIG>  Configuration file (defaults to ./parley.toml when present)",
     "      --module <MODULE>  Name of the compiled module",
     "  -h, --help             Print help"]

def helpHelp : String :=
  Text.lines
    ["Print this message or the help of the given subcommand(s)",
     "",
     "Usage: parley help [COMMAND]...",
     "",
     "Arguments:",
     "  [COMMAND]...  Print help for the subcommand(s)"]

def helpText : Topic → String
  | .program => programHelp
  | .command .run => runHelp
  | .command .disasm =>
    plainHelp "Compile a compilation unit and print the bytecode of every chunk" "disasm"
  | .command .check => plainHelp "Compile a compilation unit and report diagnostics" "check"
  | .help => helpHelp

def usageText : String :=
  Text.lines ["Usage: parley [OPTIONS] <COMMAND>", "", "For more information, try '--help'."]

end StackCode.CommandLine
