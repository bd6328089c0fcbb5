import StackCode.CommandLine.Elapsed
import StackCode.CommandLine.Response

/-! # The program

Reads the files that an invocation names, carries it out and shows the response.
-/

open StackCode CommandLine

def contentOf (path : String) : IO (Option String) := do
  try return some (← IO.FS.readFile path)
  catch _ => return none

def invoke (i : Invocation) : IO UInt32 := do
  let contents ← i.paths.mapM fun path => return (path, ← contentOf path)
  let start ← IO.monoNanosNow
  let response ← IO.lazyPure fun _ => i.respond fun path => (contents.lookup path).join
  match response with
  | .error complaint =>
    IO.eprintln ("error: " ++ complaint.message)
    return compileCode
  | .ok r =>
    IO.print r.out
    IO.eprint r.err
    if r.timed then
      IO.println ("elapsed: " ++ elapsedText ((← IO.monoNanosNow) - start))
    return r.code

def main (args : List String) : IO UInt32 := do
  match Request.ofArgs args with
  | .invocation i => invoke i
  | .help topic => do IO.print (helpText topic); return 0
  | .version => do IO.print versionText; return 0
  | .misuse => do IO.eprint usageText; return compileCode
