import StackCode.Linking.Basic
import StackCode.Machine.Run

/-! # Sessions

Compiles a unit of source files and runs it once.
-/

namespace StackCode

namespace Machine

/-- A number of steps that no run takes. -/
def ample : Nat := 4611686018427387904

namespace Ending

def message? : Ending → Option String
  | value _ => none
  | trap t => some t.text
  | fault => some "an operation was used outside of its domain"
  | unfinished => some "the program takes too many steps"

end Ending

end Machine

inductive Session where
  /-- The unit was not compiled. -/
  | refused (problems : List Diagnostic)
  | ran (ending : Machine.Ending) (remains : Machine.Remains)

namespace Session

/-- Runs a module that was compiled without problems. -/
def ofLinked (l : Linked) (limits : Machine.Limits) : Session :=
  match Machine.Program.ofLinked? l limits with
  | some p =>
    let (ending, remains) := Machine.runOnce p Machine.ample
    .ran ending remains
  | none =>
    .ran (.trap { cause := .notExecutable l.name })
      ⟨{ maxBlockSlots := limits.maxBlockSlots }, 0, #[]⟩

def run (module : String) (files : List SourceFile) (limits : Machine.Limits) : Session :=
  match Linking.compile module files [] with
  | .ok l => ofLinked l limits
  | .error problems => .refused problems

def output : Session → List String
  | refused _ => []
  | ran _ remains => remains.output.toList

/-- The value, or the text of all that went wrong. -/
def result : Session → Except String Value
  | refused problems => .error (Text.join "\n" (problems.map Diagnostic.text))
  | ran (.value v) _ => .ok v
  | ran ending _ => .error (ending.message?.getD "")

def firstProblem (problems : List Diagnostic) : String :=
  "Compile error: " ++ ((problems.head?.map Diagnostic.text).getD "")

/-- The value, or the stage that failed with its first problem. -/
def value : Session → Except String Value
  | refused problems => .error (firstProblem problems)
  | ran (.value v) _ => .ok v
  | ran ending _ => .error ("Runtime error: " ++ ending.message?.getD "")

/-- The value of a session that has to give an integer. -/
def int (s : Session) : Except String Int64 := do
  match ← s.value with
  | .int n => return n
  | other => throw ("Expected int, got " ++ other.typeName)

/-- The trap of a session that has to end with one. -/
def trap : Session → Except String Trap
  | refused problems => .error (firstProblem problems)
  | ran (.trap t) _ => .ok t
  | ran (.value v) _ => .error ("Expected a trap, program returned " ++ v.text)
  | ran ending _ => .error (ending.message?.getD "")

end Session

end StackCode
