import StackCode.Text.Column

/-! # Elapsed times

A time with three places, in the largest unit of which it has at least one.
-/

namespace StackCode.CommandLine

def inUnit (nanos size : Nat) (unit : String) : String :=
  let thousandths := (nanos * 1000 + size / 2) / size
  toString (thousandths / 1000) ++ "." ++ Text.zeros 3 (thousandths % 1000) ++ unit

def elapsedText (nanos : Nat) : String :=
  if nanos ≥ 1000000000 then inUnit nanos 1000000000 "s"
  else if nanos ≥ 1000000 then inUnit nanos 1000000 "ms"
  else if nanos ≥ 1000 then inUnit nanos 1000 "µs"
  else inUnit nanos 1 "ns"

end StackCode.CommandLine
