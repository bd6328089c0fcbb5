import StackCode.Json.Basic

/-! # Writing JSON

One line without blanks. Texts escape the quote, the backslash and control characters only.
-/

namespace StackCode.Json

def escapeChar (c : Char) : String :=
  if c == '"' then "\\\""
  else if c == '\\' then "\\\\"
  else if c == '\n' then "\\n"
  else if c == '\r' then "\\r"
  else if c == '\t' then "\\t"
  else if c.toNat < 0x20 then
    "\\u00" ++ String.ofList [Nat.digitChar (c.toNat / 16), Nat.digitChar (c.toNat % 16)]
  else c.toString

def escape (s : String) : String :=
  s.foldl (fun out c => out ++ escapeChar c) "\"" ++ "\""

mutual

/-- Appends the text of a value to what is already written. -/
def write (out : String) : Json → String
  | null => out ++ "null"
  | bool b => out ++ (if b then "true" else "false")
  | int n => out ++ toString n
  | real text => out ++ text
  | str s => out ++ escape s
  | arr [] => out ++ "[]"
  | arr (v :: rest) => writeItems (write (out ++ "[") v) rest ++ "]"
  | obj [] => out ++ "\x7b\x7d"
  | obj ((k, v) :: rest) =>
    writeMembers (write (out ++ "\x7b" ++ escape k ++ ":") v) rest ++ "\x7d"

def writeItems (out : String) : List Json → String
  | [] => out
  | v :: rest => writeItems (write (out ++ ",") v) rest

def writeMembers (out : String) : List (String × Json) → String
  | [] => out
  | (k, v) :: rest => writeMembers (write (out ++ "," ++ escape k ++ ":") v) rest

end

def render (j : Json) : String := write "" j

end StackCode.Json
