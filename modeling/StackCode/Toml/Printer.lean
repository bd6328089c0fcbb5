import StackCode.Text.Column

/-! # Writing TOML

Settings are written as tables of keys with their values. A text is written in the first of four
forms that shows it without escapes, and with escapes if there is none.
-/

namespace StackCode.Toml

def isControl (c : Char) : Bool := c.toNat < 0x20 || c.toNat == 0x7f

/-- Control characters that stand for themselves in no form. -/
def needsCode (c : Char) : Bool := isControl c && c != '\t' && c != '\n'

/-- How a text is written: between double quotes with escapes, or between single quotes as it is,
and in either way on one line or on several. -/
inductive Form where
  | basic
  | literal
  | basicBlock
  | literalBlock
deriving DecidableEq, Repr

/-- The length of the longest run of a character, given the length of the run that was just read
and of the longest one before. -/
def longestRun (q : Char) (run longest : Nat) : List Char → Nat
  | [] => max run longest
  | c :: cs =>
    if c == q then longestRun q (run + 1) longest cs
    else longestRun q 0 (max run longest) cs

/-- Two quotes of its own kind may stand next to each other in a block. -/
def maxBlockRun : Nat := 2

def Form.ofText (cs : List Char) : Form :=
  let coded := cs.any needsCode
  let escaped := coded || cs.contains '\\'
  let multiline := cs.contains '\n'
  let singles := longestRun '\'' 0 0 cs
  let doubles := longestRun '"' 0 0 cs
  if !escaped && doubles == 0 && !multiline then .basic
  else if !coded && singles == 0 && !multiline then .literal
  else if !escaped && doubles ≤ maxBlockRun then .basicBlock
  else if !coded && singles ≤ maxBlockRun then .literalBlock
  else if multiline then .basicBlock
  else .basic

def escapeCode (c : Char) : String :=
  let n := c.toNat
  "\\u" ++ (Text.hexByte (UInt8.ofNat (n / 256)) ++ Text.hexByte (UInt8.ofNat n)).toUpper

/-- A character other than a quote between double quotes. -/
def escape (block : Bool) (c : Char) : String :=
  if c == '\n' then if block then "\n" else "\\n"
  else if c == '\x08' then "\\b"
  else if c == '\t' then "\\t"
  else if c == '\x0c' then "\\f"
  else if c == '\r' then "\\r"
  else if c == '\\' then "\\\\"
  else if isControl c then escapeCode c
  else String.singleton c

/-- A text between double quotes, after a run of quotes that were written as they are. -/
def escapeAll (block : Bool) (run : Nat) : List Char → List String
  | [] => []
  | c :: cs =>
    if c == '"' then
      if block && run < maxBlockRun then "\"" :: escapeAll block (run + 1) cs
      else "\\\"" :: escapeAll block 0 cs
    else escape block c :: escapeAll block 0 cs

/-- The written form of a text. A block with line breaks begins on a line of its own. -/
def quote (s : String) : String :=
  let cs := s.toList
  let start := if cs.contains '\n' then "\n" else ""
  match Form.ofText cs with
  | .basic => "\"" ++ String.join (escapeAll false 0 cs) ++ "\""
  | .literal => "'" ++ s ++ "'"
  | .basicBlock => "\"\"\"" ++ start ++ String.join (escapeAll true 0 cs) ++ "\"\"\""
  | .literalBlock => "'''" ++ start ++ s ++ "'''"

/-- The written form of an integer, which has 64 bits with a sign. -/
def integer? (n : Nat) : Option String :=
  if (n : Int) ≤ Int64.maxValue.toInt then some (toString n) else none

/-- A key with its written value, on a line of its own. -/
def entry (key value : String) : String := key ++ " = " ++ value ++ "\n"

def truth (b : Bool) : String := if b then "true" else "false"

end StackCode.Toml
