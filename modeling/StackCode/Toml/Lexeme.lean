import StackCode.Json.Parser
import StackCode.Toml.Printer

/-! # Words and texts of TOML

Readers of what a document is made of. Each takes what stands at the front of the text and gives it
with the text that follows. Lines end with a line feed.
-/

namespace StackCode.Toml

open Json (isDigit hexValue?)

def isBlank (c : Char) : Bool := c == ' ' || c == '\t'

def skipBlanks (cs : List Char) : List Char := cs.dropWhile isBlank

/-- Whether a character may stand in a text or a comment. -/
def isPlain (c : Char) : Bool := c == '\t' || !isControl c

/-- Skips blanks, line breaks and comments, of which one may have begun. -/
def skipLines (comment : Bool) : List Char → Option (List Char)
  | [] => some []
  | c :: cs =>
    if c == '\n' then skipLines false cs
    else if comment then if isPlain c then skipLines true cs else none
    else if isBlank c then skipLines false cs
    else if c == '#' then skipLines true cs
    else some (c :: cs)

/-- Skips what may stand behind a statement on its line. -/
def endLine (cs : List Char) : Option (List Char) :=
  match skipBlanks cs with
  | [] => some []
  | '\n' :: cs => some cs
  | '#' :: cs =>
    if (cs.takeWhile (· != '\n')).all isPlain then some (cs.dropWhile (· != '\n')) else none
  | _ => none

/-! ## Texts -/

def char? (n : Nat) : Option Char := if n.isValidChar then some (Char.ofNat n) else none

def hexNumber? (digits : List Char) : Option Nat :=
  digits.foldlM (fun n c => do return 16 * n + (← hexValue? c)) 0

def unescape? : Char → Option Char
  | 'b' => some '\x08'
  | 't' => some '\t'
  | 'n' => some '\n'
  | 'f' => some '\x0c'
  | 'r' => some '\r'
  | '"' => some '"'
  | '\\' => some '\\'
  | _ => none

/-- Reads a text on one line up to its closing double quote. -/
def readBasic (read : List Char) : List Char → Option (String × List Char)
  | [] => none
  | '"' :: rest => some (String.ofList read.reverse, rest)
  | '\\' :: 'u' :: a :: b :: c :: d :: rest => do
    let char ← char? (← hexNumber? [a, b, c, d])
    readBasic (char :: read) rest
  | '\\' :: 'U' :: a :: b :: c :: d :: e :: f :: g :: h :: rest => do
    let char ← char? (← hexNumber? [a, b, c, d, e, f, g, h])
    readBasic (char :: read) rest
  | '\\' :: c :: rest => do
    let char ← unescape? c
    readBasic (char :: read) rest
  | c :: rest => if isPlain c then readBasic (c :: read) rest else none

/-- Reads a text on one line up to its closing single quote. -/
def readLiteral (read : List Char) : List Char → Option (String × List Char)
  | [] => none
  | '\'' :: rest => some (String.ofList read.reverse, rest)
  | c :: rest => if isPlain c then readLiteral (c :: read) rest else none

/-- Ends a block behind three quotes. Up to two more belong to the text. -/
def closeBlock (q : Char) (read rest : List Char) : String × List Char :=
  let more := (rest.take maxBlockRun).takeWhile (· == q)
  (String.ofList (read.reverse ++ more), rest.drop more.length)

/-- Reads a block up to its closing double quotes. A backslash at the end of a line drops all blanks
and line breaks that follow; `folding` says that one was just read. -/
def readBasicBlock (folding : Bool) (read : List Char) : List Char → Option (String × List Char)
  | [] => none
  | '"' :: '"' :: '"' :: rest => some (closeBlock '"' read rest)
  | '\\' :: 'u' :: a :: b :: c :: d :: rest => do
    let char ← char? (← hexNumber? [a, b, c, d])
    readBasicBlock false (char :: read) rest
  | '\\' :: 'U' :: a :: b :: c :: d :: e :: f :: g :: h :: rest => do
    let char ← char? (← hexNumber? [a, b, c, d, e, f, g, h])
    readBasicBlock false (char :: read) rest
  | '\\' :: c :: rest =>
    if (skipBlanks (c :: rest)).head? == some '\n' then readBasicBlock true read rest
    else do
      let char ← unescape? c
      readBasicBlock false (char :: read) rest
  | c :: rest =>
    if folding && (isBlank c || c == '\n') then readBasicBlock true read rest
    else if isPlain c || c == '\n' then readBasicBlock false (c :: read) rest
    else none

/-- Reads a block up to its closing single quotes. -/
def readLiteralBlock (read : List Char) : List Char → Option (String × List Char)
  | [] => none
  | '\'' :: '\'' :: '\'' :: rest => some (closeBlock '\'' read rest)
  | c :: rest => if isPlain c || c == '\n' then readLiteralBlock (c :: read) rest else none

/-- A line break at the start of a block is no part of its text. -/
def skipBreak : List Char → List Char
  | '\n' :: rest => rest
  | cs => cs

def readText : List Char → Option (String × List Char)
  | '"' :: '"' :: '"' :: rest => readBasicBlock false [] (skipBreak rest)
  | '"' :: rest => readBasic [] rest
  | '\'' :: '\'' :: '\'' :: rest => readLiteralBlock [] (skipBreak rest)
  | '\'' :: rest => readLiteral [] rest
  | _ => none

/-! ## Keys -/

/-- Characters of keys that need no quotes. -/
def isBare (c : Char) : Bool :=
  isDigit c || ('a' ≤ c && c ≤ 'z') || ('A' ≤ c && c ≤ 'Z') || c == '_' || c == '-'

def readName : List Char → Option (String × List Char)
  | '"' :: rest => readBasic [] rest
  | '\'' :: rest => readLiteral [] rest
  | cs =>
    match cs.takeWhile isBare with
    | [] => none
    | name => some (String.ofList name, cs.dropWhile isBare)

/-- The parts of a key, which are divided by dots. The number bounds how many there are. -/
def readKey : Nat → List Char → Option (List String × List Char)
  | 0, _ => none
  | n + 1, cs => do
    let (name, rest) ← readName (skipBlanks cs)
    match skipBlanks rest with
    | '.' :: rest => do
      let (names, rest) ← readKey n rest
      return (name :: names, rest)
    | rest => return ([name], rest)

/-! ## Numbers -/

def digitValue? (base : Nat) (c : Char) : Option Nat := do
  let n ← hexValue? c
  if n < base then some n else none

/-- The number that digits write, of which two may be divided by an underscore. -/
def readDigits (base : Nat) (n : Nat) : List Char → Option Nat
  | [] => some n
  | '_' :: c :: rest => do
    let d ← digitValue? base c
    readDigits base (base * n + d) rest
  | c :: rest => do
    let d ← digitValue? base c
    readDigits base (base * n + d) rest

def number? (base : Nat) : List Char → Option Nat
  | [] => none
  | c :: rest => do
    let d ← digitValue? base c
    readDigits base d rest

/-- A decimal number, which has no zeros in front. -/
def decimal? : List Char → Option Nat
  | ['0'] => some 0
  | '0' :: _ => none
  | cs => number? 10 cs

def unsigned : List Char → List Char
  | '+' :: cs => cs
  | '-' :: cs => cs
  | cs => cs

def readInteger? (cs : List Char) : Option Int := do
  let n ← match cs with
    | '0' :: 'x' :: digits => (number? 16 digits).map Int.ofNat
    | '0' :: 'o' :: digits => (number? 8 digits).map Int.ofNat
    | '0' :: 'b' :: digits => (number? 2 digits).map Int.ofNat
    | '-' :: digits => (decimal? digits).map fun n => -(n : Int)
    | digits => (decimal? (unsigned digits)).map Int.ofNat
  if Int64.minValue.toInt ≤ n ∧ n ≤ Int64.maxValue.toInt then some n else none

def isExponentMark (c : Char) : Bool := c == 'e' || c == 'E'

/-- Whether characters write a number with a fraction or an exponent that is not too large. -/
def isReal (cs : List Char) : Bool :=
  let cs := unsigned cs
  let mantissa := cs.takeWhile (!isExponentMark ·)
  let whole := mantissa.takeWhile (· != '.')
  let fraction := (mantissa.dropWhile (· != '.')).drop 1
  let power := (cs.dropWhile (!isExponentMark ·)).drop 1
  let hasPoint := mantissa.contains '.'
  let hasPower := cs.any isExponentMark
  let exponent : Int := match power with
    | '-' :: digits => -(((number? 10 digits).getD 0 : Nat) : Int)
    | digits => (number? 10 (unsigned digits)).getD 0
  (hasPoint || hasPower) && (decimal? whole).isSome &&
    (!hasPoint || (number? 10 fraction).isSome) &&
    (!hasPower || (number? 10 (unsigned power)).isSome) &&
    Json.isFinite ((whole ++ fraction).filter isDigit)
      (exponent - (fraction.filter isDigit).length)

/-- Whether a character may stand in a number or a truth value. -/
def isWord (c : Char) : Bool := isBare c || c == '+' || c == '.'

def word? (cs : List Char) : Option Json :=
  if cs == "true".toList then some (.bool true)
  else if cs == "false".toList then some (.bool false)
  else
    match readInteger? cs with
    | some n => some (.int n)
    | none =>
      if isReal cs || ["inf".toList, "nan".toList].contains (unsigned cs) then
        some (.real (String.ofList cs))
      else none

end StackCode.Toml
