import StackCode.Json.Basic

/-! # Reading JSON

A reader on characters. Each reader takes the value at the front of the text and gives it with the
text that follows; `parse?` accepts a text that is one value between blanks.
-/

namespace StackCode.Json

def isBlank (c : Char) : Bool := c == ' ' || c == '\n' || c == '\t' || c == '\r'

def skipBlanks (cs : List Char) : List Char := cs.dropWhile isBlank

def isDigit (c : Char) : Bool := '0' ≤ c && c ≤ '9'

def digitValue (c : Char) : Nat := c.toNat - '0'.toNat

def natOfDigits (digits : List Char) : Nat := digits.foldl (fun n c => 10 * n + digitValue c) 0

def hexValue? (c : Char) : Option Nat :=
  if isDigit c then some (digitValue c)
  else if 'a' ≤ c && c ≤ 'f' then some (c.toNat - 'a'.toNat + 10)
  else if 'A' ≤ c && c ≤ 'F' then some (c.toNat - 'A'.toNat + 10)
  else none

def codeUnit? (a b c d : Char) : Option Nat := do
  return (((← hexValue? a) * 16 + (← hexValue? b)) * 16 + (← hexValue? c)) * 16 + (← hexValue? d)

def escaped? : Char → Option Char
  | '"' => some '"'
  | '\\' => some '\\'
  | '/' => some '/'
  | 'b' => some '\x08'
  | 'f' => some '\x0c'
  | 'n' => some '\n'
  | 'r' => some '\r'
  | 't' => some '\t'
  | _ => none

/-- Reads the characters of a text up to its closing quote. An escaped character beyond the basic
plane is written as two code units, of which `high` is the first when it was just read. -/
def readText (high : Option Nat) (read : List Char) : List Char → Option (String × List Char)
  | [] => none
  | '"' :: rest =>
    match high with
    | none => some (String.ofList read.reverse, rest)
    | some _ => none
  | '\\' :: 'u' :: a :: b :: c :: d :: rest =>
    match codeUnit? a b c d, high with
    | none, _ => none
    | some n, none =>
      if 0xD800 ≤ n ∧ n < 0xDC00 then readText (some n) read rest
      else if 0xDC00 ≤ n ∧ n < 0xE000 then none
      else readText none (Char.ofNat n :: read) rest
    | some n, some h =>
      if 0xDC00 ≤ n ∧ n < 0xE000 then
        readText none (Char.ofNat (0x10000 + (h - 0xD800) * 0x400 + (n - 0xDC00)) :: read) rest
      else none
  | '\\' :: c :: rest =>
    match escaped? c, high with
    | some e, none => readText none (e :: read) rest
    | _, _ => none
  | c :: rest =>
    match high with
    | none => if c.toNat < 0x20 then none else readText none (c :: read) rest
    | some _ => none

/-- Whether `digits · 10 ^ exponent` is below the bound of the finite double-precision numbers. -/
def isFinite (digits : List Char) (exponent : Int) : Bool :=
  let significant := digits.dropWhile (· == '0')
  let magnitude := significant.length + exponent
  if significant.isEmpty || magnitude < 309 then true
  else if magnitude > 309 then false
  else
    let bound := Nat.pow 2 1024 - Nat.pow 2 970
    let n := natOfDigits significant
    if 0 ≤ exponent then n * Nat.pow 10 exponent.toNat < bound
    else n < bound * Nat.pow 10 exponent.natAbs

/-- Reads the whole part of a number, which has no needless leading zero. -/
def readWhole : List Char → Option (List Char × List Char)
  | '0' :: rest =>
    match rest with
    | c :: _ => if isDigit c then none else some (['0'], rest)
    | [] => some (['0'], rest)
  | c :: rest =>
    if isDigit c then some ((c :: rest).takeWhile isDigit, (c :: rest).dropWhile isDigit) else none
  | [] => none

/-- Reads a point with the digits behind it, if there is one. -/
def readFraction : List Char → Option (List Char × List Char)
  | '.' :: rest =>
    let digits := rest.takeWhile isDigit
    if digits.isEmpty then none else some (digits, rest.dropWhile isDigit)
  | cs => some ([], cs)

def readSignedDigits (negative : Bool) (cs : List Char) : Option (Option Int × List Char) :=
  let digits := cs.takeWhile isDigit
  if digits.isEmpty then none
  else
    let n : Int := natOfDigits digits
    some (some (if negative then -n else n), cs.dropWhile isDigit)

def readExponent : List Char → Option (Option Int × List Char)
  | c :: rest =>
    if c == 'e' || c == 'E' then
      match rest with
      | '-' :: rest => readSignedDigits true rest
      | '+' :: rest => readSignedDigits false rest
      | rest => readSignedDigits false rest
    else some (none, c :: rest)
  | [] => some (none, [])

def ofDigits (negative : Bool) (digits : List Char) : Json :=
  let n : Int := natOfDigits digits
  let text := (if negative then "-" else "") ++ String.ofList digits
  if negative then
    if n = 0 ∨ -n < Int64.minValue.toInt then real text else int (-n)
  else if n < UInt64.size then int n else real text

def readNumber (negative : Bool) (cs : List Char) : Option (Json × List Char) := do
  let (whole, afterWhole) ← readWhole cs
  let (fraction, afterFraction) ← readFraction afterWhole
  let (exponent, rest) ← readExponent afterFraction
  if isFinite (whole ++ fraction) (exponent.getD 0 - fraction.length) then
    if fraction.isEmpty && exponent.isNone then some (ofDigits negative whole, rest)
    else
      let text := String.ofList (cs.take (cs.length - rest.length))
      some (real ((if negative then "-" else "") ++ text), rest)
  else none

/-- Drops the given characters from the front of a text. -/
def expect? : List Char → List Char → Option (List Char)
  | [], cs => some cs
  | e :: es, c :: cs => if e == c then expect? es cs else none
  | _ :: _, [] => none

mutual

/-- Reads one value. The fuel bounds the depth of nesting plus the number of members. -/
def readValue : Nat → List Char → Option (Json × List Char)
  | 0, _ => none
  | fuel + 1, cs =>
    match skipBlanks cs with
    | 'n' :: rest => do return (null, ← expect? ['u', 'l', 'l'] rest)
    | 't' :: rest => do return (bool true, ← expect? ['r', 'u', 'e'] rest)
    | 'f' :: rest => do return (bool false, ← expect? ['a', 'l', 's', 'e'] rest)
    | '"' :: rest => do
      let (s, rest) ← readText none [] rest
      return (str s, rest)
    | '-' :: rest => readNumber true rest
    | '[' :: rest =>
      match skipBlanks rest with
      | ']' :: rest => some (arr [], rest)
      | rest => readItems fuel [] rest
    | '\x7b' :: rest =>
      match skipBlanks rest with
      | '\x7d' :: rest => some (obj [], rest)
      | rest => readMembers fuel [] rest
    | rest => readNumber false rest

def readItems : Nat → List Json → List Char → Option (Json × List Char)
  | 0, _, _ => none
  | fuel + 1, read, cs =>
    match readValue fuel cs with
    | none => none
    | some (v, rest) =>
      match skipBlanks rest with
      | ',' :: rest => readItems fuel (v :: read) rest
      | ']' :: rest => some (arr (v :: read).reverse, rest)
      | _ => none

def readMembers : Nat → List (String × Json) → List Char → Option (Json × List Char)
  | 0, _, _ => none
  | fuel + 1, read, cs =>
    match skipBlanks cs with
    | '"' :: rest =>
      match readText none [] rest with
      | none => none
      | some (key, rest) =>
        match skipBlanks rest with
        | ':' :: rest =>
          match readValue fuel rest with
          | none => none
          | some (v, rest) =>
            match skipBlanks rest with
            | ',' :: rest => readMembers fuel ((key, v) :: read) rest
            | '\x7d' :: rest => some (obj ((key, v) :: read).reverse, rest)
            | _ => none
        | _ => none
    | _ => none

end

def parse? (text : String) : Option Json :=
  let cs := text.toList
  match readValue (cs.length + 1) cs with
  | some (j, rest) => if (skipBlanks rest).isEmpty then some j else none
  | none => none

end StackCode.Json
