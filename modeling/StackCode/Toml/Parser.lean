import StackCode.Toml.Lexeme

/-! # Reading TOML

A document is a sequence of headers of tables and of keys with their values, one on a line. Values
are numbers, truth values, texts, arrays and inline tables; dates are not read. A document stands
for the same tree as a JSON object.
-/

namespace StackCode.Toml

/-- Adds a value at a path of keys. A key that has a value takes no other one, and only a table has
values below it. -/
def put (value : Json) : List String → List (String × Json) → Option (List (String × Json))
  | [], _ => none
  | [key], members =>
    if members.any (·.1 == key) then none else some (members ++ [(key, value)])
  | key :: path, members =>
    match members.lookup key with
    | none => do return members ++ [(key, .obj (← put value path []))]
    | some (.obj inner) => do
      let inner ← put value path inner
      return members.map fun (k, v) => if k == key then (k, .obj inner) else (k, v)
    | some _ => none

mutual

/-- Reads a value. The number bounds how deeply values are nested and how many parts they have. -/
def readValue : Nat → List Char → Option (Json × List Char)
  | 0, _ => none
  | n + 1, '[' :: rest => readItems n [] rest
  | n + 1, '\x7b' :: rest =>
    match skipBlanks rest with
    | '\x7d' :: rest => some (.obj [], rest)
    | rest => readEntries n [] rest
  | _ + 1, cs =>
    if cs.head? == some '"' || cs.head? == some '\'' then do
      let (s, rest) ← readText cs
      return (.str s, rest)
    else do
      let value ← word? (cs.takeWhile isWord)
      return (value, cs.dropWhile isWord)

/-- Reads the items of an array up to its closing bracket. They may stand on several lines, and a
comma may follow the last one. -/
def readItems : Nat → List Json → List Char → Option (Json × List Char)
  | 0, _, _ => none
  | n + 1, items, cs => do
    match ← skipLines false cs with
    | ']' :: rest => return (.arr items.reverse, rest)
    | cs =>
      let (value, rest) ← readValue n cs
      match ← skipLines false rest with
      | ',' :: rest => readItems n (value :: items) rest
      | ']' :: rest => return (.arr (value :: items).reverse, rest)
      | _ => none

/-- Reads the entries of an inline table up to its closing brace. -/
def readEntries : Nat → List (String × Json) → List Char → Option (Json × List Char)
  | 0, _, _ => none
  | n + 1, members, cs => do
    let (key, rest) ← readKey cs.length cs
    let '=' :: rest := rest | none
    let (value, rest) ← readValue n (skipBlanks rest)
    let members ← put value key members
    match skipBlanks rest with
    | ',' :: rest => readEntries n members rest
    | '\x7d' :: rest => return (.obj members, rest)
    | _ => none

end

inductive Statement where
  | header (path : List String)
  | entry (key : List String) (value : Json)

def readStatement (cs : List Char) : Option (Statement × List Char) :=
  match cs with
  | '[' :: rest => do
    let (path, rest) ← readKey rest.length rest
    let ']' :: rest := rest | none
    return (.header path, ← endLine rest)
  | cs => do
    let (key, rest) ← readKey cs.length cs
    let '=' :: rest := rest | none
    let (value, rest) ← readValue rest.length (skipBlanks rest)
    return (.entry key value, ← endLine rest)

/-- A document that has been read up to some statement. -/
structure Document where
  members : List (String × Json) := []
  /-- The table to which entries are added. -/
  table : List String := []
  /-- The tables that had a header. -/
  headers : List (List String) := []
  /-- The tables that a key with dots made, to which no header may add. -/
  dotted : List (List String) := []
  /-- The tables that were written between braces, to which nothing may add. -/
  inline : List (List String) := []

namespace Document

/-- Makes sure that there is a table at a path. -/
def makeTable : List String → List (String × Json) → Option (List (String × Json))
  | [], members => some members
  | key :: path, members =>
    match members.lookup key with
    | none => do return members ++ [(key, .obj (← makeTable path []))]
    | some (.obj inner) => do
      let inner ← makeTable path inner
      return members.map fun (k, v) => if k == key then (k, .obj inner) else (k, v)
    | some _ => none

/-- The paths between a table and a key below it. -/
def between (table : List String) : List String → List (List String)
  | [] => []
  | [_] => []
  | key :: path => (table ++ [key]) :: between (table ++ [key]) path

def isTable : Json → Bool
  | .obj _ => true
  | _ => false

def add (d : Document) : Statement → Option Document
  | .header path => do
    if d.headers.contains path || (d.dotted ++ d.inline).any (·.isPrefixOf path) then none
    else
      return { d with members := ← makeTable path d.members, table := path,
                      headers := path :: d.headers }
  | .entry key value => do
    let dotted := between d.table key
    let full := d.table ++ key
    if dotted.any fun path => d.headers.contains path || d.inline.contains path then none
    else
      let members ← put value full d.members
      let inline := if isTable value then full :: d.inline else d.inline
      return { d with members, dotted := dotted ++ d.dotted, inline }

/-- Reads the statements of a document. The number bounds how many there are. -/
def read (d : Document) : Nat → List Char → Option Document
  | 0, _ => none
  | n + 1, cs => do
    match ← skipLines false cs with
    | [] => return d
    | cs =>
      let (statement, rest) ← readStatement cs
      (← d.add statement).read n rest

end Document

/-- Lets every line end with a line feed alone. -/
def unifyBreaks : List Char → List Char
  | '\r' :: '\n' :: cs => '\n' :: unifyBreaks cs
  | c :: cs => c :: unifyBreaks cs
  | [] => []

/-- A document may begin with a byte order mark, which is no part of its first line. -/
def skipMark : List Char → List Char
  | '\ufeff' :: cs => cs
  | cs => cs

def parse? (text : String) : Option Json := do
  let cs := unifyBreaks (skipMark text.toList)
  let d ← Document.read {} (cs.length + 1) cs
  return .obj d.members

end StackCode.Toml
