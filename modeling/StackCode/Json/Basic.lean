/-! # JSON values

Documents as trees. A number that is written as an integer of 64 bits is an integer; any other
number keeps its text. Objects keep all their members in the order in which they were written.
-/

namespace StackCode

inductive Json where
  | null
  | bool (b : Bool)
  | int (n : Int)
  | real (text : String)
  | str (s : String)
  | arr (items : List Json)
  | obj (members : List (String × Json))
deriving Inhabited

namespace Json

/-- A value that stands strictly inside another one. -/
abbrev Part (j : Json) := { v : Json // sizeOf v < sizeOf j }

theorem sizeOf_item_lt {items : List Json} {v : Json} (h : v ∈ items) :
    sizeOf v < sizeOf (arr items) := by
  have := List.sizeOf_lt_of_mem h
  simp only [arr.sizeOf_spec]
  omega

theorem sizeOf_member_lt {members : List (String × Json)} {k : String} {v : Json}
    (h : (k, v) ∈ members) : sizeOf v < sizeOf (obj members) := by
  have := List.sizeOf_lt_of_mem h
  simp only [obj.sizeOf_spec]
  simp only [Prod.mk.sizeOf_spec] at this
  omega

def items? : (j : Json) → Option (List (Part j))
  | arr items => some (items.attach.map fun ⟨v, h⟩ => ⟨v, sizeOf_item_lt h⟩)
  | _ => none

/-- The value of a key that stands at most once among the members; the outer result is `none` when
the key is repeated. -/
def member? (members : List (String × Json)) (key : String) :
    Option (Option (Part (obj members))) :=
  match members.attach.filter (·.1.1 == key) with
  | [] => some none
  | [⟨(_, v), h⟩] => some (some ⟨v, sizeOf_member_lt h⟩)
  | _ => none

/-- How a record may be written, apart from being an object with its keys. -/
inductive RecordForm where
  /-- Not at all. -/
  | named
  /-- As an array of its values in the order of the keys. -/
  | listed
  /-- As such an array, in which more values may follow and are ignored. -/
  | loose
deriving DecidableEq, Repr

/-- Reads a value as a record with the given keys. An object gives the values of those keys and may
hold others. A key that is not given is `none`. -/
def record? (form : RecordForm) (keys : List String) : (j : Json) → Option (List (Option (Part j)))
  | obj members => keys.mapM (member? members)
  | arr items =>
    let given := items.attach.map fun ⟨v, h⟩ => some ⟨v, sizeOf_item_lt h⟩
    let values := given.take keys.length ++ List.replicate (keys.length - items.length) none
    match form with
    | .named => none
    | .listed => if items.length ≤ keys.length then some values else none
    | .loose => some values
  | _ => none

/-- Reads a value as one of several tagged alternatives: a bare tag, or an object whose only member
is the tag with its content. -/
def variant? : (j : Json) → Option (String × Option (Part j))
  | str tag => some (tag, none)
  | obj [(tag, v)] => some (tag, some ⟨v, sizeOf_member_lt (List.mem_singleton.2 rfl)⟩)
  | _ => none

mutual

/-- How many arrays and objects stand inside each other. -/
def depth : Json → Nat
  | arr items => depthOfItems items + 1
  | obj members => depthOfMembers members + 1
  | _ => 0

def depthOfItems : List Json → Nat
  | [] => 0
  | v :: items => max v.depth (depthOfItems items)

def depthOfMembers : List (String × Json) → Nat
  | [] => 0
  | (_, v) :: members => max v.depth (depthOfMembers members)

end

/-- Puts a member in front of others, unless one of them has its key. -/
def addMember (key : String) (v : Json) (members : List (String × Json)) : List (String × Json) :=
  if members.any (·.1 == key) then members else (key, v) :: members

mutual

/-- Of the members with one key, keeps the last, at any depth. -/
def keepLast : Json → Json
  | arr items => arr (keepLastOfItems items)
  | obj members => obj (keepLastOfMembers members)
  | j => j

def keepLastOfItems : List Json → List Json
  | [] => []
  | v :: items => v.keepLast :: keepLastOfItems items

def keepLastOfMembers : List (String × Json) → List (String × Json)
  | [] => []
  | (key, v) :: members => addMember key v.keepLast (keepLastOfMembers members)

end

def bool? : Json → Option Bool
  | bool b => some b
  | _ => none

def int? : Json → Option Int
  | int n => some n
  | _ => none

def str? : Json → Option String
  | str s => some s
  | _ => none

/-- An integer from zero up to, but not including, a bound. -/
def natBelow? (bound : Nat) (j : Json) : Option Nat := do
  let n ← j.int?
  if 0 ≤ n ∧ n < bound then some n.toNat else none

def nat64? : Json → Option Nat := natBelow? UInt64.size

def uint8? (j : Json) : Option UInt8 := (natBelow? UInt8.size j).map UInt8.ofNat

def uint16? (j : Json) : Option UInt16 := (natBelow? UInt16.size j).map UInt16.ofNat

def uint32? (j : Json) : Option UInt32 := (natBelow? UInt32.size j).map UInt32.ofNat

def int64? (j : Json) : Option Int64 := do
  let n ← j.int?
  if Int64.minValue.toInt ≤ n ∧ n ≤ Int64.maxValue.toInt then some (Int64.ofInt n) else none

end Json

end StackCode
