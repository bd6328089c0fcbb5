import StackCode.Json.Basic

/-! # Reading the fields of records

Readers of record fields, by what may be left out. Each hands the value to a reader together with
the fact that it is smaller than the record, so that readers of nested data can call each other.
-/

namespace StackCode.Json

variable {α : Type} {j : Json}

def required (field : Option (Part j)) (read : (v : Json) → sizeOf v < sizeOf j → Option α) :
    Option α :=
  match field with
  | some ⟨v, h⟩ => read v h
  | none => none

def defaulted (field : Option (Part j)) (default : α)
    (read : (v : Json) → sizeOf v < sizeOf j → Option α) : Option α :=
  match field with
  | some ⟨v, h⟩ => read v h
  | none => some default

def nullable (v : Json) (h : sizeOf v < sizeOf j)
    (read : (v : Json) → sizeOf v < sizeOf j → Option α) : Option (Option α) :=
  match v with
  | null => some none
  | v => (read v h).map some

/-- A field that may be absent or `null`. -/
def optional (field : Option (Part j)) (read : (v : Json) → sizeOf v < sizeOf j → Option α) :
    Option (Option α) :=
  match field with
  | some ⟨null, _⟩ => some none
  | some ⟨v, h⟩ => (read v h).map some
  | none => some none

def list (j : Json) (read : (v : Json) → sizeOf v < sizeOf j → Option α) : Option (List α) :=
  match j.items? with
  | some items => items.mapM fun ⟨v, h⟩ => read v h
  | none => none

/-- The tag of an alternative without content, which may also be written with the content `null`. -/
def bareTag? : Json → Option String
  | str tag => some tag
  | obj [(tag, null)] => some tag
  | _ => none

def strings? (j : Json) : Option (List String) := j.list fun v _ => v.str?

end StackCode.Json
