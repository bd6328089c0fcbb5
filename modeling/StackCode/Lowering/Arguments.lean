import StackCode.Diagnostic

/-! # Order of arguments

A labelled argument goes to the parameter of its name, and the others fill the remaining parameters
from left to right. Labels count only when the names of the parameters are known.
-/

namespace StackCode.Lowering

structure Labelled (α : Type) where
  label : Option String
  loc : Location
  value : α

namespace Labelled

variable {α : Type}

/-- Parameters that may have got their argument, and the problems met on the way. -/
structure Slots (α : Type) where
  slots : List (Option α)
  /-- The last one first. -/
  problems : List (Problem × Location) := []

/-- Gives a labelled argument to its parameter. -/
def give (callee : String) (params : List String) (s : Slots α) (arg : Labelled α) : Slots α :=
  match arg.label with
  | none => s
  | some label =>
    match params.findIdx? (· == label) with
    | none => { s with problems := (.unknownArgumentLabel callee label, arg.loc) :: s.problems }
    | some i =>
      match s.slots[i]? with
      | some none => { s with slots := s.slots.set i (some arg.value) }
      | _ => { s with problems := (.duplicateArgumentLabel callee label, arg.loc) :: s.problems }

/-- The contents of the slots, of which the empty ones take the values of a list in order. Slots
that stay empty are left out. -/
def fill : List (Option α) → List α → List α
  | [], _ => []
  | some a :: slots, rest => a :: fill slots rest
  | none :: slots, a :: rest => a :: fill slots rest
  | none :: slots, [] => fill slots []

def unlabelled (args : List (Labelled α)) : List α :=
  (args.filter (·.label.isNone)).map (·.value)

/-- The arguments in the order of the parameters, with the problems of their labels. -/
def place (callee : String) (params : List String) (args : List (Labelled α)) :
    List (Problem × Location) × List α :=
  let empty := List.replicate (max params.length args.length) none
  let given := args.foldl (give callee params) ⟨empty, []⟩
  (given.problems.reverse, fill given.slots (unlabelled args))

def arrange (callee : String) (params : Option (List String)) (args : List (Labelled α)) :
    List (Problem × Location) × List α :=
  match params with
  | some params =>
    if args.any (·.label.isSome) then place callee params args else ([], args.map (·.value))
  | none => ([], args.map (·.value))

end Labelled

end StackCode.Lowering
