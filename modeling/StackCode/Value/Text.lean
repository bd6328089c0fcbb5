import StackCode.Text.Quoted
import StackCode.Value.Basic

/-! # The text of values

The form in which a value is printed, and the one that describes it with its kind.
-/

namespace StackCode.Value

mutual

def text : Value → String
  | none => "none"
  | int n => toString n.toInt
  | bool b => if b then "true" else "false"
  | string s => s
  | pointer p => "<pointer " ++ p.text ++ ">"
  | object ref => "<instance #" ++ toString ref.index ++ ">"
  | closure c => "<fn " ++ c.chunk.name ++ ">"
  | struct t => "<struct " ++ t.name ++ ">"
  | boundMethod _ m => "<method " ++ m.name ++ ">"
  | builtin b => "<builtin " ++ b.name ++ ">"
  | enumCase ⟨owner, name, _, _, values⟩ =>
    let case := owner.name ++ "." ++ name
    match values with
    | [] => case
    | v :: vs => case ++ "(" ++ Text.join ", " (v.text :: texts vs) ++ ")"

def texts : List Value → List String
  | [] => []
  | v :: vs => v.text :: texts vs

end

def description (v : Value) : String :=
  match v with
  | none => "None"
  | int n => "Int(" ++ toString n.toInt ++ ")"
  | bool b => "Bool(" ++ (if b then "true" else "false") ++ ")"
  | string s => "String(" ++ Text.quoted s ++ ")"
  | pointer p => "Pointer(" ++ p.text ++ ")"
  | object ref => "Instance(" ++ ref.text ++ ")"
  | closure c => "Closure(" ++ c.chunk.name ++ ")"
  | struct t => "Struct(" ++ t.name ++ ")"
  | boundMethod _ m => "BoundMethod(" ++ m.text ++ ")"
  | builtin b => "Builtin(" ++ b.name ++ ")"
  | enumCase _ => "EnumCase(" ++ v.text ++ ")"

end StackCode.Value
