import StackCode.Text.Column

/-! # Types

The type that an analysis has attached to an expression or a declaration. Types name the
parameters in the symbol of a function and lead from a receiver to its members; nothing else
depends on them.
-/

namespace StackCode

inductive Ty where
  | int
  | bool
  | string
  | pointer
  | none
  | any
  | function (params : List Ty) (returns : Ty)
  | struct (name : String)
  | enum (name : String)
  | array (element : Ty)
  | dictionary (key value : Ty)
deriving Repr

namespace Ty

instance : Inhabited Ty := ⟨.none⟩

mutual

def text : Ty → String
  | int => "int"
  | bool => "bool"
  | string => "string"
  | pointer => "pointer"
  | none => "none"
  | any => "any"
  | function params returns => "fn(" ++ Text.join ", " (texts params) ++ ") -> " ++ returns.text
  | struct name => name
  | enum name => name
  | array element => "Array<" ++ element.text ++ ">"
  | dictionary key value => "Dictionary<" ++ key.text ++ ", " ++ value.text ++ ">"

def texts : List Ty → List String
  | [] => []
  | t :: ts => t.text :: texts ts

end

mutual

def beq : Ty → Ty → Bool
  | int, int => true
  | bool, bool => true
  | string, string => true
  | pointer, pointer => true
  | none, none => true
  | any, any => true
  | function ps r, function ps' r' => beqs ps ps' && r.beq r'
  | struct name, struct name' => name == name'
  | enum name, enum name' => name == name'
  | array t, array t' => t.beq t'
  | dictionary k v, dictionary k' v' => k.beq k' && v.beq v'
  | _, _ => false

def beqs : List Ty → List Ty → Bool
  | [], [] => true
  | t :: ts, t' :: ts' => t.beq t' && beqs ts ts'
  | _, _ => false

end

mutual

theorem eq_of_beq : ∀ {a b : Ty}, a.beq b = true → a = b
  | int, b, h | bool, b, h | string, b, h | pointer, b, h | none, b, h | any, b, h => by
    cases b <;> simp_all [beq]
  | function ps r, b, h => by
    cases b <;> simp only [beq, Bool.and_eq_true, Bool.false_eq_true] at h
    rw [eq_of_beqs h.1, eq_of_beq h.2]
  | struct name, b, h | enum name, b, h => by cases b <;> simp_all [beq]
  | array t, b, h => by
    cases b <;> simp only [beq, Bool.false_eq_true] at h
    rw [eq_of_beq h]
  | dictionary k v, b, h => by
    cases b <;> simp only [beq, Bool.and_eq_true, Bool.false_eq_true] at h
    rw [eq_of_beq h.1, eq_of_beq h.2]

theorem eq_of_beqs : ∀ {as bs : List Ty}, beqs as bs = true → as = bs
  | [], bs, h => by cases bs <;> simp_all [beqs]
  | a :: as, bs, h => by
    cases bs <;> simp only [beqs, Bool.and_eq_true, Bool.false_eq_true] at h
    rw [eq_of_beq h.1, eq_of_beqs h.2]

end

mutual

theorem beq_self : ∀ a : Ty, a.beq a = true
  | int | bool | string | pointer | none | any => by simp [beq]
  | function ps r => by simp [beq, beqs_self ps, beq_self r]
  | struct name | enum name => by simp [beq]
  | array t => by simp [beq, beq_self t]
  | dictionary k v => by simp [beq, beq_self k, beq_self v]

theorem beqs_self : ∀ as : List Ty, beqs as as = true
  | [] => by simp [beqs]
  | a :: as => by simp [beqs, beq_self a, beqs_self as]

end

instance : DecidableEq Ty := fun a b =>
  if h : a.beq b = true then .isTrue (eq_of_beq h)
  else .isFalse fun e => h (e ▸ beq_self a)

end Ty

end StackCode
