import StackCode.Machine.Step
import StackCode.Proofs.Execution

/-! # Renaming cells

Values that differ in nothing but the cells of the functions in them. A relation says which cell
stands for which. No operation on values tells such values apart.
-/

namespace StackCode

/-! ## Values -/

def Chunk.Unclosed (c : Chunk Value) : Prop :=
  ∀ v ∈ c.constants, v.Throughout fun v => ∀ f, v ≠ .closure f

structure Closure.Alike (R : Handle → Handle → Prop) (c c' : Closure Value) : Prop where
  id : c'.id = c.id
  chunk : c'.chunk = c.chunk
  unclosed : c.chunk.Unclosed
  cells : Pointwise R c.cells c'.cells

namespace Value

/-- Neither a function nor a case, which may have functions in it. -/
def Simple : Value → Prop
  | .closure _ | .enumCase _ => False
  | _ => True

/-- The same value, but the functions in it may have other cells. -/
inductive Alike (R : Handle → Handle → Prop) : Value → Value → Prop where
  | same {v : Value} (h : v.Simple) : Alike R v v
  | closure {c c' : Closure Value} (h : c.Alike R c') : Alike R (.closure c) (.closure c')
  | enumCase {owner : Symbol} {name : String} {index : UInt32} {arity : UInt8}
    {values values' : List Value} (h : List.Forall₂ (Alike R) values values') :
    Alike R (.enumCase ⟨owner, name, index, arity, values⟩)
      (.enumCase ⟨owner, name, index, arity, values'⟩)

variable {R R' : Handle → Handle → Prop} {v v' w w' : Value}

/-- Induction over alike values, where what is to be shown of a case holds of the values in it. -/
theorem Alike.induct {motive : Value → Value → Prop} (same : ∀ v : Value, v.Simple → motive v v)
    (closure : ∀ c c' : Closure Value, c.Alike R c' → motive (.closure c) (.closure c'))
    (enumCase : ∀ owner name index arity values values', List.Forall₂ motive values values' →
      motive (.enumCase ⟨owner, name, index, arity, values⟩)
        (.enumCase ⟨owner, name, index, arity, values'⟩))
    (h : Alike R v v') : motive v v' :=
  @Alike.rec R (fun v v' _ => motive v v') (fun vs vs' _ => List.Forall₂ motive vs vs')
    (same _) (closure _ _) (fun _ ih => enumCase _ _ _ _ _ _ ih) .nil
    (fun _ _ h hs => .cons h hs) v v' h

theorem Alike.mono (hR : ∀ c c', R c c' → R' c c') (h : Alike R v v') : Alike R' v v' :=
  h.induct (fun _ hv => .same hv) (fun _ _ h => .closure { h with cells := h.cells.mono hR })
    fun _ _ _ _ _ _ ih => .enumCase ih

/-- A value without functions is like itself. -/
theorem alike_self : (v : Value) → v.Throughout (fun v => ∀ f, v ≠ .closure f) → Alike R v v
  | .closure c, h => absurd rfl (h c)
  | .enumCase ⟨_, _, _, _, values⟩, h => .enumCase (alike_selfs values h)
  | .none, _ | .int _, _ | .bool _, _ | .string _, _ | .pointer _, _ | .object _, _
  | .struct _, _ | .boundMethod .., _ | .builtin _, _ => .same trivial
where
  alike_selfs : (vs : List Value) → ThroughoutAll (fun v => ∀ f, v ≠ .closure f) vs →
      List.Forall₂ (Alike R) vs vs
    | [], _ => .nil
    | v :: vs, h => .cons (alike_self v h.1) (alike_selfs vs h.2)

/-! ### What does not see cells -/

namespace Alike

theorem isTruthy_eq (h : Alike R v v') : v'.isTruthy = v.isTruthy := by
  cases h <;> rfl

theorem text_eq (h : Alike R v v') : v'.text = v.text := by
  refine h.induct (motive := fun v v' => v'.text = v.text) ?same ?closure ?enumCase
  case same => exact fun _ _ => rfl
  case closure =>
    intro c c' h
    exact congrArg (fun c : Chunk Value => "<fn " ++ c.name ++ ">") h.chunk
  case enumCase =>
    intro owner name index arity values values' ih
    have htexts : texts values' = texts values := by
      induction ih with
      | nil => rfl
      | cons h _ ih => exact congrArg₂ List.cons h ih
    cases ih with
    | nil => rfl
    | cons _ _ =>
      exact congrArg (owner.name ++ "." ++ name ++ "(" ++ Text.join ", " · ++ ")") htexts

theorem bytes_eq (h : Alike R v v') : v'.bytes = v.bytes := by
  refine h.induct (motive := fun v v' => v'.bytes = v.bytes) ?same ?closure ?enumCase
  case same => exact fun _ _ => rfl
  case closure => exact fun _ _ _ => rfl
  case enumCase =>
    intro owner name index arity values values' ih
    have hhashes : hashesOf values' = hashesOf values := by
      induction ih with
      | nil => rfl
      | cons h _ ih => rw [hashesOf, hashesOf, h, ih]
    rw [bytes, bytes, hhashes]

theorem hash_eq (h : Alike R v v') : v'.hash = v.hash := by
  rw [hash, hash, h.bytes_eq]

theorem beq_eq (h : Alike R v v') : ∀ {w w' : Value}, Alike R w w' → v'.beq w' = v.beq w := by
  refine h.induct (motive := fun v v' => ∀ {w w'}, Alike R w w' → v'.beq w' = v.beq w) ?same
    ?closure ?enumCase
  case same =>
    intro v hv w w' hw
    cases hw with
    | same => rfl
    | closure _ | enumCase _ => cases v <;> first | rfl | cases hv
  case closure =>
    intro c c' h w w' hw
    cases hw with
    | @same w hw => cases w <;> first | rfl | cases hw
    | closure hw => rw [beq, beq, h.id, hw.id]
    | enumCase _ => rfl
  case enumCase =>
    intro owner name index arity values values' ih w w' hw
    cases hw with
    | @same w hw => cases w <;> first | rfl | cases hw
    | closure _ => rfl
    | @enumCase _ _ _ _ ws ws' hws =>
      have hall : beqs values' ws' = beqs values ws := by
        clear owner name index arity
        induction ih generalizing ws ws' with
        | nil => cases hws <;> rfl
        | cons h _ ih =>
          cases hws with
          | nil => rfl
          | cons hw hws => rw [beqs, beqs, h hw, ih hws]
      rw [beq, beq, hall]

theorem binary_eq (op : Arithmetic.Operation) (h : Alike R v v') (hw : Alike R w w') :
    Arithmetic.binary op v' w' = Arithmetic.binary op v w := by
  cases h with
  | @same v hv =>
    cases hw with
    | same => rfl
    | closure _ | enumCase _ => cases v <;> rfl
  | closure _ | enumCase _ => cases hw <;> cases op <;> rfl

theorem negate_eq (h : Alike R v v') : Arithmetic.negate v' = Arithmetic.negate v := by
  cases h <;> rfl

end Alike

theorem alike_of_data (v : Value) (h : v.Data) : Alike R v v := by
  cases v with
  | closure _ | struct _ | boundMethod _ _ | enumCase _ => cases h
  | _ => exact .same trivial

theorem Alike.similar (h : Alike R v v') : v.Similar v' := by
  cases h with
  | same => exact .same _
  | closure => exact .closure _ _
  | enumCase => exact .enumCase _ _

/-! ## Renaming by a function -/

mutual

def rename (ρ : Handle → Handle) : Value → Value
  | .closure ⟨id, chunk, cells⟩ => .closure ⟨id, chunk, cells.map ρ⟩
  | .enumCase ⟨owner, name, index, arity, values⟩ =>
    .enumCase ⟨owner, name, index, arity, renameAll ρ values⟩
  | v => v

def renameAll (ρ : Handle → Handle) : List Value → List Value
  | [] => []
  | v :: vs => v.rename ρ :: renameAll ρ vs

end

theorem Alike.eq_rename {ρ : Handle → Handle} (hρ : ∀ c c', R c c' → c' = ρ c)
    (h : Alike R v v') : v' = v.rename ρ := by
  refine h.induct (motive := fun v v' => v' = v.rename ρ) ?same ?closure ?enumCase
  case same =>
    intro v hv
    cases v with
    | closure _ | enumCase _ => cases hv
    | _ => rfl
  case closure =>
    rintro ⟨id, chunk, cells⟩ ⟨id', chunk', cells'⟩ ⟨hid, hchunk, _, hcells⟩
    obtain rfl : id' = id := hid
    obtain rfl : chunk' = chunk := hchunk
    have hmap : cells' = cells.map ρ := eq_map_of_pointwise hcells hρ
    rw [rename, hmap]
  case enumCase =>
    intro owner name index arity values values' ih
    have hall : values' = renameAll ρ values := by
      induction ih with
      | nil => rfl
      | cons h _ ih => rw [renameAll, ← h, ← ih]
    rw [rename, ← hall]

end Value

/-- Heaps with alike values, and with the cells and the limit of the given ones. -/
def Comparison.renaming (R : Handle → Handle → Prop) (h h' : Heap) : Comparison where
  closed := False
  value := Value.Alike R
  cells a a' := a = h.cells ∧ a' = h'.cells
  limit := h.maxBlockSlots
  data := Value.alike_of_data
  similar := Value.Alike.similar
  beq h hw := h.beq_eq hw
  text := Value.Alike.text_eq
  hash := Value.Alike.hash_eq

end StackCode
