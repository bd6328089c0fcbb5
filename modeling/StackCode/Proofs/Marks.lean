import Mathlib.Data.List.Forall2
import Mathlib.Data.List.Induction
import StackCode.Proofs.Outlines

/-! # What the names in code stand for

The marks of code are those of its parts in order. They stay the same when the code is laid out and
when captures and symbols are added to those that it refers to.
-/

namespace StackCode

open Lowering

namespace Instruction

def isBinder (i : Instruction) : Bool := i.opcode == .defineLocal || i.opcode == .defineCell

theorem isBinder_eq_false {i : Instruction}
    (h : ∀ n, i.named? [] (fun _ => none) ≠ some (some (.bind n))) : i.isBinder = false := by
  obtain ⟨op, operand⟩ := i
  cases op
  case defineLocal | defineCell => exact absurd rfl (h operand)
  all_goals rfl

section Jumps

variable (captures : List (Array Capture)) (symbol? : UInt16 → Option Symbol) (d : Int16)

@[simp] theorem named?_jump : named? captures symbol? ⟨.jump, d⟩ = none := rfl

@[simp] theorem named?_jumpIfFalse : named? captures symbol? ⟨.jumpIfFalse, d⟩ = none := rfl

@[simp] theorem named?_loop : named? captures symbol? ⟨.loop, d⟩ = none := rfl

end Jumps

end Instruction

namespace Code

section Joins

variable {parts : List Code}

def joinOnto (rest : Code) (parts : List Code) : Code :=
  parts.foldl (fun rest part => part ++ rest) rest

theorem refused_joinOnto {rest : Code} :
    (joinOnto rest parts).Refused ↔ (∃ p ∈ parts, p.Refused) ∨ rest.Refused := by
  induction parts generalizing rest with
  | nil => simp [joinOnto]
  | cons p ps ih =>
    have hr : joinOnto rest (p :: ps) = joinOnto (p ++ rest) ps := rfl
    have ha : (p ++ rest).Refused ↔ p.Refused ∨ rest.Refused := Iff.rfl
    simp only [hr, ih, ha, List.mem_cons, exists_eq_or_imp]
    rw [or_left_comm, or_assoc]

theorem refused_joinReversed :
    (joinReversed parts).Refused ↔ ∃ p ∈ parts, p.Refused := by
  have h : joinReversed parts = joinOnto skip parts := rfl
  rw [h, refused_joinOnto]
  simp [Refused]

/-- What code does is what its parts do one after another. -/
structure Sequential {α : Type} (P : Code → α → α → Prop) : Prop where
  skip : ∀ k, P .skip k k
  left : ∀ {c k l m}, P .skip k l → P c l m → P c k m
  append : ∀ {c c' k m}, P (c ++ c') k m ↔ ∃ l, P c k l ∧ P c' l m

namespace Sequential

variable {α : Type} {P : Code → α → α → Prop} {k l m : α}

theorem joinOnto (h : Sequential P) {rest : Code} (hl : P (joinReversed parts) k l)
    (hm : P rest l m) : P (Code.joinOnto rest parts) k m := by
  induction parts using List.reverseRecOn generalizing k with
  | nil => exact h.left hl hm
  | append_singleton ps p ih =>
    rw [joinReversed, List.foldl_append] at hl
    obtain ⟨x, hp, hx⟩ := h.append.mp hl
    rw [Code.joinOnto, List.foldl_append]
    exact h.append.mpr ⟨x, hp, ih hx⟩

theorem snoc (h : Sequential P) {c : Code} (hl : P (joinReversed parts) k l) (hm : P c l m) :
    P (joinReversed (c :: parts)) k m := by
  change P (Code.joinOnto (c ++ .skip) parts) k m
  exact h.joinOnto hl (h.append.mpr ⟨m, hm, h.skip m⟩)

theorem join (h : Sequential P) (hp : ∀ c ∈ parts, P c k k) : P (Code.join parts) k k := by
  induction parts using List.reverseRecOn with
  | nil => exact h.skip k
  | append_singleton ps p ih =>
    rw [Code.join, List.reverse_append]
    exact h.snoc (ih fun c hc => hp c (List.mem_append_left _ hc))
      (hp p (List.mem_append_right _ (List.mem_singleton_self p)))

end Sequential

theorem sequential_moves {V : Instruction → Prop} {inLoop inArm : Bool} :
    Sequential (Moves V inLoop inArm) where
  skip _ := .skip
  left h h' := by
    cases h
    exact h'
  append := by
    intro c c' k m
    constructor
    · rintro (_ | ⟨h, h'⟩)
      exact ⟨_, h, h'⟩
    · rintro ⟨l, h, h'⟩
      exact .seq h h'

section

variable {α : Type} {A : Analysis α} {ex : Exits α} {k m : α}

theorem flows_skip : Flows A ex .skip k m ↔ A.covers k m := by
  constructor
  · intro h
    generalize hc : Code.skip = c at h
    induction h with
    | skip => exact A.refl _
    | weaken hk _ hm ih => exact A.trans _ _ _ hk (A.trans _ _ _ (ih hc) hm)
    | _ => cases hc
  · intro h
    exact .weaken h .skip (A.refl _)

theorem flows_append {c c' : Code} :
    Flows A ex (c ++ c') k m ↔ ∃ l, Flows A ex c k l ∧ Flows A ex c' l m := by
  constructor
  · intro h
    generalize hc : c ++ c' = code at h
    induction h with
    | seq h h' =>
      cases hc
      exact ⟨_, h, h'⟩
    | weaken hk _ hm ih =>
      obtain ⟨l, h, h'⟩ := ih hc
      exact ⟨l, .weaken hk h (A.refl _), .weaken (A.refl _) h' hm⟩
    | _ => cases hc
  · rintro ⟨l, h, h'⟩
    exact .seq h h'

theorem sequential_flows (A : Analysis α) (ex : Exits α) : Sequential (Flows A ex) where
  skip _ := .skip
  left h h' := .weaken (flows_skip.mp h) h' (A.refl _)
  append := flows_append

end

end Joins

/-- What is found in the instructions of code and in the slots that it binds, in order. -/
def gather {α : Type} (found : Instruction → List α) (bound : UInt8 → List α) : Code → List α
  | skip | report _ | leave _ | again _ | require _ => []
  | instr _ i => found i
  | bind _ slot => bound slot
  | when _ body => body.gather found bound
  | seq first rest | ite _ first rest | loop _ first rest | arm _ _ first rest =>
    first.gather found bound ++ rest.gather found bound

/-- What the names in code stand for, in order. Only a binding binds a slot. -/
def named (captures : List (Array Capture)) (symbol? : UInt16 → Option Symbol) :
    Code → List (Option Mark) :=
  gather (fun i => if i.isBinder then [none] else (i.named? captures symbol?).toList)
    fun slot => [some (.bind slot)]

/-- The symbols of what the code makes closures of, in order. -/
def closures (symbol? : UInt16 → Option Symbol) : Code → List (Option Symbol) :=
  gather (fun i => (i.made? symbol?).toList) fun _ => []

variable {captures : List (Array Capture)} {symbol? : UInt16 → Option Symbol} {cells : List UInt8}
  {t : Targets} {a : Nat} {code : Code}

@[simp] theorem named_append (c c' : Code) :
    (c ++ c').named captures symbol? = c.named captures symbol? ++ c'.named captures symbol? := rfl

section

variable {α : Type} {found : Instruction → List α} {bound : UInt8 → List α}

theorem sequential_gather : Sequential fun c (k m : List α) => m = k ++ c.gather found bound where
  skip k := (List.append_nil k).symm
  left h h' := by
    rw [h', h]
    simp [gather]
  append {c c' k m} := by
    have happend : (c ++ c').gather found bound = c.gather found bound ++ c'.gather found bound :=
      rfl
    simp [happend]

theorem gather_joinReversed_cons (c : Code) (parts : List Code) :
    (joinReversed (c :: parts)).gather found bound =
      (joinReversed parts).gather found bound ++ c.gather found bound :=
  (sequential_gather.snoc (k := []) rfl rfl).symm

end

theorem Moves.closures_eq_nil {space : Space} {c : Chunk Value} {inLoop inArm : Bool} {d e : Int}
    (h : Moves (Means space c []) inLoop inArm code d e) : code.closures symbol? = [] := by
  induction h with
  | @instr _ _ _ i _ hv =>
    obtain ⟨op, operand⟩ := i
    cases op
    case makeClosure =>
      obtain ⟨_, -, _, ht, -⟩ := hv
      cases ht
    all_goals rfl
  | skip | bind | leave | again | require => rfl
  | when _ _ ih => exact ih
  | seq _ _ ih ih' | ite _ _ _ ih ih' | loop _ _ ih ih' | arm _ _ ih ih' =>
    exact List.append_eq_nil_iff.mpr ⟨ih, ih'⟩

/-- Laying code out keeps the closures that it makes. -/
theorem filterMap_made?_placed :
    (code.placed cells t a).filterMap (·.2.made? symbol?) = code.closures symbol? := by
  induction code generalizing t a with
  | instr line i => cases h : i.made? symbol? <;> simp [placed, closures, gather, h]
  | bind line slot =>
    simp only [placed, binder]
    split <;> rfl
  | _ => simp_all [placed, closures, gather, Instruction.made?]

/-- Laying code out keeps what its names stand for. -/
theorem filterMap_placed (h : none ∉ code.named captures symbol?) :
    (code.placed cells t a).filterMap (·.2.named? captures symbol?) =
      code.named captures symbol? := by
  induction code generalizing t a with
  | skip | report | leave | again | require => rfl
  | seq first rest ih ih'
  | ite _ first rest ih ih'
  | loop _ first rest ih ih'
  | arm _ _ first rest ih ih' =>
    simp only [named, gather, List.mem_append, not_or] at h
    simp [placed, named, gather, List.filterMap_cons, ih h.1, ih' h.2]
  | when _ body ih => simpa [placed, named, gather, List.filterMap_cons] using ih h
  | instr line i =>
    simp only [named, gather] at h ⊢
    split at h
    · exact absurd List.mem_cons_self h
    · rename_i hi
      rw [if_neg hi, placed]
      cases hn : i.named? captures symbol? <;> simp [hn]
  | bind line slot =>
    simp only [placed, binder, named, gather]
    split <;> rfl

/-- A slot is bound as a cell exactly if it is among the cells. -/
theorem mem_cells_of_placed (h : none ∉ code.named captures symbol?) {x : Placed}
    (hx : x ∈ code.placed cells t a) (n : UInt8) :
    (x.2 = ⟨.defineLocal, n⟩ → n ∉ cells) ∧ (x.2 = ⟨.defineCell, n⟩ → n ∈ cells) := by
  have hjump : ∀ i : Instruction, i.isBinder = false →
      (i = ⟨.defineLocal, n⟩ → n ∉ cells) ∧ (i = ⟨.defineCell, n⟩ → n ∈ cells) := by
    intro i hi
    constructor <;> rintro rfl <;> cases hi
  induction code generalizing t a with
  | skip | report => cases hx
  | leave | again | require =>
    rw [List.mem_singleton.mp hx]
    exact hjump _ rfl
  | seq first rest ih ih'
  | ite _ first rest ih ih'
  | loop _ first rest ih ih'
  | arm _ _ first rest ih ih' =>
    simp only [named, gather, List.mem_append, not_or] at h
    simp only [placed, List.mem_append, List.mem_cons, List.not_mem_nil, or_false] at hx
    have hfirst := fun t a => ih h.1 (t := t) (a := a)
    have hrest := fun t a => ih' h.2 (t := t) (a := a)
    grind [Instruction.isBinder]
  | when _ body ih =>
    rcases List.mem_cons.mp hx with rfl | hx
    · exact hjump _ rfl
    · exact ih h hx
  | instr line i =>
    rw [List.mem_singleton.mp hx]
    refine hjump i ?_
    cases hi : i.isBinder with
    | false => rfl
    | true => simp [named, gather, hi] at h
  | bind line slot =>
    rw [List.mem_singleton.mp hx]
    simp only [binder, List.contains_eq_mem, decide_eq_true_eq]
    grind

end Code

namespace Lowering

/-! ## More captures -/

def Grown (a a' : Array Capture) : Prop := a.toList <+: a'.toList

namespace Grown

variable {a a' a'' : Array Capture}

theorem refl (a : Array Capture) : Grown a a := List.prefix_rfl

theorem trans (h : Grown a a') (h' : Grown a' a'') : Grown a a'' := List.IsPrefix.trans h h'

theorem push (a : Array Capture) (x : Capture) : Grown a (a.push x) := by
  rw [Grown, Array.toList_push]
  exact List.prefix_append _ _

theorem getElem? (h : Grown a a') {k : Nat} {x : Capture} (hx : a[k]? = some x) :
    a'[k]? = some x := by
  rw [← Array.getElem?_toList] at hx ⊢
  obtain ⟨rest, hrest⟩ := h
  rw [← hrest, List.getElem?_append_left (List.getElem?_eq_some_iff.mp hx).1]
  exact hx

theorem mem (h : Grown a a') {x : Capture} (hx : x ∈ a) : x ∈ a' :=
  Array.mem_def.mpr (h.subset (Array.mem_def.mp hx))

theorem refl_all (captures : List (Array Capture)) : List.Forall₂ Grown captures captures :=
  List.forall₂_same.mpr fun a _ => refl a

theorem trans_all {cs cs' cs'' : List (Array Capture)} (h : List.Forall₂ Grown cs cs')
    (h' : List.Forall₂ Grown cs' cs'') : List.Forall₂ Grown cs cs'' := by
  induction h generalizing cs'' with
  | nil => exact h'
  | cons ha _ ih =>
    cases h' with
    | cons ha' hs' => exact .cons (ha.trans ha') (ih hs')

end Grown

variable {cs cs' : List (Array Capture)} {n : UInt8} {space : Space} {loc : Location} {p' : Point}
  {part : Build Code} {walk : Point → Point}

theorem captured?_grown (h : List.Forall₂ Grown cs cs') {i : Nat} {x : Nat × UInt8}
    (hx : captured? cs i = some x) : captured? cs' i = some x := by
  induction h generalizing i x with
  | nil => exact hx
  | @cons a a' _ _ ha _ ih =>
    simp only [captured?] at hx ⊢
    cases hc : a[i]? with
    | none =>
      rw [hc] at hx
      cases hx
    | some capture =>
      obtain ⟨name, source⟩ := capture
      rw [hc] at hx
      rw [ha.getElem? hc]
      cases source with
      | slot n => exact hx
      | capture j =>
        obtain ⟨y, hy, hxy⟩ := Option.map_eq_some_iff.mp hx
        exact Option.map_eq_some_iff.mpr ⟨y, ih hy, hxy⟩

/-- With more captures and symbols, an instruction names what it named before. -/
theorem named?_grown {symbol? symbol?' : UInt16 → Option Symbol} (hc : List.Forall₂ Grown cs cs')
    (hs : ∀ n x, symbol? n = some x → symbol?' n = some x) (i : Instruction) :
    (i.named? cs symbol? = none → i.named? cs' symbol?' = none) ∧
      ∀ m, i.named? cs symbol? = some (some m) → i.named? cs' symbol?' = some (some m) := by
  have hcapture : ∀ (n : UInt8) (f : Nat × UInt8 → Mark) m,
      some ((captured? cs n.toNat).map f) = some (some m) →
        some ((captured? cs' n.toNat).map f) = some (some m) := by
    intro n f m hm
    obtain ⟨x, hx, rfl⟩ := Option.map_eq_some_iff.mp (Option.some.inj hm)
    rw [captured?_grown hc hx]
    rfl
  have hsymbol : ∀ n (f : Symbol → Mark) m, some ((symbol? n).map f) = some (some m) →
      some ((symbol?' n).map f) = some (some m) := by
    intro n f m hm
    obtain ⟨x, hx, rfl⟩ := Option.map_eq_some_iff.mp (Option.some.inj hm)
    rw [hs n x hx]
    rfl
  obtain ⟨op, operand⟩ := i
  cases op
  case getCapture | setCapture =>
    constructor
    · intro hm
      cases hm
    · exact hcapture operand _
  case getModuleFunction | getModuleValue | setModuleValue | getStruct | getBuiltin =>
    constructor
    · intro hm
      cases hm
    · exact hsymbol operand _
  all_goals exact ⟨id, fun _ => id⟩

theorem filterMap_grown {α β : Type} {f g : α → Option (Option β)} {l : List α} {ms : List β}
    (hfg : ∀ x, (f x = none → g x = none) ∧ ∀ m, f x = some (some m) → g x = some (some m))
    (h : l.filterMap f = ms.map some) : l.filterMap g = ms.map some := by
  induction l generalizing ms with
  | nil => exact h
  | cons x l ih =>
    cases hx : f x with
    | none =>
      rw [List.filterMap_cons_none hx] at h
      rw [List.filterMap_cons_none ((hfg x).1 hx)]
      exact ih h
    | some y =>
      rw [List.filterMap_cons_some hx] at h
      obtain ⟨m, ms', rfl, hy, hl⟩ := List.map_eq_cons_iff.mp h.symm
      rw [← hy] at hx
      rw [List.filterMap_cons_some ((hfg x).2 m hx), ih hl.symm]
      rfl

theorem Nest.Outlined.grown {t : Nest} {u : Outline} (h : t.Outlined cs u)
    (hc : List.Forall₂ Grown cs cs') : t.Outlined cs' u := by
  induction h generalizing cs' with
  | @node _ c _ _ _ named plain cell length _ ih =>
    have hcs := List.Forall₂.cons (Grown.refl c.captures) hc
    refine .node ?_ plain cell length fun k t u ht hu => ih k t u ht hu hcs
    exact filterMap_grown (fun x => named?_grown hcs (fun _ _ => id) x.2) named

end Lowering

end StackCode
