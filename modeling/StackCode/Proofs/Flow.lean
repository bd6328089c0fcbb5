import StackCode.Proofs.Distances
import StackCode.Proofs.Placement
import StackCode.Proofs.Verification

/-! # Analyses along the paths of code

An analysis says what has to be known before an instruction and what is known behind it. It flows
through code along every path. Laid out within the limit on distances, such code lets every
instruction be visited with something known, which all its successors can rely on.
-/

namespace StackCode

namespace Chunk

variable {n : Nat}

theorem target?_jumpIfFalse (o : Nat) (h : n ≤ maxDistance) :
    target? o ⟨.jumpIfFalse, Code.forward n⟩ = some (o + 3 + n) := by
  simp only [target?, Instruction.distance?, Option.map_some, Code.forward_toInt h,
    Instruction.size_jumpIfFalse, Option.some.injEq]
  omega

theorem target?_jump (o : Nat) (h : n ≤ maxDistance) :
    target? o ⟨.jump, Code.forward n⟩ = some (o + 3 + n) := by
  simp only [target?, Instruction.distance?, Option.map_some, Code.forward_toInt h,
    Instruction.size_jump, Option.some.injEq]
  omega

theorem target?_loop (o : Nat) (h : n ≤ maxDistance) (hn : n ≤ o + 3) :
    target? o ⟨.loop, Code.backward n⟩ = some (o + 3 - n) := by
  simp only [target?, Instruction.distance?, Option.map_some, Code.backward_toInt h,
    Instruction.size_loop, Option.some.injEq]
  omega

end Chunk

theorem Instruction.opcode_ne_of_distance? (i : Instruction) (h : i.distance? = none) :
    i.opcode ≠ .jumpIfFalse ∧ i.opcode ≠ .jump ∧ i.opcode ≠ .loop := by
  obtain ⟨op, operand⟩ := i
  cases op <;> simp [distance?] at h ⊢

namespace Code

/-- What is known around single instructions. A test is known to have passed behind it and to have
failed where it jumps to. -/
structure Analysis (α : Type) where
  /-- The first may be forgotten down to the second. -/
  covers : α → α → Prop
  runs : Instruction → α → α → Prop
  binds : UInt8 → α → α → Prop
  tests : α → α → α → Prop
  jumps : α → Prop
  refl : ∀ k, covers k k
  trans : ∀ k l m, covers k l → covers l m → covers k m

/-- What is expected where the jumps out of code lead: at the start and behind the end of the loop
around it, and behind the attempt around it. -/
structure Exits (α : Type) where
  loop : Option (α × α) := none
  fail : Option α := none

variable {α : Type}

/-- On every path through the code, what is known before it becomes what is known behind it. -/
inductive Flows (A : Analysis α) : Exits α → Code → α → α → Prop where
  | skip {ex : Exits α} {k : α} : Flows A ex .skip k k
  | seq {ex : Exits α} {first rest : Code} {k l m : α} (h : Flows A ex first k l)
      (h' : Flows A ex rest l m) : Flows A ex (.seq first rest) k m
  | instr {ex : Exits α} {line : UInt32} {i : Instruction} {k m : α} (h : A.runs i k m)
      (hj : i.distance? = none) : Flows A ex (.instr line i) k m
  | bind {ex : Exits α} {line : UInt32} {slot : UInt8} {k m : α} (h : A.binds slot k m) :
      Flows A ex (.bind line slot) k m
  | ite {ex : Exits α} {loc : Location} {yes no : Code} {k l l' m : α} (ht : A.tests k l l')
      (h : Flows A ex yes l m) (h' : Flows A ex no l' m) (hj : A.jumps m) :
      Flows A ex (.ite loc yes no) k m
  | when {ex : Exits α} {loc : Location} {body : Code} {k l m : α} (ht : A.tests k l m)
      (h : Flows A ex body l m) : Flows A ex (.when loc body) k m
  | loop {ex : Exits α} {loc : Location} {cond body : Code} {k l l' m : α}
      (h : Flows A { ex with loop := none } cond k l) (ht : A.tests l l' m)
      (h' : Flows A { ex with loop := some (k, m) } body l' k) (hj : A.jumps k) :
      Flows A ex (.loop loc cond body) k m
  | leave {ex : Exits α} {line : UInt32} {start k m : α} (he : ex.loop = some (start, k))
      (hj : A.jumps k) : Flows A ex (.leave line) k m
  | again {ex : Exits α} {loc : Location} {stop k m : α} (he : ex.loop = some (k, stop))
      (hj : A.jumps k) : Flows A ex (.again loc) k m
  | arm {ex : Exits α} {loc armLoc : Location} {attempt rest : Code} {k l m : α}
      (h : Flows A { ex with fail := some l } attempt k m) (h' : Flows A ex rest l m)
      (hj : A.jumps m) : Flows A ex (.arm loc armLoc attempt rest) k m
  | require {ex : Exits α} {line : UInt32} {k l m : α} (ht : A.tests k m l)
      (he : ex.fail = some l) : Flows A ex (.require line) k m
  | weaken {ex : Exits α} {code : Code} {k k' m m' : α} (hk : A.covers k k')
      (h : Flows A ex code k' m) (hm : A.covers m m') : Flows A ex code k m'

/-- Everything that one analysis accepts, the other one accepts as well. -/
structure Analysis.Within (A B : Analysis α) : Prop where
  covers : ∀ k m, A.covers k m → B.covers k m
  runs : ∀ i k m, A.runs i k m → B.runs i k m
  binds : ∀ slot k m, A.binds slot k m → B.binds slot k m
  tests : ∀ k l m, A.tests k l m → B.tests k l m
  jumps : ∀ k, A.jumps k → B.jumps k

theorem Flows.mono {A B : Analysis α} (h : A.Within B) {ex : Exits α} {code : Code} {k m : α}
    (hf : Flows A ex code k m) : Flows B ex code k m := by
  induction hf with
  | skip => exact .skip
  | seq _ _ ih ih' => exact .seq ih ih'
  | instr hi hj => exact .instr (h.runs _ _ _ hi) hj
  | bind hb => exact .bind (h.binds _ _ _ hb)
  | ite ht _ _ hj ih ih' => exact .ite (h.tests _ _ _ ht) ih ih' (h.jumps _ hj)
  | when ht _ ih => exact .when (h.tests _ _ _ ht) ih
  | loop _ ht _ hj ih ih' => exact .loop ih (h.tests _ _ _ ht) ih' (h.jumps _ hj)
  | leave he hj => exact .leave he (h.jumps _ hj)
  | again he hj => exact .again he (h.jumps _ hj)
  | arm _ _ hj ih ih' => exact .arm ih ih' (h.jumps _ hj)
  | require ht he => exact .require (h.tests _ _ _ ht) he
  | weaken hk _ hm ih => exact .weaken (h.covers _ _ hk) ih (h.covers _ _ hm)

abbrev Visit (α : Type) := Placed × α

abbrev Visit.jump (o n : Nat) (k : α) : Visit α := ((o, ⟨.jump, forward n⟩), k)

abbrev Visit.test (o n : Nat) (k : α) : Visit α := ((o, ⟨.jumpIfFalse, forward n⟩), k)

abbrev Visit.back (o n : Nat) (k : α) : Visit α := ((o, ⟨.loop, backward n⟩), k)

/-- The analysis holds for the instruction, no jump leads before the code, and whatever follows
agrees with what is known behind the instruction. -/
structure Visit.Agrees (A : Analysis α) (J : Nat → α → Prop) (v : Visit α) : Prop where
  inside : ∀ x, v.1.2.distance? = some x → 0 ≤ v.1.1 + v.1.2.size + x
  plain : v.1.2.distance? = none →
    ∃ m, A.runs v.1.2 v.2 m ∧ (v.1.2.opcode ≠ .ret → J (v.1.1 + v.1.2.size) m)
  test : v.1.2.opcode = .jumpIfFalse → ∃ l m, A.tests v.2 l m ∧ J (v.1.1 + v.1.2.size) l ∧
    ∀ t, Chunk.target? v.1.1 v.1.2 = some t → J t m
  jump : v.1.2.opcode = .jump ∨ v.1.2.opcode = .loop → A.jumps v.2 ∧
    ∀ t, Chunk.target? v.1.1 v.1.2 = some t → J t v.2

def Joins (A : Analysis α) (l : List (Visit α)) (X : Nat → α → Prop) (o : Nat) (k : α) : Prop :=
  (∃ i k', ((o, i), k') ∈ l ∧ A.covers k k') ∨ X o k

variable {A : Analysis α}

theorem Visit.Agrees.mono {J J' : Nat → α → Prop} {v : Visit α} (h : v.Agrees A J)
    (hJ : ∀ o k, J o k → J' o k) : v.Agrees A J' where
  inside := h.inside
  plain hj := by
    obtain ⟨m, hm, hnext⟩ := h.plain hj
    exact ⟨m, hm, fun hr => hJ _ _ (hnext hr)⟩
  test ho := by
    obtain ⟨l, m, ht, hnext, htarget⟩ := h.test ho
    exact ⟨l, m, ht, hJ _ _ hnext, fun t h => hJ _ _ (htarget t h)⟩
  jump ho := ⟨(h.jump ho).1, fun t ht => hJ _ _ ((h.jump ho).2 t ht)⟩

section Jumps

variable {J : Nat → α → Prop} {o n : Nat} {k l m : α}

theorem Visit.agrees_jump (h : n ≤ Chunk.maxDistance) (hk : A.jumps k) (hJ : J (o + 3 + n) k) :
    (Visit.jump o n k).Agrees A J where
  inside x hx := by
    rw [← Option.some.inj hx, forward_toInt h]
    omega
  plain hj := by simp [Instruction.distance?] at hj
  test ho := by simp at ho
  jump _ := by
    refine ⟨hk, fun t ht => ?_⟩
    rw [Chunk.target?_jump o h] at ht
    exact Option.some.inj ht ▸ hJ

theorem Visit.agrees_test (h : n ≤ Chunk.maxDistance) (ht : A.tests k l m)
    (hnext : J (o + 3) l) (hJ : J (o + 3 + n) m) : (Visit.test o n k).Agrees A J where
  inside x hx := by
    rw [← Option.some.inj hx, forward_toInt h]
    omega
  plain hj := by simp [Instruction.distance?] at hj
  test _ := by
    refine ⟨l, m, ht, hnext, fun t ht => ?_⟩
    rw [Chunk.target?_jumpIfFalse o h] at ht
    exact Option.some.inj ht ▸ hJ
  jump ho := by simp at ho

theorem Visit.agrees_back (h : n ≤ Chunk.maxDistance) (hn : n ≤ o + 3) (hk : A.jumps k)
    (hJ : J (o + 3 - n) k) : (Visit.back o n k).Agrees A J where
  inside x hx := by
    rw [← Option.some.inj hx, backward_toInt h]
    change (0 : Int) ≤ o + 3 + -n
    omega
  plain hj := by simp [Instruction.distance?] at hj
  test ho := by simp at ho
  jump _ := by
    refine ⟨hk, fun t ht => ?_⟩
    rw [Chunk.target?_loop o h hn] at ht
    exact Option.some.inj ht ▸ hJ

end Jumps

def Upward (A : Analysis α) (X : Nat → α → Prop) : Prop :=
  ∀ o k k', A.covers k k' → X o k' → X o k

namespace Joins

variable {l m : List (Visit α)} {X Y : Nat → α → Prop} {o : Nat} {k : α}

theorem head {i : Instruction} : Joins A (((o, i), k) :: l) X o k :=
  .inl ⟨i, k, List.mem_cons_self, A.refl k⟩

theorem cons {v : Visit α} (h : Joins A l X o k) : Joins A (v :: l) X o k :=
  h.imp (fun ⟨i, k', hi, hk⟩ => ⟨i, k', List.mem_cons_of_mem _ hi, hk⟩) id

theorem append_right (h : Joins A m X o k) : Joins A (l ++ m) X o k :=
  h.imp (fun ⟨i, k', hi, hk⟩ => ⟨i, k', List.mem_append_right _ hi, hk⟩) id

/-- Where the places to leave to are joined by what stands behind, so is the whole. -/
theorem append (h : Joins A l Y o k) (he : Y o k → Joins A (l ++ m) X o k) :
    Joins A (l ++ m) X o k := by
  rcases h with ⟨i, k', hi, hk⟩ | h
  · exact .inl ⟨i, k', List.mem_append_left _ hi, hk⟩
  · exact he h

theorem upward (hX : Upward A X) : Upward A (Joins A l X) := by
  rintro o k k' hk (⟨i, k'', hi, hk'⟩ | hx)
  · exact .inl ⟨i, k'', hi, A.trans _ _ _ hk hk'⟩
  · exact .inr (hX o k k' hk hx)

end Joins

/-- All instructions agree with each other and with the places to leave to. -/
def Closed (A : Analysis α) (X : Nat → α → Prop) (l : List (Visit α)) : Prop :=
  ∀ v ∈ l, v.Agrees A (Joins A l X)

namespace Closed

variable {l m : List (Visit α)} {X : Nat → α → Prop}

theorem cons {v : Visit α} (hv : v.Agrees A (Joins A (v :: l) X)) (h : Closed A X l) :
    Closed A X (v :: l) := by
  intro w hw
  rcases List.mem_cons.mp hw with rfl | hw
  · exact hv
  · exact (h w hw).mono fun _ _ => .cons

theorem append (h : Closed A (Joins A m X) l) (h' : Closed A X m) : Closed A X (l ++ m) := by
  intro v hv
  rcases List.mem_append.mp hv with hv | hv
  · exact (h v hv).mono fun _ _ hx => hx.append .append_right
  · exact (h' v hv).mono fun _ _ => .append_right

end Closed

/-- The jumps out of code between two offsets lead to places where just this is expected. -/
structure Leads (X : Nat → α → Prop) (ex : Exits α) (t : Targets) (a e : Nat) : Prop where
  loop : ∀ start stop, ex.loop = some (start, stop) →
    (t.start ≤ a ∧ X t.start start) ∧ e ≤ t.stop ∧ X t.stop stop
  fail : ∀ k, ex.fail = some k → e ≤ t.fail ∧ X t.fail k

theorem Leads.sub {X Y : Nat → α → Prop} {ex : Exits α} {t : Targets} {a a' e e' : Nat}
    (h : Leads X ex t a e) (ha : a ≤ a') (he : e' ≤ e) (hx : ∀ o k, X o k → Y o k) :
    Leads Y ex t a' e' where
  loop start stop hin := by
    obtain ⟨⟨hle, hs⟩, hle', hs'⟩ := h.loop start stop hin
    exact ⟨⟨Nat.le_trans hle ha, hx _ _ hs⟩, Nat.le_trans he hle', hx _ _ hs'⟩
  fail k hin := ⟨Nat.le_trans he (h.fail k hin).1, hx _ _ (h.fail k hin).2⟩

/-- The visits of code that is laid out from an offset on, which is entered with something known. -/
structure Visits (A : Analysis α) (cells : List UInt8) (X : Nat → α → Prop) (t : Targets) (a : Nat)
    (code : Code) (k : α) (l : List (Visit α)) : Prop where
  placed : l.map Prod.fst = code.placed cells t a
  closed : Closed A X l
  entry : Joins A l X a k

variable {cells : List UInt8} {X : Nat → α → Prop} {ex : Exits α} {t : Targets} {a : Nat}
  {code : Code} {k k₁ k₂ m : α}

theorem visits_single {i : Instruction} (hp : code.placed cells t a = [(a, i)])
    (h : Visit.Agrees A X ((a, i), k)) : Visits A cells X t a code k [((a, i), k)] where
  placed := hp.symm
  closed v hv := by
    rw [List.mem_singleton.mp hv]
    exact h.mono fun _ _ => .inr
  entry := .head

theorem visits_instr {i : Instruction} (hp : code.placed cells t a = [(a, i)])
    (hj : i.distance? = none) (h : A.runs i k m) (he : i.opcode ≠ .ret → X (a + i.size) m) :
    Visits A cells X t a code k [((a, i), k)] := by
  refine visits_single hp ⟨fun x hx => by simp [hj] at hx, fun _ => ⟨m, h, he⟩, ?_, ?_⟩
  · exact fun ho => absurd ho (i.opcode_ne_of_distance? hj).1
  · exact fun ho => absurd ho (not_or.mpr (i.opcode_ne_of_distance? hj).2)

namespace Visits

variable {loc armLoc : Location} {first rest : Code} {l r : List (Visit α)}

theorem append (h : Visits A cells (Joins A r X) t a first k l)
    (h' : Visits A cells X t (a + first.width) rest m r) :
    Visits A cells X t a (.seq first rest) k (l ++ r) where
  placed := by
    rw [List.map_append, h.placed, h'.placed]
    rfl
  closed := h.closed.append h'.closed
  entry := h.entry.append .append_right

theorem when (hle : first.width ≤ Chunk.maxDistance) (ht : A.tests k k₁ m)
    (he : X (a + 3 + first.width) m) (h : Visits A cells X t (a + 3) first k₁ l) :
    Visits A cells X t a (.when loc first) k (.test a first.width k :: l) where
  placed := by
    rw [List.map_cons, h.placed]
    rfl
  closed := .cons (Visit.agrees_test hle ht (.cons h.entry) (.inr he)) h.closed
  entry := .head

theorem ite (hle : first.width + 3 ≤ Chunk.maxDistance) (hle' : rest.width ≤ Chunk.maxDistance)
    (ht : A.tests k k₁ k₂) (hj : A.jumps m) (he : X (a + 3 + first.width + 3 + rest.width) m)
    (h : Visits A cells (Joins A (.jump (a + 3 + first.width) rest.width m :: r) X) t (a + 3) first
      k₁ l)
    (h' : Visits A cells X t (a + 3 + first.width + 3) rest k₂ r) :
    Visits A cells X t a (.ite loc first rest) k
      (.test a (first.width + 3) k :: (l ++ .jump (a + 3 + first.width) rest.width m :: r)) where
  placed := by
    rw [List.map_cons, List.map_append, List.map_cons, h.placed, h'.placed]
    rfl
  closed := by
    have hrest : Closed A X (.jump (a + 3 + first.width) rest.width m :: r) :=
      .cons (Visit.agrees_jump hle' hj (.inr he)) h'.closed
    refine .cons (Visit.agrees_test hle ht ?_ ?_) (h.closed.append hrest)
    · exact .cons (h.entry.append .append_right)
    · exact .cons (.append_right (.cons h'.entry))
  entry := .head

theorem arm (hle : rest.width ≤ Chunk.maxDistance) (hj : A.jumps m)
    (he : X (a + first.width + 3 + rest.width) m)
    (h : Visits A cells (Joins A (.jump (a + first.width) rest.width m :: r) X)
      { t with fail := a + first.width + 3 } a first k l)
    (h' : Visits A cells X t (a + first.width + 3) rest k₁ r) :
    Visits A cells X t a (.arm loc armLoc first rest) k
      (l ++ .jump (a + first.width) rest.width m :: r) where
  placed := by
    rw [List.map_append, List.map_cons, h.placed, h'.placed]
    rfl
  closed := h.closed.append (.cons (Visit.agrees_jump hle hj (.inr he)) h'.closed)
  entry := h.entry.append .append_right

/-- For the body, the start of the loop is a place to leave to: the condition stands there. -/
theorem loop {stop : Nat} (hX : Upward A X) (hstop : stop = a + first.width + 3 + rest.width + 3)
    (hle : rest.width + 3 ≤ Chunk.maxDistance) (hle' : stop - a ≤ Chunk.maxDistance)
    (ht : A.tests k₁ k₂ m) (hj : A.jumps k) (he : X stop m)
    (h : Visits A cells (Joins A (.test (a + first.width) (rest.width + 3) k₁ ::
      (r ++ [.back (a + first.width + 3 + rest.width) (stop - a) k])) X) t a first k l)
    (h' : Visits A cells (fun o x => (o = a ∧ A.covers x k) ∨
        Joins A [.back (a + first.width + 3 + rest.width) (stop - a) k] X o x)
      { t with start := a, stop } (a + first.width + 3) rest k₂ r) :
    Visits A cells X t a (.loop loc first rest) k
      (l ++ .test (a + first.width) (rest.width + 3) k₁ ::
        (r ++ [.back (a + first.width + 3 + rest.width) (stop - a) k])) := by
  let test : Visit α := .test (a + first.width) (rest.width + 3) k₁
  let back : Visit α := .back (a + first.width + 3 + rest.width) (stop - a) k
  have hstart : Joins A (l ++ test :: (r ++ [back])) X a k := h.entry.append .append_right
  have hbody : ∀ o x, Joins A r (fun o x => (o = a ∧ A.covers x k) ∨ Joins A [back] X o x) o x →
      Joins A (l ++ test :: (r ++ [back])) X o x := by
    rintro o x (⟨i, x', hi, hx⟩ | ⟨rfl, hx⟩ | hx)
    · exact .append_right (.cons (.inl ⟨i, x', List.mem_append_left _ hi, hx⟩))
    · exact Joins.upward hX _ _ _ hx hstart
    · exact .append_right (.cons (.append_right hx))
  refine ⟨?_, fun v hv => ?_, hstart⟩
  · simp [Code.placed, h.placed, h'.placed, hstop]
  · rcases List.mem_append.mp hv with hv | hv
    · exact (h.closed v hv).mono fun _ _ hx => hx.append .append_right
    rcases List.mem_cons.mp hv with rfl | hv
    · exact Visit.agrees_test hle ht (hbody _ _ h'.entry) (.inr (hstop ▸ he))
    rcases List.mem_append.mp hv with hv | hv
    · exact (h'.closed v hv).mono hbody
    · have ha : a + first.width + 3 + rest.width + 3 - (stop - a) = a := by omega
      rw [List.mem_singleton.mp hv]
      exact Visit.agrees_back hle' (by omega) hj (ha.symm ▸ hstart)

theorem mono (hX : Upward A X) (h : Visits A cells X t a code k₁ l) (hk : A.covers k k₁) :
    Visits A cells X t a code k l :=
  { h with entry := Joins.upward hX _ _ _ hk h.entry }

end Visits

def Ends : Code → Prop
  | seq first .skip => first.Ends
  | seq _ rest => rest.Ends
  | instr _ i => i.opcode = .ret
  | _ => False

theorem ends_seq {first rest : Code} :
    (seq first rest).Ends ↔ rest = .skip ∧ first.Ends ∨ rest.Ends := by
  cases rest <;> simp [Ends]

/-- The code leaves to what is behind it, unless it ends with a return. -/
theorem Flows.exists_visits (hc : ∀ slot k m, A.binds slot k m → A.runs (binder cells slot) k m)
    (hX : Upward A X) (h : Flows A ex code k m)
    (hf : code.Fits ex.loop.isSome ex.fail.isSome t a)
    (hl : Leads X ex t a (a + code.width)) (he : X (a + code.width) m ∨ code.Ends) :
    ∃ l, Visits A cells X t a code k l := by
  induction h generalizing t a X with
  | skip => exact ⟨[], rfl, fun _ hv => absurd hv List.not_mem_nil, .inr (he.resolve_right id)⟩
  | seq _ _ ih ih' =>
    rw [width, ← Nat.add_assoc, ends_seq, or_comm, or_assoc, or_comm (a := Ends _)] at he
    rw [width, ← Nat.add_assoc] at hl
    rcases he with ⟨rfl, he⟩ | he
    · obtain ⟨l, h⟩ := ih hX hf.1 hl (.inr he)
      exact ⟨l, { h with placed := h.placed.trans (List.append_nil _).symm }⟩
    · obtain ⟨r, hr⟩ := ih' hX hf.2 (hl.sub (by omega) (by omega) fun _ _ => id) he
      obtain ⟨l, h⟩ := ih (X := Joins A r X) (Joins.upward hX) hf.1
        (hl.sub (by omega) (by omega) fun _ _ => .inr) (.inl hr.entry)
      exact ⟨l ++ r, h.append hr⟩
  | instr h hj => exact ⟨_, visits_instr rfl hj h he.resolve_right⟩
  | @bind _ _ slot _ _ h =>
    obtain ⟨hs, hj⟩ : (binder cells slot).size = 2 ∧ (binder cells slot).distance? = none := by
      unfold binder
      split <;> exact ⟨rfl, rfl⟩
    exact ⟨_, visits_instr rfl hj (hc _ _ _ h) fun _ => hs ▸ he.resolve_right id⟩
  | leave hloop hj =>
    obtain ⟨-, hle, hx⟩ := hl.loop _ _ hloop
    have hs : a + 3 + (t.stop - (a + 3)) = t.stop := by
      simp only [width] at hle
      omega
    exact ⟨_, visits_single rfl
      (Visit.agrees_jump (hf (by rw [hloop]; rfl)) hj (hs.symm ▸ hx))⟩
  | again hloop hj =>
    obtain ⟨⟨hle, hx⟩, -⟩ := hl.loop _ _ hloop
    have hs : a + 3 - (a + 3 - t.start) = t.start := by omega
    exact ⟨_, visits_single rfl (Visit.agrees_back hf (by omega) hj (hs.symm ▸ hx))⟩
  | require ht hfail =>
    obtain ⟨hle, hx⟩ := hl.fail _ hfail
    have hs : a + 3 + (t.fail - (a + 3)) = t.fail := by
      simp only [width] at hle
      omega
    exact ⟨_, visits_single rfl
      (Visit.agrees_test (hf (by rw [hfail]; rfl)) ht (he.resolve_right id)
        (hs.symm ▸ hx))⟩
  | @ite _ loc yes no _ _ _ _ ht _ _ hj ih ih' =>
    obtain ⟨hy, hn, hfy, hfn⟩ := hf
    have hw : a + (Code.ite loc yes no).width = a + 3 + yes.width + 3 + no.width := by
      simp only [width]
      omega
    replace he := hw ▸ he.resolve_right id
    rw [hw] at hl
    obtain ⟨r, hr⟩ := ih' hX hfn (hl.sub (by omega) (by omega) fun _ _ => id) (.inl he)
    obtain ⟨l, h⟩ := ih (X := Joins A (_ :: r) X) (Joins.upward hX) hfy
      (hl.sub (by omega) (by omega) fun _ _ => .inr) (.inl .head)
    exact ⟨_, h.ite hy hn ht hj he hr⟩
  | when ht _ ih =>
    obtain ⟨hb, hfb⟩ := hf
    replace he := he.resolve_right id
    rw [width, ← Nat.add_assoc] at hl he
    obtain ⟨l, h⟩ := ih hX hfb (hl.sub (by omega) (by omega) fun _ _ => id) (.inl he)
    exact ⟨_, h.when hb ht he⟩
  | @arm _ loc armLoc attempt rest _ _ _ _ _ hj ih ih' =>
    obtain ⟨hr, hfa, hfr⟩ := hf
    have hw : a + (Code.arm loc armLoc attempt rest).width =
        a + attempt.width + 3 + rest.width := by
      simp only [width]
      omega
    replace he := hw ▸ he.resolve_right id
    rw [hw] at hl
    obtain ⟨r, hm⟩ := ih' hX hfr (hl.sub (by omega) (by omega) fun _ _ => id) (.inl he)
    obtain ⟨l, h⟩ := ih (X := Joins A (_ :: r) X) (Joins.upward hX) hfa
      { loop := fun start stop hin => by
          obtain ⟨⟨hle, hs⟩, hle', hs'⟩ := hl.loop start stop hin
          exact ⟨⟨hle, .inr hs⟩, by simp only; omega, .inr hs'⟩
        fail := fun k hk => by
          cases hk
          exact ⟨by simp only; omega, .cons hm.entry⟩ } (.inl .head)
    exact ⟨_, h.arm hr hj he hm⟩
  | @loop _ loc cond body _ _ _ _ _ ht _ hj ih ih' =>
    obtain ⟨hb, hback, hfc, hfb⟩ := hf
    have hw : a + (Code.loop loc cond body).width = a + cond.width + 3 + body.width + 3 := by
      simp only [width]
      omega
    replace he := hw ▸ he.resolve_right id
    rw [hw] at hl
    obtain ⟨r, hr⟩ := ih' (X := fun o x => (o = a ∧ A.covers x _) ∨ Joins A [_] X o x)
      (fun o x x' hx h => h.imp (fun h => ⟨h.1, A.trans _ _ _ hx h.2⟩)
        (Joins.upward hX _ _ _ hx)) hfb
      { loop := fun start stop hin => by
          cases hin
          exact ⟨⟨by simp only; omega, .inl ⟨rfl, A.refl _⟩⟩, by simp only; omega, .inr (.inr he)⟩
        fail := fun k hk => ⟨by have := (hl.fail k hk).1; simp only; omega,
          .inr (.inr (hl.fail k hk).2)⟩ } (.inl (.inr .head))
    obtain ⟨l, h⟩ := ih (X := Joins A (_ :: (r ++ [_])) X) (Joins.upward hX) hfc
      { loop := fun start stop hin => by simp at hin
        fail := fun k hk => ⟨by have := (hl.fail k hk).1; omega, .inr (hl.fail k hk).2⟩ }
      (.inl .head)
    exact ⟨_, h.loop hX rfl hb hback ht hj he hr⟩
  | weaken hk _ hm ih =>
    obtain ⟨l, h⟩ := ih hX hf hl (he.imp_left (hX _ _ _ hm))
    exact ⟨l, h.mono hX hk⟩

end Code

end StackCode
