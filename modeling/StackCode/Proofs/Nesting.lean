import StackCode.Lowering.Compiled
import StackCode.Proofs.WellFormed

/-! # Bodies and the literals nested in them

A compiled body is a chunk together with the function literals that stand directly in it, each of
them a body again. Every instruction of a chunk means something in the module and for these
literals.
-/

namespace StackCode

/-- A value that a compiled body may load as a constant: a literal, or a case of an enum without
values. -/
def Value.Plain : Value → Prop
  | .none | .int _ | .bool _ | .string _ => True
  | .enumCase c => c.values = []
  | _ => False

/-- The symbol of what an instruction makes a closure of. -/
def Instruction.made? (symbol? : UInt16 → Option Symbol) : Instruction → Option (Option Symbol)
  | ⟨.makeClosure, n⟩ => some (symbol? n)
  | _ => none

namespace Lowering

/-- The chunk of a function literal with the literals that stand directly in it, in the order in
which they are compiled. -/
inductive Nest where
  | node (chunk : Chunk Value) (literals : List Nest)

namespace Nest

def chunk : Nest → Chunk Value
  | node c _ => c

def literals : Nest → List Nest
  | node _ literals => literals

mutual

def chunks : Nest → List (Chunk Value)
  | node c literals => allChunks literals ++ [c]

def allChunks : List Nest → List (Chunk Value)
  | [] => []
  | t :: ts => t.chunks ++ allChunks ts

end

@[simp] theorem allChunks_append (ts us : List Nest) :
    allChunks (ts ++ us) = allChunks ts ++ allChunks us := by
  induction ts with
  | nil => rfl
  | cons t ts ih => simp [allChunks, ih]

end Nest

/-- What an instruction refers to in the tables of its chunk, and what that stands for in the
module or among the literals of the body. -/
def Means (space : Space) (c : Chunk Value) (literals : List Nest) : Instruction → Prop
  | ⟨.constant, n⟩ => ∃ v, c.constant? n = some v
  | ⟨.getModuleFunction, n⟩ =>
    ∃ s, c.symbol? n = some s ∧ ∃ name, space.resolve? name = some (.function s)
  | ⟨.getModuleValue, n⟩ =>
    ∃ s, c.symbol? n = some s ∧ ∃ name, space.resolve? name = some (.value s)
  | ⟨.setModuleValue, n⟩ => ∃ s, c.symbol? n = some s
  | ⟨.getStruct, n⟩ =>
    ∃ s, c.symbol? n = some s ∧ ∃ name, space.resolve? name = some (.struct s)
  | ⟨.getBuiltin, n⟩ => ∃ s, c.symbol? n = some s ∧ ∃ b : Builtin, s = b.symbol
  | ⟨.makeClosure, n⟩ => ∃ s, c.symbol? n = some s ∧ ∃ t ∈ literals, t.chunk.symbol = s
  | ⟨.getMethod, n⟩ =>
    ∃ s, c.symbol? n = some s ∧
      ∃ type t name, space.structOf? type = some t ∧ t.method? name = some s
  | ⟨.invokeMethod, n⟩ =>
    ∃ s, c.symbol? n.symbol = some s ∧
      ∃ type t name, space.structOf? type = some t ∧ t.method? name = some s
  | ⟨.matchCase, n⟩ => ∃ s, c.symbol? n.symbol = some s
  | ⟨.callChunk, _⟩ => False
  | _ => True

variable {c : Chunk Value} {space : Space} {t : Nest}

theorem Means.refers {literals : List Nest} {i : Instruction} (h : Means space c literals i)
    (hj : i.distance? = none) : c.Refers i := by
  intro o
  obtain ⟨op, operand⟩ := i
  cases op
  case constant =>
    obtain ⟨v, hv⟩ := h
    exact Option.isSome_of_eq_some hv
  case getModuleFunction | getModuleValue | getStruct | getBuiltin | makeClosure | getMethod |
      invokeMethod =>
    obtain ⟨s, hs, -⟩ := h
    exact Option.isSome_of_eq_some hs
  case setModuleValue | matchCase =>
    obtain ⟨s, hs⟩ := h
    exact Option.isSome_of_eq_some hs
  case callChunk => exact h.elim
  case jump | jumpIfFalse | loop => cases hj
  all_goals rfl

structure Tables (c c' : Chunk Value) : Prop where
  constants : ∀ n v, c.constant? n = some v → c'.constant? n = some v
  symbols : ∀ n s, c.symbol? n = some s → c'.symbol? n = some s

namespace Tables

theorem refl (c : Chunk Value) : Tables c c := ⟨fun _ _ => id, fun _ _ => id⟩

theorem trans {c c' c'' : Chunk Value} (h : Tables c c') (h' : Tables c' c'') : Tables c c'' :=
  ⟨fun n v hv => h'.constants n v (h.constants n v hv),
    fun n s hs => h'.symbols n s (h.symbols n s hs)⟩

end Tables

theorem Means.mono {c' : Chunk Value} {ts us : List Nest} {i : Instruction} (h : Means space c ts i)
    (hc : Tables c c') (ht : ts ⊆ us) : Means space c' us i := by
  obtain ⟨op, operand⟩ := i
  cases op
  case constant =>
    obtain ⟨v, hv⟩ := h
    exact ⟨v, hc.constants _ _ hv⟩
  case getModuleFunction | getModuleValue | getStruct | getBuiltin | getMethod | invokeMethod =>
    obtain ⟨s, hs, hm⟩ := h
    exact ⟨s, hc.symbols _ _ hs, hm⟩
  case makeClosure =>
    obtain ⟨s, hs, t, hm, he⟩ := h
    exact ⟨s, hc.symbols _ _ hs, t, ht hm, he⟩
  case setModuleValue | matchCase =>
    obtain ⟨s, hs⟩ := h
    exact ⟨s, hc.symbols _ _ hs⟩
  case callChunk => exact h.elim
  all_goals trivial

/-- The chunk is laid out from balanced code that ends with a return, and every instruction of the
code means something. It makes one closure of each literal, in their order. -/
def Assembled (space : Space) (c : Chunk Value) (literals : List Nest) : Prop :=
  c.instructions.filterMap (·.2.made? c.symbol?) = literals.map (some ·.chunk.symbol) ∧
  ∃ (head : Chunk Value) (cells : List UInt8) (code : Code) (e : Int), head.code = #[] ∧
    (∀ v ∈ head.constants, v.Plain) ∧ code.Fits false false {} 0 ∧
    code.Moves (Means space head literals) false false 0 e ∧ code.Ends ∧
    c = code.layout cells head

theorem means_binder (space : Space) (c : Chunk Value) (literals : List Nest) (cells : List UInt8)
    (slot : UInt8) : Means space c literals (Code.binder cells slot) := by
  unfold Code.binder
  split <;> exact trivial

theorem Assembled.wellFormed {literals : List Nest} (h : Assembled space c literals) :
    c.WellFormed := by
  obtain ⟨-, head, cells, code, e, hh, -, hf, hm, he, rfl⟩ := h
  exact (Code.wellFormed_layout hh hf (fun _ hj hi => hi.refers hj)
    (means_binder space head literals cells) hm he).1

/-- Every instruction means something for the chunk itself. -/
theorem Assembled.holds {literals : List Nest} (h : Assembled space c literals) :
    c.Holds (Means space c literals) := by
  obtain ⟨-, head, cells, code, e, hh, -, hf, hm, he, rfl⟩ := h
  have hholds := (Code.wellFormed_layout hh hf (fun _ hj hi => hi.refers hj)
    (means_binder space head literals cells) hm he).2
  have htables : Tables head (code.layout cells head) := by
    obtain ⟨lines, hc⟩ := Code.adds_layout cells code head
    rw [hc]
    exact ⟨fun _ _ => id, fun _ _ => id⟩
  refine ⟨fun o i hi => ?_, hholds.reached⟩
  obtain ⟨hat, hmeans⟩ := hholds.listed o i hi
  exact ⟨hat, fun hj => (hmeans hj).mono htables fun _ => id⟩

/-- A literal of the given number in a body of the given name is assembled, as are the literals in
it, and its symbol comes from the name and the number. -/
inductive Nest.Built (space : Space) : String → Nat → Nest → Prop where
  | node {parent label : String} {number : Nat} {params : List String} {c : Chunk Value}
      {literals : List Nest} (name : c.name = parent ++ "." ++ label)
      (symbol : c.symbol = .function space.module (c.name ++ "#" ++ toString number) params)
      (assembled : Assembled space c literals)
      (built : ∀ (k : Nat) (t : Nest), literals[k]? = some t →
        Nest.Built space c.name (k + 1) t) :
      Nest.Built space parent number (.node c literals)

def AllBuilt (space : Space) (parent : String) (start : Nat) (literals : List Nest) : Prop :=
  ∀ (k : Nat) (t : Nest), literals[k]? = some t → t.Built space parent (start + k + 1)

namespace AllBuilt

variable {space : Space} {parent : String} {start : Nat} {ts us : List Nest}

theorem nil : AllBuilt space parent start [] := fun _ _ h => nomatch h

theorem append (h : AllBuilt space parent start ts)
    (h' : AllBuilt space parent (start + ts.length) us) :
    AllBuilt space parent start (ts ++ us) := by
  intro k t hk
  rcases Nat.lt_or_ge k ts.length with hlt | hge
  · rw [List.getElem?_append_left hlt] at hk
    exact h k t hk
  · rw [List.getElem?_append_right hge] at hk
    have := h' _ t hk
    rwa [show start + ts.length + (k - ts.length) + 1 = start + k + 1 by omega] at this

theorem mem (h : AllBuilt space parent start ts) {t : Nest} (ht : t ∈ ts) :
    ∃ number, t.Built space parent number := by
  obtain ⟨k, hk⟩ := List.mem_iff_getElem?.mp ht
  exact ⟨_, h k t hk⟩

end AllBuilt

/-- The second body is the first one or stands in it at some depth. -/
inductive Nest.Holds : Nest → Nest → Prop where
  | self (t : Nest) : Holds t t
  | deeper {c : Chunk Value} {literals : List Nest} {t u : Nest} (ht : t ∈ literals)
      (h : Holds t u) : Holds (.node c literals) u

/-- The body is assembled, and the literals in it are built. -/
structure Nest.Sound (space : Space) (t : Nest) : Prop where
  assembled : Assembled space t.chunk t.literals
  built : AllBuilt space t.chunk.name 0 t.literals

theorem Nest.Built.sound {parent : String} {number : Nat} (h : t.Built space parent number) :
    t.Sound space := by
  cases h with
  | node _ _ ha hb => exact ⟨ha, fun k t ht => (Nat.zero_add k).symm ▸ hb k t ht⟩

/-- What holds of a body holds of everything that stands in it. -/
theorem Nest.Sound.of_holds {u : Nest} (h : t.Sound space) (hu : t.Holds u) :
    u.Sound space := by
  induction hu with
  | self => exact h
  | deeper ht _ ih =>
    obtain ⟨number, hb⟩ := h.built.mem ht
    exact ih hb.sound

theorem Nest.mem_allChunks {ts : List Nest} :
    c ∈ Nest.allChunks ts ↔ ∃ t ∈ ts, c ∈ t.chunks := by
  induction ts with
  | nil => simp [Nest.allChunks]
  | cons t ts ih => simp [Nest.allChunks, ih]

theorem Nest.chunk_mem_chunks (t : Nest) : t.chunk ∈ t.chunks := by
  cases t with
  | node c literals => exact List.mem_append_right _ List.mem_cons_self

theorem Nest.mem_chunks :
    c ∈ t.chunks ↔ c ∈ Nest.allChunks t.literals ∨ c = t.chunk := by
  cases t with
  | node c' literals => simp [Nest.chunks, Nest.literals, Nest.chunk]

theorem Nest.Holds.chunk_mem {u v : Nest} (h : t.Holds u) (hv : v ∈ u.literals) :
    v.chunk ∈ Nest.allChunks t.literals := by
  induction h with
  | self => exact Nest.mem_allChunks.mpr ⟨v, hv, v.chunk_mem_chunks⟩
  | deeper ht _ ih => exact Nest.mem_allChunks.mpr ⟨_, ht, Nest.mem_chunks.mpr (.inl (ih hv))⟩

theorem Nest.exists_holds {parent : String} {number : Nat} (h : t.Built space parent number)
    (hc : c ∈ t.chunks) :
    ∃ u, t.Holds u ∧ u.chunk = c := by
  induction h with
  | @node _ _ _ _ c' literals _ _ _ _ ih =>
    rcases Nest.mem_chunks.mp hc with hc | rfl
    · obtain ⟨t, ht, hc⟩ := Nest.mem_allChunks.mp hc
      obtain ⟨k, hk⟩ := List.mem_iff_getElem?.mp ht
      obtain ⟨u, hu, he⟩ := ih k t hk hc
      exact ⟨u, .deeper ht hu, he⟩
    · exact ⟨_, .self _, rfl⟩

theorem Assembled.constants {literals : List Nest} (h : Assembled space c literals) :
    ∀ v ∈ c.constants, v.Plain := by
  obtain ⟨-, head, cells, code, e, -, hconstants, -, -, -, rfl⟩ := h
  obtain ⟨lines, hc⟩ := Code.adds_layout cells code head
  rw [hc]
  exact hconstants

end Lowering

end StackCode
