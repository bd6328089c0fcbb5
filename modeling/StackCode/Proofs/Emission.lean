import StackCode.Linking.Declarations
import StackCode.Proofs.Facts
import StackCode.Proofs.Marks

/-! # What a part of a body emits

While a body is compiled, every name in scope is that of its slot, and every capture leads to the
innermost binding of its name in the bodies around. A part of a body stands for a problem or keeps
this so. Its code is balanced, reads slots only where they are bound, and names what the walk
through the part names. Parts that follow each other compose.
-/

namespace StackCode

def EnumCase.Of (enum? : Symbol → Option EnumType) (c : EnumCase Value) : Prop :=
  ∃ t case, enum? c.owner = some t ∧ t.cases[c.index.toNat]? = some case ∧
    c.arity.toNat = case.values.length

/-- The enum is known by its own symbol, and its cases and their values can be numbered. -/
structure EnumType.Regular (symbol : Symbol) (t : EnumType) : Prop where
  symbol : t.symbol = symbol
  cases : t.cases.length ≤ Linking.maxCases
  values : ∀ case ∈ t.cases, case.values.length ≤ Linking.maxAssociated

def Chunk.Offers (strict : Prop) (c : Chunk Value) : CaptureSource → Prop
  | .slot n => c.Open strict n
  | .capture n => n.toNat < c.captures.size

theorem Code.Extended.offers {strict : Prop} {c c' : Chunk Value} (h : Extended c c')
    {source : CaptureSource} (hs : c.Offers strict source) : c'.Offers strict source := by
  cases source with
  | slot n => exact h.isOpen hs
  | capture n => exact Nat.lt_of_lt_of_le hs h.captures

namespace Lowering

open Code (Knowledge Fact Flows bindings Extended Exits)

section Bodies

variable (strict : Prop) (space : Space)

def Declares (c : Chunk Value) : Prop :=
  strict → ∀ x, .enumCase x ∈ c.constants → x.Of space.enumType?

structure Follows (c : Chunk Value) (literals : List Nest) : Prop where
  explained : ∃ K, (bindings strict space c literals).Explains c K ∧ K 0 (Code.entry c)
  declares : Declares strict space c
  offers : ∀ t ∈ literals, ∀ x ∈ t.chunk.captures, c.Offers strict x.source
  receiver : ∀ t ∈ literals, t.chunk.hasReceiver = false

/-- The analysis holds along the body and the literals in it. -/
inductive Nest.Traced : Nest → Prop where
  | node {c : Chunk Value} {literals : List Nest} (follows : Follows strict space c literals)
      (traced : ∀ t ∈ literals, t.Traced) : Traced (.node c literals)

def captures (bodies : List Body) : List (Array Capture) := bodies.map (·.chunk.captures)

def scopes (bodies : List Body) : List (List Local) := bodies.map (·.scope)

/-- The chunk of the body has no code yet, and its tables are not too long. -/
structure Body.Ok (b : Body) : Prop where
  code : b.chunk.code = #[]
  plain : ∀ v ∈ b.chunk.constants, v.Plain
  constants : b.chunk.constants.size ≤ Chunk.maxEntries
  symbols : b.chunk.symbols.size ≤ Chunk.maxEntries

/-- The names in scope are those of their slots. Every capture leads to the innermost binding of its
name in the bodies around, and the slots that are captured are cells. -/
structure Body.Placed (outer : List Body) (b : Body) : Prop extends b.Ok where
  size : b.chunk.locals.size ≤ maxLocals
  scope : ∀ x ∈ b.scope, b.chunk.locals[x.slot.toNat]? = some x.name
  receiver : b.chunk.hasReceiver = b.kind.hasReceiver
  cells : ∀ n ∈ b.cells, b.chunk.Open strict n
  room : b.chunk.captures.size ≤ maxCaptures
  offers : ∀ x ∈ b.chunk.captures, ∃ o, outer.head? = some o ∧ o.chunk.Offers strict x.source
  leads : ∀ (i : Nat) (x : Capture), b.chunk.captures[i]? = some x →
    ∃ out n, binding? x.name (scopes outer) = some (out, n) ∧
      captured? (captures (b :: outer)) i = some (out + 1, n)
  boxed : ∀ x ∈ b.chunk.captures, ∀ n, x.source = .slot n → ∀ o, outer.head? = some o → n ∈ o.cells
  declares : Declares strict space b.chunk

def AllPlaced : List Body → Prop
  | [] => True
  | b :: outer => b.Placed strict space outer ∧ AllPlaced outer

end Bodies

def Body.bare (b : Body) : Body := { b with chunk := { b.chunk with captures := #[] }, cells := [] }

/-- What nested functions change in the bodies around a body with the given captures. -/
inductive Around : Array Capture → List Body → List Body → Prop where
  | nil (inner : Array Capture) : Around inner [] []
  | cons {inner : Array Capture} {o o' : Body} {os os' : List Body} (bare : o'.bare = o.bare)
      (captures : Grown o.chunk.captures o'.chunk.captures)
      (cells : ∀ n, n ∈ o'.cells ↔ n ∈ o.cells ∨ ∃ x ∈ inner, x.source = .slot n)
      (outer : Around o'.chunk.captures os os') : Around inner (o :: os) (o' :: os')

/-- What bodies are compiled against, and whether the analysis of them is strict. -/
structure View where
  strict : Prop
  ctx : Context

abbrev View.space (v : View) : Space := v.ctx.space

structure Agrees (v : View) (s : State) (p : Point) : Prop where
  placed : AllPlaced v.strict v.space (s.body :: s.enclosing)
  kind : s.body.kind = p.kind
  scope : s.body.scope = p.scope
  slots : s.body.chunk.locals.size = p.slots
  depth : s.body.depth = p.depth
  outer : scopes s.enclosing = p.outer

/-- The receiver, if the body has one, is in scope as well. -/
structure Stands (v : View) (s : State) (p : Point) : Prop extends Agrees v s p where
  self : s.body.kind.hasReceiver = true → ∃ x ∈ s.body.scope, x.slot = 0

/-- The literals that are compiled on the way from one state to another. -/
structure Adds (v : View) (s : State) (p : Point) (s' : State) (p' : Point) (literals : List Nest) :
    Prop where
  cells : ∀ n, n ∈ s'.body.cells ↔ n ∈ s.body.cells ∨ ∃ t ∈ literals, t.Captures n
  finished : s'.finished.toList = s.finished.toList ++ Nest.allChunks literals
  nested : s'.body.nested = s.body.nested + literals.length
  built : AllBuilt v.space s.body.chunk.name s.body.nested literals
  offers : ∀ t ∈ literals, ∀ x ∈ t.chunk.captures, s'.body.chunk.Offers v.strict x.source
  receiver : ∀ t ∈ literals, t.chunk.hasReceiver = false
  traced : ∀ t ∈ literals, t.Traced v.strict v.space
  outlined : ∃ us, p'.literals = p.literals ++ us ∧
    List.Forall₂ (Nest.Outlined (captures (s'.body :: s'.enclosing))) literals us

/-- How the state changes together with the walk, while literals are compiled. -/
structure Extends (v : View) (s : State) (p : Point) (s' : State) (p' : Point)
    (literals : List Nest) : Prop extends Adds v s p s' p' literals where
  stands : Stands v s' p'
  kind : s'.body.kind = s.body.kind
  inLoop : s'.body.inLoop = s.body.inLoop
  depth : s'.body.depth = s.body.depth
  arity : s'.body.chunk.arity = s.body.chunk.arity
  name : s'.body.chunk.name = s.body.chunk.name
  symbol : s'.body.chunk.symbol = s.body.chunk.symbol
  scope : s.body.scope <:+ s'.body.scope
  tables : Tables s.body.chunk s'.body.chunk
  extended : Extended s.body.chunk s'.body.chunk
  grown : Grown s.body.chunk.captures s'.body.chunk.captures
  around : Around s'.body.chunk.captures s.enclosing s'.enclosing

/-- Where compilation stands: its state, the walk that goes along with it, and the depth of the
stack. -/
structure Spot where
  state : State
  point : Point
  depth : Int

def Point.note (m : Option Mark) (p : Point) : Point := m.elim p p.mark

/-- The code names what lies between two points and makes closures of the literals, for all captures
and symbols to come. -/
def Names (p : Point) (code : Code) (s' : State) (p' : Point) (literals : List Nest) : Prop :=
  ∃ ms, p'.marks = p.marks ++ ms ∧ ∀ cs symbol?,
    List.Forall₂ Grown (captures (s'.body :: s'.enclosing)) cs →
    (∀ n x, s'.body.chunk.symbol? n = some x → symbol? n = some x) →
      code.named cs symbol? = ms.map some ∧
        code.closures symbol? = literals.map (some ·.chunk.symbol)

/-- All that is known besides the names in scope is which slots are bound and, if the analysis is
strict, what tests have found out about subjects. -/
def Still (strict : Prop) (c : Chunk Value) (k : Knowledge) : Prop :=
  ∀ f, k f → (∃ n, f = .bound n) ∨ strict ∧ ∃ n path owner number,
    f = .passed n path owner number ∧ c.locals[n.toNat]? = some subjectName

def known (scope : List Local) (k : Knowledge) : Knowledge := fun f =>
  k f ∨ ∃ x ∈ scope, f = .bound x.slot

/-- Where a part stands: whether it has to leave the scope as it is, and whether a loop and an
attempt are around it. -/
structure Mode where
  quiet : Prop
  inLoop : Bool
  inArm : Bool

structure Near (inLoop inArm : Bool) (ex : Exits Knowledge) (k : Knowledge) : Prop where
  loop : inLoop = true → ∃ start stop, ex.loop = some (start, stop) ∧ k.Covers start ∧
    k.Covers stop
  arm : inArm = true → ∃ fail, ex.fail = some fail ∧ k.Covers fail

/-- Code that comes from a part of a body refuses the body, or does what the walk says, is balanced,
and lets the slots of the names in scope be bound. It may rely on more about what is known, and then
lets more be known behind it. -/
def Assures (v : View) (m : Mode) (pre post : Knowledge → Prop) (σ : Spot) (code : Code)
    (σ' : Spot) : Prop :=
  Stands v σ.state σ.point → code.Refused ∨
    ∃ literals, Extends v σ.state σ.point σ'.state σ'.point literals ∧
      Names σ.point code σ'.state σ'.point literals ∧
      code.Moves (Means v.space σ'.state.body.chunk literals) m.inLoop m.inArm σ.depth σ'.depth ∧
      (m.quiet → σ'.state.body.scope = σ.state.body.scope) ∧
      ∀ ex k, Still v.strict σ.state.body.chunk k →
        Near m.inLoop m.inArm ex (known σ.state.body.scope k) → pre k →
          ∃ k', k'.Covers k ∧ Still v.strict σ'.state.body.chunk k' ∧ post k' ∧
          code.Flows (bindings v.strict v.space σ'.state.body.chunk literals) ex
            (known σ.state.body.scope k) (known σ'.state.body.scope k')

/-- The code relies on no more than the names in scope. -/
abbrev Emits (v : View) (m : Mode) (σ : Spot) (code : Code) (σ' : Spot) : Prop :=
  Assures v m (fun _ => True) (fun _ => True) σ code σ'

namespace Around

variable {inner inner' : Array Capture} {os os' os'' : List Body} {strict : Prop} {space : Space}

theorem refl {b : Body} (h : AllPlaced strict space (b :: os)) :
    Around b.chunk.captures os os := by
  induction os generalizing b with
  | nil => exact .nil _
  | cons o os ih =>
    refine .cons rfl (.refl _) (fun n => ⟨.inl, ?_⟩) (ih h.2)
    rintro (hn | ⟨x, hx, hn⟩)
    · exact hn
    · exact h.1.boxed x hx n hn o rfl

theorem trans (h : Around inner os os') (h' : Around inner' os' os'') (hi : Grown inner inner') :
    Around inner' os os'' := by
  induction h generalizing inner' os'' with
  | nil => exact h'
  | cons bare captures cells _ ih =>
    cases h' with
    | cons bare' captures' cells' outer' =>
      refine .cons (bare'.trans bare) (captures.trans captures') (fun n => ?_) (ih outer' captures')
      rw [cells', cells]
      constructor
      · rintro ((hn | ⟨x, hx, hn⟩) | hn)
        · exact .inl hn
        · exact .inr ⟨x, hi.mem hx, hn⟩
        · exact .inr hn
      · rintro (hn | hn)
        · exact .inl (.inl hn)
        · exact .inr hn

theorem eq_nil (h : Around inner [] os) : os = [] := by
  cases h
  rfl

theorem scopes_eq (h : Around inner os os') : scopes os' = scopes os := by
  induction h with
  | nil => rfl
  | @cons _ o o' _ _ bare _ _ _ ih =>
    have hscope : o'.scope = o.scope := congrArg (·.scope) bare
    rw [scopes, List.map_cons, hscope]
    exact congrArg (o.scope :: ·) ih

theorem length_eq (h : Around inner os os') : os'.length = os.length := by
  have hs := congrArg List.length h.scopes_eq
  simpa [scopes] using hs

theorem grown (h : Around inner os os') : List.Forall₂ Grown (captures os) (captures os') := by
  induction h with
  | nil => exact .nil
  | cons _ hc _ _ ih => exact .cons hc ih

end Around

variable {v : View}

section States

variable {s s₁ s₂ : State} {p p₁ p₂ : Point} {ts us : List Nest}

theorem Adds.none (cells : s₁.body.cells = s.body.cells) (finished : s₁.finished = s.finished)
    (nested : s₁.body.nested = s.body.nested) (literals : p₁.literals = p.literals) :
    Adds v s p s₁ p₁ [] where
  cells n := by simp [cells]
  finished := by simp [finished, Nest.allChunks]
  nested := nested
  built := .nil
  offers _ ht := absurd ht List.not_mem_nil
  receiver _ ht := absurd ht List.not_mem_nil
  traced _ ht := absurd ht List.not_mem_nil
  outlined := ⟨[], by simp [literals], .nil⟩

namespace Extends

theorem refl (h : Stands v s p) : Extends v s p s p [] := {
  Adds.none rfl rfl rfl rfl with
  stands := h
  kind := rfl
  inLoop := rfl
  depth := rfl
  arity := rfl
  name := rfl
  symbol := rfl
  scope := List.suffix_rfl
  tables := .refl _
  extended := .refl _
  grown := .refl _
  around := .refl h.placed }

theorem all_grown (h : Extends v s p s₁ p₁ ts) :
    List.Forall₂ Grown (captures (s.body :: s.enclosing)) (captures (s₁.body :: s₁.enclosing)) :=
  .cons h.grown h.around.grown

theorem trans (h : Extends v s p s₁ p₁ ts) (h' : Extends v s₁ p₁ s₂ p₂ us) :
    Extends v s p s₂ p₂ (ts ++ us) where
  stands := h'.stands
  kind := h'.kind.trans h.kind
  inLoop := h'.inLoop.trans h.inLoop
  depth := h'.depth.trans h.depth
  arity := h'.arity.trans h.arity
  name := h'.name.trans h.name
  symbol := h'.symbol.trans h.symbol
  scope := h.scope.trans h'.scope
  tables := h.tables.trans h'.tables
  extended := h.extended.trans h'.extended
  grown := h.grown.trans h'.grown
  around := h.around.trans h'.around h'.grown
  cells n := by
    rw [h'.cells, h.cells]
    simp only [List.mem_append, or_and_right, exists_or, or_assoc]
  finished := by rw [h'.finished, h.finished, Nest.allChunks_append, List.append_assoc]
  nested := by rw [h'.nested, h.nested, List.length_append, Nat.add_assoc]
  built := h.built.append (h.nested ▸ h.name ▸ h'.built)
  offers t ht x hx := by
    rcases List.mem_append.mp ht with ht | ht
    · exact h'.extended.offers (h.offers t ht x hx)
    · exact h'.offers t ht x hx
  receiver t ht := (List.mem_append.mp ht).elim (h.receiver t) (h'.receiver t)
  traced t ht := (List.mem_append.mp ht).elim (h.traced t) (h'.traced t)
  outlined := by
    obtain ⟨os, hos, ht⟩ := h.outlined
    obtain ⟨os', hos', ht'⟩ := h'.outlined
    refine ⟨os ++ os', by rw [hos', hos, List.append_assoc], List.rel_append ?_ ht'⟩
    exact ht.imp fun _ _ hu => hu.grown h'.all_grown

end Extends

end States

section Knowledge

variable {strict : Prop} {k : Knowledge}

theorem Near.mono {inLoop inArm : Bool} {ex : Exits Knowledge} {k' : Knowledge}
    (h : Near inLoop inArm ex k) (hk : k'.Covers k) : Near inLoop inArm ex k' where
  loop hin := by
    obtain ⟨start, stop, he, hs, hs'⟩ := h.loop hin
    exact ⟨start, stop, he, fun f hf => hk f (hs f hf), fun f hf => hk f (hs' f hf)⟩
  arm hin := by
    obtain ⟨fail, he, hf⟩ := h.arm hin
    exact ⟨fail, he, fun f h => hk f (hf f h)⟩

theorem known_covers {scope scope' : List Local} {k' : Knowledge} (h : scope <:+ scope')
    (hk : k'.Covers k) : (known scope' k').Covers (known scope k) := by
  rintro f (hf | ⟨x, hx, rfl⟩)
  · exact .inl (hk f hf)
  · exact .inr ⟨x, h.subset hx, rfl⟩

theorem Still.mono {c c' : Chunk Value} (h : Extended c c') (hk : Still strict c k) :
    Still strict c' k := by
  intro f hf
  rcases hk f hf with hb | ⟨hs, n, path, owner, number, rfl, hn⟩
  · exact .inl hb
  · exact .inr ⟨hs, n, path, owner, number, rfl, h.locals _ _ hn⟩

/-- Nothing of what is known depends on the stack. -/
theorem Still.lasting {c : Chunk Value} (hk : Still strict c k) (scope : List Local) :
    (known scope k).lasting.Covers (known scope k) := by
  intro f hf
  refine ⟨?_, hf⟩
  rcases hf with hf | ⟨x, -, rfl⟩
  · rcases hk f hf with ⟨n, rfl⟩ | ⟨-, n, path, owner, number, rfl, -⟩ <;> trivial
  · trivial

theorem Still.tests {c : Chunk Value} (hk : Still strict c k) (scope : List Local) :
    (known scope k).passing.Covers (known scope k) ∧
      (known scope k).lasting.Covers (known scope k) :=
  ⟨fun f hf => .inl (hk.lasting scope f hf), hk.lasting scope⟩

end Knowledge

section Names

variable {s s₁ s₂ : State} {p p₁ p₂ : Point} {c c' make : Code} {ts us : List Nest}

theorem Names.both (h : Names p c s₁ p₁ ts) (h' : Names p₁ c' s₂ p₂ us)
    (he : Extends v s₁ p₁ s₂ p₂ us)
    (hn : ∀ {α : Type} (found : Instruction → List α) (bound : UInt8 → List α),
      make.gather found bound = c.gather found bound ++ c'.gather found bound) :
    Names p make s₂ p₂ (ts ++ us) := by
  obtain ⟨ms, hms, hc⟩ := h
  obtain ⟨ms', hms', hc'⟩ := h'
  refine ⟨ms ++ ms', by rw [hms', hms, List.append_assoc], fun cs symbol? hcs hs => ?_⟩
  obtain ⟨hnamed, hmade⟩ := hc cs symbol? (Grown.trans_all he.all_grown hcs)
    fun n x hx => hs n x (he.tables.symbols n x hx)
  obtain ⟨hnamed', hmade'⟩ := hc' cs symbol? hcs hs
  rw [List.map_append, List.map_append, ← hnamed, ← hnamed', ← hmade, ← hmade']
  exact ⟨hn _ _, hn _ _⟩

end Names

namespace Assures

variable {m : Mode} {pre post mid : Knowledge → Prop} {σ σ₁ σ₂ : Spot} {c c' : Code}

theorem intro (h : Stands v σ.state σ.point → Assures v m pre post σ c σ₁) :
    Assures v m pre post σ c σ₁ := fun hs => h hs hs

theorem refused (h : c.Refused) : Assures v m pre post σ c σ₁ := fun _ => .inl h

theorem skip (h : ∀ k, pre k → post k) : Assures v m pre post σ .skip σ :=
  fun hs => .inr ⟨[], .refl hs, ⟨[], (List.append_nil _).symm, fun _ _ _ _ => ⟨rfl, rfl⟩⟩, .skip,
    fun _ => rfl,
    fun _ k hk _ hpre => ⟨k, fun _ => id, hk, h k hpre, .skip⟩⟩

/-- The state stays as it is, and so does what is known. -/
theorem steady {s : State} {p : Point} {d e : Int} (mark : Option Mark)
    (hn : Stands v s p → ∀ cs symbol?,
      List.Forall₂ Grown (captures (s.body :: s.enclosing)) cs →
      (∀ n x, s.body.chunk.symbol? n = some x → symbol? n = some x) →
        c.named cs symbol? = mark.toList.map some)
    (hm : c.Moves (Means v.space s.body.chunk []) m.inLoop m.inArm d e)
    (hf : Stands v s p → ∀ ex k, Still v.strict s.body.chunk k →
      Near m.inLoop m.inArm ex (known s.body.scope k) → pre k →
      c.Flows (bindings v.strict v.space s.body.chunk []) ex (known s.body.scope k)
        (known s.body.scope k)) :
    Assures v m pre pre ⟨s, p, d⟩ c ⟨s, p.note mark, e⟩ := by
  intro hs
  have hnote : Stands v s (p.note mark) ∧ (p.note mark).literals = p.literals ∧
      (p.note mark).marks = p.marks ++ mark.toList := by
    cases mark with
    | none => exact ⟨hs, rfl, (List.append_nil _).symm⟩
    | some x => exact ⟨{ hs with }, rfl, rfl⟩
  obtain ⟨hs', hl, hmarks⟩ := hnote
  exact .inr ⟨[], { Extends.refl hs with stands := hs', outlined := ⟨[], by simp [hl], .nil⟩ },
    ⟨_, hmarks, fun cs symbol? hcs hsym => ⟨hn hs cs symbol? hcs hsym, hm.closures_eq_nil⟩⟩, hm,
    fun _ => rfl,
    fun ex k hk hnear hpre => ⟨k, fun _ => id, hk, hpre, hf hs ex k hk hnear hpre⟩⟩

/-- What may be left may be left elsewhere, too, if more may be relied on there. -/
theorem mono {q q' : Prop} {inLoop inArm : Bool} {P Q : Knowledge → Prop}
    (h : Assures v ⟨q, inLoop, inArm⟩ pre post σ c σ₁) (hpre : ∀ k, P k → pre k)
    (hpost : ∀ k, post k → Q k) (hq : q' → q) :
    Assures v ⟨q', inLoop, inArm⟩ P Q σ c σ₁ := by
  intro hs
  rcases h hs with href | ⟨ts, he, hn, hmoves, hquiet, hc⟩
  · exact .inl href
  refine .inr ⟨ts, he, hn, hmoves, fun hq' => hquiet (hq hq'), fun ex k hk hnear hk' => ?_⟩
  obtain ⟨k', hcov, hstill, hQ, hflows⟩ := hc ex k hk hnear (hpre k hk')
  exact ⟨k', hcov, hstill, hpost k' hQ, hflows⟩

/-- What was known before is known behind. -/
theorem frame {P : Knowledge → Prop} (h : Assures v m pre post σ c σ₁)
    (hpre : ∀ k, P k → pre k) : Assures v m P P σ c σ₁ := by
  intro hs
  rcases h hs with href | ⟨ts, he, hn, hmoves, hquiet, hc⟩
  · exact .inl href
  refine .inr ⟨ts, he, hn, hmoves, hquiet, fun ex k hk hnear hk' => ?_⟩
  obtain ⟨k', hcov, -, -, hflows⟩ := hc ex k hk hnear (hpre k hk')
  exact ⟨k, fun _ => id, hk.mono he.extended, hk',
    .weaken (fun _ => id) hflows (known_covers List.suffix_rfl hcov)⟩

/-- What stays known may be relied on behind the code as well. -/
theorem keep (h : Assures v m pre post σ c σ₁)
    (hpre : ∀ k k' : Knowledge, k'.Covers k → pre k → pre k') :
    Assures v m pre (fun k => pre k ∧ post k) σ c σ₁ := by
  intro hs
  rcases h hs with href | ⟨ts, he, hn, hmoves, hquiet, hc⟩
  · exact .inl href
  refine .inr ⟨ts, he, hn, hmoves, hquiet, fun ex k hk hnear hk' => ?_⟩
  obtain ⟨k', hcov, hstill, hpost, hflows⟩ := hc ex k hk hnear hk'
  exact ⟨k', hcov, hstill, ⟨hpre k k' hcov hk', hpost⟩, hflows⟩

/-- The second part may rely on what the first one does to the state. -/
theorem seqWith (h : Assures v m pre mid σ c σ₁)
    (h' : ∀ ts, Extends v σ.state σ.point σ₁.state σ₁.point ts → Assures v m mid post σ₁ c' σ₂) :
    Assures v m pre post σ (c ++ c') σ₂ := by
  intro hs
  rcases h hs with href | ⟨ts, he, hn, hmoves, hquiet, hc⟩
  · exact .inl (.inl href)
  rcases h' ts he he.stands with href | ⟨us, he', hn', hmoves', hquiet', hc'⟩
  · exact .inl (.inr href)
  refine .inr ⟨ts ++ us, he.trans he', hn.both hn' he' fun _ _ => rfl,
    .seq (hmoves.mono fun i _ hi => ?_) (hmoves'.mono fun i _ hi => ?_),
    fun hq => (hquiet' hq).trans (hquiet hq), fun ex k hk hnear hpre => ?_⟩
  · exact hi.mono he'.tables (List.subset_append_left _ _)
  · exact hi.mono (.refl _) (List.subset_append_right _ _)
  obtain ⟨k₁, hcov, hstill, hmid, hflows⟩ := hc ex k hk hnear hpre
  obtain ⟨k₂, hcov', hstill', hpost, hflows'⟩ :=
    hc' ex k₁ hstill (hnear.mono (known_covers he.scope hcov)) hmid
  exact ⟨k₂, fun f hf => hcov' f (hcov f hf), hstill', hpost,
    .seq (hflows.mono (he'.extended.within (List.subset_append_left _ _)))
      (hflows'.mono ((Extended.refl _).within (List.subset_append_right _ _)))⟩

theorem seq (h : Assures v m pre mid σ c σ₁) (h' : Assures v m mid post σ₁ c' σ₂) :
    Assures v m pre post σ (c ++ c') σ₂ := h.seqWith fun _ _ => h'

/-- The state changes before the code, and the scope stays as it is. -/
theorem after {s s₁ : State} {p p₁ : Point} {d : Int} (he : Extends v s p s₁ p₁ [])
    (hscope : s₁.body.scope = s.body.scope) (hmarks : p₁.marks = p.marks)
    (h : Assures v m pre post ⟨s₁, p₁, d⟩ c σ₂) : Assures v m pre post ⟨s, p, d⟩ c σ₂ := by
  intro hs
  rcases h he.stands with href | ⟨us, he', hn', hmoves', hquiet', hc'⟩
  · exact .inl href
  refine .inr ⟨us, he.trans he', ?_, hmoves', fun hq => (hquiet' hq).trans hscope,
    fun ex k hk hnear hpre => ?_⟩
  · obtain ⟨ms, hms, hc⟩ := hn'
    exact ⟨ms, hms.trans (congrArg (· ++ ms) hmarks), hc⟩
  · have hflows := hc' ex k (hk.mono he.extended)
    simp only [hscope] at hflows
    exact hflows hnear hpre

end Assures

namespace Emits

variable {m : Mode} {q q₁ q₂ : Prop} {inLoop inArm : Bool} {σ σ₁ σ₂ : Spot} {s s₁ s₂ : State}
  {p p₁ p₂ : Point} {c c' make : Code} {d e : Int} {i : Instruction} {line : UInt32}
  {loc : Location}

theorem skip : Emits v m σ .skip σ := Assures.skip fun _ => id

/-- Two parts one after another, whatever construct they are parts of. -/
theorem both {m₁ m₂ : Mode} {d₁ e₁ d₂ e₂ : Int} (h : Emits v m₁ ⟨s, p, d₁⟩ c ⟨s₁, p₁, e₁⟩)
    (h' : ∀ ts, Extends v s p s₁ p₁ ts → Emits v m₂ ⟨s₁, p₁, d₂⟩ c' ⟨s₂, p₂, e₂⟩)
    (hr : c.Refused ∨ c'.Refused → make.Refused) (hq : m.quiet → m₁.quiet ∧ m₂.quiet)
    (hn : ∀ {α : Type} (found : Instruction → List α) (bound : UInt8 → List α),
      make.gather found bound = c.gather found bound ++ c'.gather found bound)
    (hm : ∀ V, c.Moves V m₁.inLoop m₁.inArm d₁ e₁ → c'.Moves V m₂.inLoop m₂.inArm d₂ e₂ →
      make.Moves V m.inLoop m.inArm d e)
    (hf : (m₁.quiet → s₁.body.scope = s.body.scope) → (m₂.quiet → s₂.body.scope = s₁.body.scope) →
      s.body.scope <:+ s₁.body.scope → ∀ literals ex k,
      Still v.strict s.body.chunk k → Near m.inLoop m.inArm ex (known s.body.scope k) →
      (∀ ex, Near m₁.inLoop m₁.inArm ex (known s.body.scope k) →
        c.Flows (bindings v.strict v.space s₂.body.chunk literals) ex (known s.body.scope k)
          (known s₁.body.scope k)) →
      (∀ ex, Near m₂.inLoop m₂.inArm ex (known s₁.body.scope k) →
        c'.Flows (bindings v.strict v.space s₂.body.chunk literals) ex (known s₁.body.scope k)
          (known s₂.body.scope k)) →
      make.Flows (bindings v.strict v.space s₂.body.chunk literals) ex (known s.body.scope k)
        (known s₂.body.scope k)) :
    Emits v m ⟨s, p, d⟩ make ⟨s₂, p₂, e⟩ := by
  intro hs
  rcases h hs with href | ⟨ts, he, hname, hmoves, hquiet, hc⟩
  · exact .inl (hr (.inl href))
  rcases h' ts he he.stands with href | ⟨us, he', hname', hmoves', hquiet', hc'⟩
  · exact .inl (hr (.inr href))
  refine .inr ⟨ts ++ us, he.trans he', hname.both hname' he' hn, hm _ ?_ ?_,
    fun hq' => (hquiet' (hq hq').2).trans (hquiet (hq hq').1), fun ex k hk hnear _ => ?_⟩
  · exact hmoves.mono fun i _ hi => hi.mono he'.tables (List.subset_append_left _ _)
  · exact hmoves'.mono fun i _ hi => hi.mono (.refl _) (List.subset_append_right _ _)
  have hk₁ := hk.mono he.extended
  refine ⟨k, fun _ => id, hk₁.mono he'.extended, trivial,
    hf hquiet hquiet' he.scope (ts ++ us) ex k hk hnear (fun ex hnear => ?_) fun ex hnear => ?_⟩
  · obtain ⟨k', hcov, -, -, hflows⟩ := hc ex k hk hnear trivial
    exact .weaken (fun _ => id) (hflows.mono
      (he'.extended.within (List.subset_append_left _ _))) (known_covers List.suffix_rfl hcov)
  · obtain ⟨k', hcov, -, -, hflows⟩ := hc' ex k hk₁ hnear trivial
    exact .weaken (fun _ => id) (hflows.mono
      ((Extended.refl _).within (List.subset_append_right _ _))) (known_covers List.suffix_rfl hcov)

theorem snocWith {done : List Code} (h : Emits v m σ (Code.joinReversed done) σ₁)
    (h' : ∀ ts, Extends v σ.state σ.point σ₁.state σ₁.point ts → Emits v m σ₁ c σ₂) :
    Emits v m σ (Code.joinReversed (c :: done)) σ₂ := by
  refine both h h' (fun hr => ?_) (fun hq => ⟨hq, hq⟩)
    (fun _ _ => Code.gather_joinReversed_cons c done)
    (fun _ hd hc => Code.sequential_moves.snoc hd hc)
    fun _ _ hs _ ex k _ hnear hd hc => (Code.sequential_flows _ ex).snoc (hd ex hnear)
      (hc ex (hnear.mono (known_covers hs fun _ => id)))
  rw [Code.refused_joinReversed] at hr ⊢
  rcases hr with ⟨p, hp, hr⟩ | hr
  · exact ⟨p, List.mem_cons_of_mem _ hp, hr⟩
  · exact ⟨c, List.mem_cons_self, hr⟩

theorem snoc {done : List Code} (h : Emits v m σ (Code.joinReversed done) σ₁)
    (h' : Emits v m σ₁ c σ₂) : Emits v m σ (Code.joinReversed (c :: done)) σ₂ :=
  h.snocWith fun _ _ => h'

/-! ## Instructions -/

/-- A single instruction, with a mark or without one. -/
theorem instr (mark : Option Mark) (hv : Means v.space s.body.chunk [] i)
    (hj : i.distance? = none) (hd : i.inputs ≤ d) (hr : i.opcode = .ret → d = 1)
    (he : d + i.effect = e) (hb : i.isBinder = false)
    (hn : Stands v s p → ∀ cs symbol?,
      List.Forall₂ Grown (captures (s.body :: s.enclosing)) cs →
      (∀ n x, s.body.chunk.symbol? n = some x → symbol? n = some x) →
        i.named? cs symbol? = mark.map some)
    (hneeds : Stands v s p → ∀ k,
      Code.Needs v.strict v.space s.body.chunk [] (known s.body.scope k) i)
    (ha : ∀ c k, (Knowledge.after c k i).Covers k.lasting) :
    Emits v m ⟨s, p, d⟩ (.instr line i) ⟨s, p.note mark, e⟩ := by
  refine Assures.steady mark (fun hs cs symbol? hcs hsym => ?_) (he ▸ .instr hv hj hd hr) ?_
  · simp only [Code.named, Code.gather, hb, hn hs cs symbol? hcs hsym]
    cases mark <;> rfl
  · exact fun hs ex k hk _ _ => .instr ⟨hneeds hs k, fun f hf => ha _ _ f (hk.lasting _ f hf)⟩ hj

end Emits

end Lowering

namespace Instruction

def isPlain (i : Instruction) : Bool :=
  Code.isFree i &&
    match i.opcode with
    | .constant | .getModuleFunction | .getModuleValue | .setModuleValue | .getStruct | .getBuiltin
    | .getMethod | .invokeMethod | .callChunk => false
    | _ => true

theorem means_of_isPlain {i : Instruction} (h : i.isPlain = true) (space : Space)
    (c : Chunk Value) : Lowering.Means space c [] i ∧ i.isBinder = false ∧
      ∀ cs symbol?, i.named? cs symbol? = none := by
  obtain ⟨op, operand⟩ := i
  cases op
  case constant | getModuleFunction | getModuleValue | setModuleValue | getStruct | getBuiltin
    | getMethod | invokeMethod | callChunk | getLocal | setLocal | defineLocal | defineCell
    | getCapture | setCapture | makeClosure | matchCase => cases h
  all_goals exact ⟨trivial, rfl, fun _ _ => rfl⟩

end Instruction

namespace Lowering.Emits

open Code (Knowledge)

variable {v : View} {m : Mode} {q : Prop} {inLoop inArm : Bool} {σ : Spot} {s s₁ s₂ : State}
  {p p₁ p₂ : Point} {c c' : Code} {d e : Int} {i : Instruction} {line : UInt32} {loc : Location}

theorem plain (hi : i.isPlain = true) (hd : i.inputs ≤ d) (hr : i.opcode = .ret → d = 1)
    (he : d + i.effect = e) : Emits v m ⟨s, p, d⟩ (.instr line i) ⟨s, p, e⟩ := by
  obtain ⟨hv, hb, hn⟩ := i.means_of_isPlain hi v.space s.body.chunk
  obtain ⟨hj, hneeds, ha⟩ := Code.runs_of_isFree (Bool.and_eq_true_iff.mp hi).1
  exact instr none hv hj hd hr he hb (fun _ cs symbol? _ _ => hn cs symbol?)
    (fun _ _ => hneeds ..) fun c k f hf => ha c k ▸ hf

/-- An instruction that takes values from the stack and leaves one. -/
theorem reduces (n : Nat) (h : Emits v m σ c ⟨s, p, d + n⟩) (hd : 0 ≤ d) (hi : i.isPlain = true)
    (hn : i.inputs ≤ n) (hr : i.opcode ≠ .ret) (he : n + i.effect = 1) :
    Emits v m σ (c ++ .instr line i) ⟨s, p, d + 1⟩ :=
  h.seq (plain hi (by omega) (fun h => absurd h hr) (by omega))

theorem returned (h : Emits v m σ c ⟨s, p, 1⟩) :
    Emits v m σ (c ++ .instr line ⟨.ret, ()⟩) ⟨s, p, 0⟩ :=
  h.seq (plain rfl (Int.le_refl 1) (fun _ => rfl) rfl)

theorem dropped (h : Emits v m σ c ⟨s, p, 1⟩) :
    Emits v m σ (c ++ .instr line ⟨.pop, ()⟩) ⟨s, p, 0⟩ :=
  h.seq (plain rfl (Int.le_refl 1) (fun h => by cases h) rfl)

/-! ## Branches and jumps -/

theorem ite (hd : 0 ≤ d) (h : Emits v ⟨True, inLoop, inArm⟩ ⟨s, p, d⟩ c ⟨s₁, p₁, e⟩)
    (h' : ∀ ts, Extends v s p s₁ p₁ ts →
      Emits v ⟨True, inLoop, inArm⟩ ⟨s₁, p₁, d⟩ c' ⟨s₂, p₂, e⟩) :
    Emits v ⟨q, inLoop, inArm⟩ ⟨s, p, d + 1⟩ (.ite loc c c') ⟨s₂, p₂, e⟩ := by
  have hback : d = d + 1 - 1 := (Int.add_sub_cancel d 1).symm
  refine both h h' id (fun _ => ⟨trivial, trivial⟩) (fun _ _ => rfl)
    (fun _ hy hn => .ite (by omega) (hback ▸ hy) (hback ▸ hn)) ?_
  intro hs hs' _ literals ex k hk hnear hyes hno
  have hyes := hyes ex hnear
  rw [hs' trivial, hs trivial] at hno ⊢
  rw [hs trivial] at hyes
  exact .ite (hk.tests _) hyes (hno ex hnear) trivial

theorem when (h : Emits v ⟨True, inLoop, inArm⟩ ⟨s, p, 0⟩ c ⟨s₁, p₁, 0⟩) :
    Emits v ⟨q, inLoop, inArm⟩ ⟨s, p, 1⟩ (.when loc c) ⟨s₁, p₁, 0⟩ := by
  refine both h (fun _ _ => .skip (m := ⟨True, inLoop, inArm⟩) (σ := ⟨s₁, p₁, 0⟩))
    (fun hr => hr.elim id False.elim) (fun _ => ⟨trivial, trivial⟩)
    (fun _ _ => (List.append_nil _).symm)
    (fun _ hb _ => .when (Int.le_refl 1) hb) ?_
  intro hs _ _ literals ex k hk hnear hbody _
  have hbody := hbody ex hnear
  rw [hs trivial] at hbody ⊢
  exact .when (hk.tests _) hbody

theorem loop (h : Emits v ⟨True, false, inArm⟩ ⟨s, p, 0⟩ c ⟨s₁, p₁, 1⟩)
    (h' : Emits v ⟨True, true, inArm⟩ ⟨s₁, p₁, 0⟩ c' ⟨s₂, p₂, 0⟩) :
    Emits v ⟨q, inLoop, inArm⟩ ⟨s, p, 0⟩ (.loop loc c c') ⟨s₂, p₂, 0⟩ := by
  refine both h (fun _ _ => h') id (fun _ => ⟨trivial, trivial⟩) (fun _ _ => rfl)
    (fun _ => .loop) ?_
  intro hs hs' _ literals ex k hk hnear hcond hbody
  have hcond := hcond { ex with loop := none }
    ⟨fun hin => absurd hin Bool.false_ne_true, hnear.arm⟩
  rw [hs' trivial, hs trivial] at hbody ⊢
  rw [hs trivial] at hcond
  exact .loop hcond (hk.tests _)
    (hbody _ ⟨fun _ => ⟨_, _, rfl, fun _ => id, fun _ => id⟩, hnear.arm⟩) trivial

theorem leave : Emits v ⟨q, true, inArm⟩ ⟨s, p, 0⟩ (.leave line) ⟨s, p, 0⟩ := by
  refine Assures.steady none (fun _ _ _ _ _ => rfl) .leave fun _ ex k _ hnear _ => ?_
  obtain ⟨start, stop, he, -, hstop⟩ := hnear.loop rfl
  exact .weaken hstop (.leave he trivial) fun _ => id

theorem again : Emits v ⟨q, true, inArm⟩ ⟨s, p, 0⟩ (.again loc) ⟨s, p, 0⟩ := by
  refine Assures.steady none (fun _ _ _ _ _ => rfl) .again fun _ ex k _ hnear _ => ?_
  obtain ⟨start, stop, he, hstart, -⟩ := hnear.loop rfl
  exact .weaken hstart (.again he trivial) fun _ => id

/-- A test may fail where an attempt is around it. -/
theorem require : Emits v ⟨q, inLoop, true⟩ ⟨s, p, 1⟩ (.require line) ⟨s, p, 0⟩ := by
  refine Assures.steady none (fun _ _ _ _ _ => rfl) .require fun _ ex k hk hnear _ => ?_
  obtain ⟨fail, he, hfail⟩ := hnear.arm rfl
  obtain ⟨hpass, hlast⟩ := hk.tests s.body.scope
  exact .require ⟨hpass, fun f hf => hlast f (hfail f hf)⟩ he

theorem arm {armLoc : Location} (h : Emits v ⟨True, inLoop, true⟩ ⟨s, p, 0⟩ c ⟨s₁, p₁, 0⟩)
    (h' : ∀ ts, Extends v s p s₁ p₁ ts →
      Emits v ⟨True, inLoop, inArm⟩ ⟨s₁, p₁, 0⟩ c' ⟨s₂, p₂, 0⟩) :
    Emits v ⟨q, inLoop, inArm⟩ ⟨s, p, 0⟩ (.arm loc armLoc c c') ⟨s₂, p₂, 0⟩ := by
  refine both h h' id (fun _ => ⟨trivial, trivial⟩) (fun _ _ => rfl) (fun _ => .arm) ?_
  intro hs hs' _ literals ex k _ hnear htry hrest
  have htry := htry { ex with fail := some (known s.body.scope k) }
    ⟨hnear.loop, fun _ => ⟨_, rfl, fun _ => id⟩⟩
  rw [hs' trivial, hs trivial] at hrest ⊢
  rw [hs trivial] at htry
  exact .arm htry (hrest ex hnear) trivial

end Lowering.Emits

end StackCode
