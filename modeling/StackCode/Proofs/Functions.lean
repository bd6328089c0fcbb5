import StackCode.Proofs.Parts

/-! # Functions nested in a body

A body is opened with its receiver and its parameters in scope. Once it is finished, its chunk is
assembled, reads what is bound and has the outline of the walk through it. A nested function becomes
a literal of the body around it, which a closure refers to.
-/

namespace StackCode.Lowering

open Code (Knowledge Fact Flows bindings Extended Exits)

variable {v : View} {m : Mode} {s s' : State} {p p' : Point} {d e : Int} {loc : Location}
  {name path : String} {symbol : Symbol} {kind : BodyKind}

/-! ## Parameters -/

def Idle : Code → Prop
  | .skip => True
  | .seq first rest => Idle first ∧ Idle rest
  | _ => False

theorem Idle.emits {c : Code} (h : Idle c) : Emits v m ⟨s, p, d⟩ c ⟨s, p, d⟩ := by
  induction c with
  | skip => exact .skip
  | seq first rest ih ih' => exact (ih h.1).seq (ih' h.2)
  | _ => exact h.elim

theorem declareAll_cases (ctx : Context) (loc : Location) (names : List String)
    (hs : s.body.chunk.locals.size ≤ maxLocals) :
    (declareAll loc names ctx s).1.Refused ∨
      Idle (declareAll loc names ctx s).1 ∧
      (declareAll loc names ctx s).2 = names.foldl State.declared s ∧
      s.body.chunk.locals.size + names.length ≤ maxLocals := by
  induction names generalizing s with
  | nil => exact .inr ⟨trivial, rfl, hs⟩
  | cons name names ih =>
    rw [declareAll, bind_run, reserve?_run]
    by_cases hlt : s.body.chunk.locals.size < maxLocals
    · rw [if_pos hlt]
      have hsize : (s.declared name).body.chunk.locals.size = s.body.chunk.locals.size + 1 :=
        Array.size_push _
      rcases ih (s := s.declared name) (by omega) with href | ⟨hidle, hrun, hle⟩
      · exact .inl (.inr href)
      · refine .inr ⟨⟨trivial, hidle⟩, hrun, ?_⟩
        rw [List.length_cons]
        omega
    · rw [if_neg hlt]
      exact .inl (.inl trivial)

def paramScope (n : Nat) (scope : List Local) : List String → List Local
  | [] => scope
  | name :: rest => paramScope (n + 1) (⟨name, UInt8.ofNat n⟩ :: scope) rest

theorem suffix_paramScope (names : List String) (n : Nat) (scope : List Local) :
    scope <:+ paramScope n scope names := by
  induction names generalizing n scope with
  | nil => exact List.suffix_rfl
  | cons name names ih => exact (List.suffix_cons _ _).trans (ih ..)

theorem locals_foldl_declared (names : List String) (s : State) :
    (names.foldl State.declared s).body.chunk.locals.toList =
      s.body.chunk.locals.toList ++ names := by
  induction names generalizing s with
  | nil => exact (List.append_nil _).symm
  | cons name names ih =>
    rw [List.foldl_cons, ih, State.declared, Array.toList_push, List.append_assoc,
      List.singleton_append]

theorem size_foldl_declared (names : List String) (s : State) :
    (names.foldl State.declared s).body.chunk.locals.size =
      s.body.chunk.locals.size + names.length := by
  rw [← Array.length_toList, locals_foldl_declared, List.length_append, Array.length_toList]

/-- Declaring names changes nothing but the slots and the scope. -/
theorem foldl_declared_eq (names : List String) (s : State) : ∃ locals,
    names.foldl State.declared s = { s with body := { s.body with
      chunk := { s.body.chunk with locals }
      scope := paramScope s.body.chunk.locals.size s.body.scope names } } := by
  induction names generalizing s with
  | nil => exact ⟨_, rfl⟩
  | cons name names ih =>
    obtain ⟨locals, hfold⟩ := ih (s.declared name)
    rw [State.declared, Array.size_push] at hfold
    exact ⟨locals, hfold⟩

theorem Agrees.foldl_declared {names : List String} (h : Agrees v s p)
    (hs : s.body.chunk.locals.size + names.length ≤ maxLocals) :
    Agrees v (names.foldl State.declared s) (p.declareAll names) := by
  induction names generalizing s p with
  | nil => exact h
  | cons name names ih =>
    rw [List.length_cons] at hs
    refine ih (h.declared (by omega) name) ?_
    rw [State.declared, Array.size_push]
    omega

theorem Point.declareAll_outline (names : List String) (p : Point) :
    (p.declareAll names).marks = p.marks ∧ (p.declareAll names).literals = p.literals := by
  induction names generalizing p with
  | nil => exact ⟨rfl, rfl⟩
  | cons name names ih => exact ih (p.declare name)

def Point.declareParams (params : List Param) (p : Point) : Point :=
  (p.declareAll (if p.kind.hasReceiver then ["self"] else [])).declareAll (params.map (·.name))

def firstNames (kind : BodyKind) (params : List Param) : List String :=
  (if kind.hasReceiver then ["self"] else []) ++ params.map (·.name)

def State.taking (s : State) (arity : UInt8) : State :=
  { s with body := { s.body with chunk := { s.body.chunk with arity } } }

theorem foldl_declared_taking (names : List String) (s : State) (arity : UInt8) :
    names.foldl State.declared (s.taking arity) = (names.foldl State.declared s).taking arity := by
  induction names generalizing s with
  | nil => rfl
  | cons name names ih => exact ih (s.declared name)

/-- There are too many parameters, or they are declared behind the receiver. -/
theorem declareParams_cases (ctx : Context) (hb : s.body = Body.empty kind name symbol path)
    (params : List Param) (loc : Location) :
    (declareParams params loc ctx s).1.Refused ∨
      Idle (declareParams params loc ctx s).1 ∧ params.length ≤ maxArguments ∧
      (firstNames kind params).length ≤ maxLocals ∧
      (declareParams params loc ctx s).2 =
        (firstNames kind params).foldl State.declared (s.taking (UInt8.ofNat params.length)) := by
  have hkind : s.body.kind = kind := congrArg (·.kind) hb
  have hzero : s.body.chunk.locals.size = 0 := congrArg (·.chunk.locals.size) hb
  rw [declareParams, bind_run, get_run, hkind, firstNames]
  dsimp only
  generalize (if kind.hasReceiver then ["self"] else []) = receiver
  rw [bind_run]
  by_cases hlen : params.length > maxArguments
  · simp only [hlen, if_true]
    exact .inl (.inl (.inr trivial))
  simp only [hlen, if_false, Nat.min_eq_left (Nat.not_lt.mp hlen)]
  rcases declareAll_cases ctx loc receiver (hzero ▸ Nat.zero_le _) with href | ⟨hidle, hrun, hle⟩
  · exact .inl (.inl (.inl href))
  generalize declareAll loc receiver ctx s = r at hidle hrun ⊢
  obtain ⟨code, s₁⟩ := r
  cases hrun
  rw [← size_foldl_declared] at hle
  change (code ++ .skip ++ (declareAll loc (params.map (·.name)) ctx
    ((receiver.foldl State.declared s).taking (UInt8.ofNat params.length))).1).Refused ∨
      Idle (code ++ .skip ++ (declareAll loc (params.map (·.name)) ctx
        ((receiver.foldl State.declared s).taking (UInt8.ofNat params.length))).1) ∧ _ ∧ _ ∧
      (declareAll loc (params.map (·.name)) ctx
        ((receiver.foldl State.declared s).taking (UInt8.ofNat params.length))).2 = _
  rcases declareAll_cases ctx loc (params.map (·.name))
    (s := (receiver.foldl State.declared s).taking (UInt8.ofNat params.length)) hle with
    href | ⟨hidle', hrun', hle'⟩
  · exact .inl (.inr href)
  refine .inr ⟨⟨⟨hidle, trivial⟩, hidle'⟩, Nat.not_lt.mp hlen, ?_, ?_⟩
  · rw [List.length_append, ← Nat.zero_add receiver.length, ← hzero, ← size_foldl_declared]
    exact hle'
  · rw [List.foldl_append, foldl_declared_taking, hrun']

structure Opened (v : View) (s₀ s : State) (p : Point) (names : List String) : Prop
    extends Stands v s p where
  enclosing : s.enclosing = s₀.enclosing
  finished : s.finished = s₀.finished
  bodyKind : s.body.kind = s₀.body.kind
  name : s.body.chunk.name = s₀.body.chunk.name
  symbol : s.body.chunk.symbol = s₀.body.chunk.symbol
  inLoop : s.body.inLoop = false
  cells : s.body.cells = []
  nested : s.body.nested = 0
  marks : p.marks = []
  literals : p.literals = []
  locals : s.body.chunk.locals.toList =
    (if s.body.chunk.hasReceiver then ["self"] else []) ++ names
  arity : s.body.chunk.arity.toNat = names.length

theorem Opened.size {s₀ : State} {names : List String} (h : Opened v s₀ s p names) :
    s.body.chunk.locals.size =
      (if s.body.chunk.hasReceiver then 1 else 0) + s.body.chunk.arity.toNat := by
  rw [← Array.length_toList, h.locals, h.arity, List.length_append]
  split <;> rfl

theorem agrees_empty (hb : s.body = Body.empty kind name symbol path)
    (hp : AllPlaced v.strict v.space s.enclosing) :
    Agrees v s { kind, outer := scopes s.enclosing } := by
  obtain ⟨body, enclosing, finished⟩ := s
  cases hb
  exact {
    placed := ⟨{
      code := rfl
      plain := fun x hx => absurd hx (Array.not_mem_empty x)
      constants := Nat.zero_le _
      symbols := Nat.zero_le _
      size := Nat.zero_le _
      scope := fun _ hx => absurd hx List.not_mem_nil
      receiver := rfl
      cells := fun _ hn => absurd hn List.not_mem_nil
      room := Nat.zero_le _
      offers := fun x hx => absurd hx (Array.not_mem_empty x)
      leads := fun i x hx => by simp at hx
      boxed := fun x hx => absurd hx (Array.not_mem_empty x)
      declares := fun _ _ hx => absurd hx (Array.not_mem_empty _) }, hp⟩
    kind := rfl
    scope := rfl
    slots := rfl
    depth := rfl
    outer := rfl }

theorem opened_empty (hk : kind.hasReceiver = false)
    (hb : s.body = Body.empty kind name symbol path)
    (hp : AllPlaced v.strict v.space s.enclosing) :
    Opened v s s { kind, outer := scopes s.enclosing } [] := by
  have hkind : s.body.kind = kind := congrArg (·.kind) hb
  exact { agrees_empty hb hp with
    self := fun hr => absurd (hk.symm.trans (hkind ▸ hr)) Bool.false_ne_true
    enclosing := rfl
    finished := rfl
    bodyKind := rfl
    name := rfl
    symbol := rfl
    inLoop := congrArg (·.inLoop) hb
    cells := congrArg (·.cells) hb
    nested := congrArg (·.nested) hb
    marks := rfl
    literals := rfl
    locals := by simp [hb, Body.empty, hk]
    arity := by simp [hb, Body.empty] }

/-- The parameters of a body that has just been opened are in scope, in the slots behind the
receiver. -/
theorem declareParams_opened (hb : s.body = Body.empty kind name symbol path)
    (hp : AllPlaced v.strict v.space s.enclosing) (params : List Param) (loc : Location) :
    (declareParams params loc v.ctx s).1.Refused ∨ Idle (declareParams params loc v.ctx s).1 ∧
      Opened v s (declareParams params loc v.ctx s).2
        (Point.declareParams params { kind, outer := scopes s.enclosing })
        (params.map (·.name)) := by
  have hkind : s.body.kind = kind := congrArg (·.kind) hb
  rcases declareParams_cases v.ctx hb params loc with href | ⟨hidle, hlen, hle, hrun⟩
  · exact .inl href
  have hempty : Agrees v s { kind, outer := scopes s.enclosing } := agrees_empty hb hp
  have hagrees : Agrees v (s.taking (UInt8.ofNat params.length)) _ :=
    { hempty with placed := ⟨{ hempty.placed.1 with }, hempty.placed.2⟩ }
  have hzero : (s.taking (UInt8.ofNat params.length)).body.chunk.locals.size = 0 :=
    congrArg (·.chunk.locals.size) hb
  have hscope : (s.taking (UInt8.ofNat params.length)).body.scope = [] := congrArg (·.scope) hb
  have hopened : Agrees v ((firstNames kind params).foldl State.declared _) _ :=
    hagrees.foldl_declared (by omega)
  have hpoint : Point.declareAll (firstNames kind params) { kind, outer := scopes s.enclosing } =
      Point.declareParams params { kind, outer := scopes s.enclosing } := List.foldl_append
  have hlocals := locals_foldl_declared (firstNames kind params)
    (s.taking (UInt8.ofNat params.length))
  obtain ⟨locals, hfold⟩ := foldl_declared_eq (firstNames kind params)
    (s.taking (UInt8.ofNat params.length))
  rw [hpoint] at hopened
  rw [hzero, hscope] at hfold
  rw [hrun]
  rw [hfold] at hopened hlocals ⊢
  refine .inr ⟨hidle, { hopened with
    self := fun hr => ?_
    enclosing := rfl
    finished := rfl
    bodyKind := rfl
    name := rfl
    symbol := rfl
    inLoop := congrArg (·.inLoop) hb
    cells := congrArg (·.cells) hb
    nested := congrArg (·.nested) hb
    marks := ?_
    literals := ?_
    locals := ?_
    arity := ?_ }⟩
  · have hr : kind.hasReceiver = true := hkind ▸ hr
    refine ⟨⟨"self", 0⟩, ?_, rfl⟩
    rw [firstNames, hr]
    exact (suffix_paramScope _ 1 _).subset List.mem_cons_self
  · rw [Point.declareParams, (Point.declareAll_outline _ _).1, (Point.declareAll_outline _ _).1]
  · rw [Point.declareParams, (Point.declareAll_outline _ _).2, (Point.declareAll_outline _ _).2]
  · have hreceiver : s.body.chunk.hasReceiver = kind.hasReceiver :=
      hempty.placed.1.receiver.trans (congrArg _ hkind)
    change _ = (if s.body.chunk.hasReceiver then ["self"] else []) ++ _
    rw [hreceiver]
    rwa [Array.eq_empty_of_size_eq_zero hzero] at hlocals
  · rw [List.length_map]
    exact toNat_slot (Nat.lt_of_le_of_lt hlen (by decide))

/-! ## Finished bodies -/

/-- The chunk of a finished body, with the state behind it and the literals in it. -/
structure Done (v : View) (s₀ : State) (c : Chunk Value) (s : State) (p : Point)
    (literals : List Nest) : Prop where
  placed : AllPlaced v.strict v.space (s.body :: s.enclosing)
  around : Around s.body.chunk.captures s₀.enclosing s.enclosing
  finished : s.finished.toList = s₀.finished.toList ++ Nest.allChunks literals
  name : c.name = s₀.body.chunk.name
  symbol : c.symbol = s₀.body.chunk.symbol
  receiver : c.hasReceiver = s₀.body.kind.hasReceiver
  captures_eq : c.captures = s.body.chunk.captures
  assembled : Assembled v.space c literals
  built : AllBuilt v.space c.name 0 literals
  traced : (Nest.node c literals).Traced v.strict v.space
  outlined : (Nest.node c literals).Outlined (captures s.enclosing) p.outline

theorem forall₂_get {α β : Type} {R : α → β → Prop} {l : List α} {m : List β}
    (h : List.Forall₂ R l m) {k : Nat} {a : α} {b : β} (ha : l[k]? = some a) (hb : m[k]? = some b) :
    R a b := by
  obtain ⟨hk, rfl⟩ := List.getElem?_eq_some_iff.mp ha
  obtain ⟨hk', rfl⟩ := List.getElem?_eq_some_iff.mp hb
  exact (List.forall₂_iff_get.mp h).2 k hk hk'

section Finish

variable {s₀ : State} {names : List String} {code : Code} {literals : List Nest}

theorem Opened.traced (ho : Opened v s₀ s p names) (he : Extends v s p s' p' literals)
    (hf : ∃ k, code.Flows (bindings v.strict v.space s'.body.chunk literals) {}
      (known s.body.scope fun _ => False) k)
    (hends : code.Ends) (hfits : code.Fits false false {} 0) :
    (Nest.node (code.layout s'.body.cells s'.body.chunk) literals).Traced v.strict v.space := by
  obtain ⟨k, hflows⟩ := hf
  obtain ⟨lines, hlay⟩ := Code.adds_layout s'.body.cells code s'.body.chunk
  have hplaced := he.stands.placed.1
  have hext : Extended s'.body.chunk (code.layout s'.body.cells s'.body.chunk) := by
    rw [hlay]
    exact ⟨rfl, fun _ _ => id, Nat.le_refl _, fun _ _ => id⟩
  have hconstants := congrArg (·.constants) hlay
  refine .node ⟨?_, fun hs x hx => hplaced.declares hs x (hconstants ▸ hx),
    fun t ht x hx => hext.offers (he.offers t ht x hx), he.receiver⟩ he.traced
  have hentry : (Code.entry (code.layout s'.body.cells s'.body.chunk)).Covers
      (known s.body.scope fun _ => False) := by
    rintro f (hf | ⟨x, hx, rfl⟩)
    · exact hf.elim
    · refine ⟨x.slot, rfl, ?_⟩
      rw [hext.receiver, congrArg (·.arity) hlay, he.extended.receiver, he.arity]
      exact Nat.lt_of_lt_of_le (Array.getElem?_eq_some_iff.mp (ho.placed.1.scope x hx)).1
        (Nat.le_of_eq ho.size)
  exact (Flows.weaken hentry (hflows.mono (hext.within fun _ => id)) fun _ => id).exists_explains
    hplaced.code hfits (Code.runs_binder_of_open fun n hn => hext.isOpen (hplaced.cells n hn)) hends

/-- The chunk of a finished body has the outline of the walk through it, and makes closures of the
literals in their order. -/
theorem Opened.outlined (ho : Opened v s₀ s p names) (he : Extends v s p s' p' literals)
    (hn : Names p code s' p' literals)
    (hm : code.Moves (Means v.space s'.body.chunk literals) false false 0 e) (hends : code.Ends)
    (hfits : code.Fits false false {} 0) :
    let c := code.layout s'.body.cells s'.body.chunk
    (Nest.node c literals).Outlined (captures s'.enclosing) p'.outline ∧
      c.instructions.filterMap (·.2.made? c.symbol?) = literals.map (some ·.chunk.symbol) := by
  obtain ⟨ms, hms, hnamed⟩ := hn
  obtain ⟨us, hus, hall⟩ := he.outlined
  obtain ⟨lines, hlay⟩ := Code.adds_layout s'.body.cells code s'.body.chunk
  obtain ⟨l, hl, htraces⟩ := Code.traces_layout he.stands.placed.1.code hfits
    (fun _ hj hi => hi.refers hj) (means_binder v.space s'.body.chunk literals s'.body.cells) hm
    hends
  have hins : (code.layout s'.body.cells s'.body.chunk).instructions =
      code.placed s'.body.cells {} 0 := by rw [htraces.instructions, hl]
  have hcaptures := congrArg (·.captures) hlay
  have hsymbols : (code.layout s'.body.cells s'.body.chunk).symbol? = s'.body.chunk.symbol? := by
    rw [hlay]
    rfl
  obtain ⟨hnamed, hmade⟩ := hnamed _ s'.body.chunk.symbol? (Grown.refl_all _) fun _ _ => id
  have hnone : none ∉ code.named (captures (s'.body :: s'.enclosing)) s'.body.chunk.symbol? := by
    rw [hnamed]
    simp
  have hcell : ∀ n, n ∈ s'.body.cells ↔ ∃ t ∈ literals, t.Captures n := by
    intro n
    rw [he.cells, ho.cells]
    simp
  rw [ho.marks, List.nil_append] at hms
  rw [ho.literals, List.nil_append] at hus
  rw [Point.outline, hms, hus]
  refine ⟨.node ?_ (fun o n hn t ht hc => ?_) (fun o n hn => ?_) hall.length_eq
    fun k t u ht hu => ?_, ?_⟩
  · rw [hins, hcaptures, hsymbols]
    exact (Code.filterMap_placed hnone).trans hnamed
  · rw [hins] at hn
    exact (Code.mem_cells_of_placed hnone hn n).1 rfl ((hcell n).mpr ⟨t, ht, hc⟩)
  · rw [hins] at hn
    exact (hcell n).mp ((Code.mem_cells_of_placed hnone hn n).2 rfl)
  · rw [hcaptures]
    exact forall₂_get hall ht hu
  · rw [hins, hsymbols]
    exact Code.filterMap_made?_placed.trans hmade

theorem Opened.done (ho : Opened v s₀ s p names)
    (h : Emits v ⟨False, false, false⟩ ⟨s, p, 0⟩ code ⟨s', p', e⟩) (hends : code.Ends)
    (hp : code.problems path = []) :
    ∃ literals, Done v s₀ (code.layout s'.body.cells s'.body.chunk) s' p' literals := by
  have hfits := Code.fits_of_problems_eq_nil hp
  rcases h ho.toStands with href | ⟨literals, he, hn, hm, -, hf⟩
  · exact absurd href hfits.not_refused
  obtain ⟨lines, hlay⟩ := Code.adds_layout s'.body.cells code s'.body.chunk
  obtain ⟨k, -, -, -, hflows⟩ := hf {} (fun _ => False) (fun _ hf => hf.elim)
    ⟨fun h => absurd h Bool.false_ne_true, fun h => absurd h Bool.false_ne_true⟩ trivial
  have hname : (code.layout s'.body.cells s'.body.chunk).name = s₀.body.chunk.name :=
    (congrArg (·.name) hlay).trans (he.name.trans ho.name)
  have hplaced := he.stands.placed.1
  obtain ⟨houtlined, hmade⟩ := ho.outlined he hn hm hends hfits
  refine ⟨literals, {
    placed := he.stands.placed
    around := ho.enclosing ▸ he.around
    finished := ho.finished ▸ he.finished
    name := hname
    symbol := (congrArg (·.symbol) hlay).trans (he.symbol.trans ho.symbol)
    receiver := ?_
    captures_eq := congrArg (·.captures) hlay
    assembled := ⟨hmade, s'.body.chunk, s'.body.cells, code, e, hplaced.code, hplaced.plain, hfits,
      hm, hends, rfl⟩
    built := ?_
    traced := ho.traced he ⟨_, hflows⟩ hends hfits
    outlined := houtlined }⟩
  · rw [congrArg (·.hasReceiver) hlay, ← ho.bodyKind, ← he.kind]
    exact hplaced.receiver
  · have hb := he.built
    rw [ho.nested, ho.name] at hb
    rw [hname]
    exact hb

end Finish

/-! ## Nested functions -/

def State.counted (s : State) : State :=
  { s with body := { s.body with nested := s.body.nested + 1 } }

def literalBody (ctx : Context) (s : State) (label : String) (params : List Param) : Body :=
  let name := s.body.chunk.name ++ "." ++ label
  .empty .function name (.function ctx.space.module (name ++ "#" ++ toString (s.body.nested + 1))
    (params.map (·.ty.text))) ctx.path

theorem nest_run (ctx : Context) (inner : Body) (part : Build Code) :
    nest inner part ctx s =
      let (code, s₁) := part ctx { s with body := inner, enclosing := s.body :: s.enclosing }
      let (problems, finished) := match s₁.body.finish code with
        | .ok chunk => ([], s₁.finished.push chunk)
        | .error problems => (problems, s₁.finished)
      match s₁.enclosing with
      | outer :: enclosing =>
        (Code.join (problems.map .report), { body := outer, enclosing, finished })
      | [] => (Code.join (problems.map .report), { s₁ with finished }) := rfl

/-- A nested body refuses the one around it, or its chunk is finished. -/
theorem nest_cases (ctx : Context) (inner : Body) (part : Build Code) :
    let run := part ctx { s with body := inner, enclosing := s.body :: s.enclosing }
    (nest inner part ctx s).1.Refused ∨ run.1.problems run.2.body.chunk.path = [] ∧
      ∀ o os, run.2.enclosing = o :: os → nest inner part ctx s =
        (.skip, { body := o, enclosing := os, finished :=
          run.2.finished.push (run.1.layout run.2.body.cells run.2.body.chunk) }) := by
  rw [nest_run]
  generalize part ctx { s with body := inner, enclosing := s.body :: s.enclosing } = run
  obtain ⟨code, s₁⟩ := run
  dsimp only
  cases hp : code.problems s₁.body.chunk.path with
  | cons p ps =>
    refine .inl ?_
    simp only [Body.finish, hp]
    cases s₁.enclosing <;> exact refused_join_reports (List.cons_ne_nil _ _)
  | nil =>
    refine .inr ⟨rfl, fun o os henc => ?_⟩
    simp only [Body.finish, hp, henc]
    rfl

theorem nestFunction_run {ctx : Context} {label : String} {params : List Param}
    {body : Build Code} :
    nestFunction label params loc body ctx s =
      let run := nest (literalBody ctx s label params)
        (do return (← declareParams params loc) ++ (← body)) ctx s.counted
      ((run.1, (literalBody ctx s label params).chunk.symbol), run.2) := rfl

/-- The build refuses the body, or adds a literal to it and gives the symbol of the literal. -/
def AddsLiteral (v : View) (function : Build (Code × Symbol)) (walk : Point → Point) : Prop :=
  ∀ s p, Stands v s p → (function v.ctx s).1.1.Refused ∨
    ∃ t, (function v.ctx s).1.1 = .skip ∧ t.chunk.symbol = (function v.ctx s).1.2 ∧
      Extends v s p (function v.ctx s).2 (walk p) [t] ∧
      (function v.ctx s).2.body.scope = s.body.scope ∧ (walk p).marks = p.marks

theorem nestFunction_adds {label : String} {params : List Param} {body : Build Code}
    {walk : Point → Point}
    (h : ∀ s₀ p₀, s₀.body.inLoop = false →
      Lowers v ⟨False, false, false⟩ body s₀ p₀ (walk p₀) 0 0)
    (hends : ∀ s₀, (body v.ctx s₀).1.Ends) :
    AddsLiteral v (nestFunction label params loc body) (Point.nest params walk) := by
  intro s p hs
  let s₀ : State := { s.counted with
    body := literalBody v.ctx s label params, enclosing := s.counted.body :: s.enclosing }
  let opened := declareParams params loc v.ctx s₀
  let run := body v.ctx opened.2
  let c := (opened.1 ++ run.1).layout run.2.body.cells run.2.body.chunk
  rw [nestFunction_run]
  rcases nest_cases v.ctx (s := s.counted) (literalBody v.ctx s label params)
    (do return (← declareParams params loc) ++ (← body)) with href | ⟨hprob, hrun⟩
  · exact .inl href
  change (opened.1 ++ run.1).problems run.2.body.chunk.path = [] at hprob
  have hcounted : AllPlaced v.strict v.space s₀.enclosing := ⟨{ hs.placed.1 with }, hs.placed.2⟩
  rcases declareParams_opened (s := s₀) rfl hcounted params loc with hr | ⟨hidle, ho⟩
  · exact absurd (.inl hr) (Code.fits_of_problems_eq_nil hprob).not_refused
  have houter : scopes s₀.enclosing = p.scope :: p.outer := hs.scopes_eq
  rw [houter] at ho
  obtain ⟨literals, hd⟩ := ho.done (hidle.emits.seq (h _ _ ho.inLoop))
    (Code.ends_seq.mpr (.inr (hends _))) hprob
  obtain ⟨o, os, henc⟩ : ∃ o os, run.2.enclosing = o :: os := by
    cases henc : run.2.enclosing with
    | nil => cases henc ▸ (hd.around : Around _ (_ :: _) run.2.enclosing)
    | cons o os => exact ⟨o, os, rfl⟩
  have hplaced : AllPlaced v.strict v.space (run.2.body :: o :: os) := henc ▸ hd.placed
  have houtlined : (Nest.node c literals).Outlined (captures (o :: os)) _ := henc ▸ hd.outlined
  have haround : Around run.2.body.chunk.captures (s.counted.body :: s.enclosing) (o :: os) :=
    henc ▸ hd.around
  rw [hrun o os henc]
  cases haround with
  | cons bare grown cells outer =>
    have hnested : o.nested = s.body.nested + 1 := congrArg (·.nested) bare
    have hsymbol : c.symbol = (literalBody v.ctx s label params).chunk.symbol := hd.symbol
    have hcaptures : c.captures = run.2.body.chunk.captures := hd.captures_eq
    refine .inr ⟨.node c literals, rfl, hsymbol, .of_bare hs hplaced.2 ?_ grown outer {
      cells := fun n => ?_
      finished := ?_
      nested := hnested
      built := fun k t hk => ?_
      offers := fun t ht x hx => ?_
      receiver := fun t ht => ?_
      traced := fun t ht => ?_
      outlined := ⟨_, rfl, .cons houtlined .nil⟩ }, congrArg (·.scope) bare, rfl⟩
    · rw [bare, hnested]
      rfl
    · simp only [cells n, List.mem_singleton, exists_eq_left, Nest.Captures, Nest.chunk, hcaptures]
      rfl
    · have hf : run.2.finished.toList = s.finished.toList ++ Nest.allChunks literals := hd.finished
      change (run.2.finished.push c).toList = _
      rw [Array.toList_push, hf]
      simp [Nest.allChunks, Nest.chunks]
    · rcases k with _ | k
      · cases hk
        have hnumber : c.symbol = .function v.space.module
            (c.name ++ "#" ++ toString (s.body.nested + 0 + 1)) (params.map (·.ty.text)) := by
          rw [hd.name]
          exact hsymbol
        exact .node hd.name hnumber hd.assembled fun k t hk => by simpa using hd.built k t hk
      · cases hk
    · cases List.mem_singleton.mp ht
      obtain ⟨_, ho, hoffers⟩ := hplaced.1.offers x (hcaptures ▸ hx)
      cases ho
      exact hoffers
    · cases List.mem_singleton.mp ht
      exact hd.receiver
    · cases List.mem_singleton.mp ht
      exact hd.traced

variable {function : Build (Code × Symbol)} {walk : Point → Point}

theorem closure_pushes (h : AddsLiteral v function walk) :
    Pushes v (closure function loc) walk := by
  intro m s p d hd hs
  have hrun : closure function loc v.ctx s = ((function v.ctx s).1.1 ++
      (refer (function v.ctx s).1.2 loc (⟨.makeClosure, ·⟩) v.ctx (function v.ctx s).2).1,
      (refer (function v.ctx s).1.2 loc (⟨.makeClosure, ·⟩) v.ctx (function v.ctx s).2).2) := rfl
  rw [hrun]
  rcases h s p hs with href | ⟨t, hcode, ht, he, hscope, hmarks⟩
  · exact .inl (.inl href)
  rcases refer_cases (function v.ctx s).1.2 loc (⟨.makeClosure, ·⟩) he.stands with
    href | ⟨n, hinstr, he', hscope', hn⟩
  · exact .inl (.inr href)
  rw [hcode, hinstr]
  refine .inr ⟨[t], he.trans he', ⟨[], by simp [hmarks], fun _ _ _ hs =>
      ⟨rfl, congrArg ([·]) ((hs n _ hn).trans (congrArg some ht.symm))⟩⟩,
    .seq .skip (.instr ⟨_, hn, t, List.mem_singleton_self t, ht⟩ rfl hd (by simp)),
    fun _ => hscope'.trans hscope, fun ex k hk _ _ =>
      ⟨k, fun _ => id, (hk.mono he.extended).mono he'.extended, trivial, ?_⟩⟩
  dsimp only
  rw [hscope', hscope]
  refine .seq .skip (.instr ⟨⟨t, List.mem_singleton_self t, ?_⟩, fun f hf => ?_⟩ rfl)
  · rw [ht]
    exact hn
  · exact hk.lasting _ f hf

theorem bindClosure_lowers (h : AddsLiteral v function walk) (hd : 0 ≤ d) (hq : ¬ m.quiet) :
    Lowers v m (bindClosure name function loc) s p (p.bindFunction name walk) d (d + 1) := by
  refine Assures.intro fun hs => ?_
  rw [bindClosure, bind_run]
  rcases define_cases name loc hs with ⟨href, hnone⟩ | ⟨hsize, hrun⟩
  · generalize define name loc v.ctx s = r at href hnone ⊢
    obtain ⟨⟨bind, slot⟩, s₁⟩ := r
    cases hnone
    exact .refused (.inr href)
  · rw [hrun]
    have hnone : Emits v m ⟨s, p, d⟩ (.instr loc.line ⟨.pushNone, ()⟩) ⟨s, p, d + 1⟩ :=
      .plain rfl hd (by simp) rfl
    have hbind : Assures v m (fun _ => True) (Untested (UInt8.ofNat p.slots)) ⟨s, p, d + 1⟩
        (.bind loc.line (UInt8.ofNat p.slots)) ⟨s.declared name, p.bind name, d + 1 - 1⟩ :=
      bind_assures hsize (by omega) hq name
    rw [Int.add_sub_cancel] at hbind
    have hclosure : Lowers v m (closure function loc) (s.declared name) (p.bind name) _ d (d + 1) :=
      closure_pushes h m (s.declared name) (p.bind name) d hd
    exact ((hnone.seq hbind).seq (hclosure.frame fun _ _ => trivial)).seq
      ((setLocal_assures (by omega) fun _ _ => id).mono (fun _ => id) (fun _ _ => trivial) id)

end StackCode.Lowering
