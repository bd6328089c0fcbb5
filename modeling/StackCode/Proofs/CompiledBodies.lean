import StackCode.Proofs.Trees

/-! # Compiled bodies

Whatever tree a body is compiled from, the chunk that comes out of it and those of the functions
nested in it pass the check of the stack, are decoded to their last byte and jump to nothing but
instructions. They bind what they read, and name what the walk through the tree names.
-/

namespace StackCode

def Chunk.paramNames (c : Chunk Value) : List String :=
  (c.locals.toList.drop (if c.hasReceiver then 1 else 0)).take c.arity.toNat

namespace Lowering

variable {strict : Prop} {space : Space} {r : Compiled} {literals : List Nest} {symbol : Symbol}
  {path : String} {v : View} {m : Mode} {s : State} {p : Point} {loc : Location}

/-! ## Results of bodies -/

/-- The result of a body of the given name and symbol, in which the given literals stand. -/
structure Compiled.Of (space : Space) (name : String) (symbol : Symbol) (r : Compiled)
    (literals : List Nest) : Prop where
  named : r.chunk.name = name
  symbol : r.chunk.symbol = symbol
  assembled : Assembled space r.chunk literals
  built : AllBuilt space r.chunk.name 0 literals
  nested : r.nested = Nest.allChunks literals

theorem Compiled.Of.sound {name : String} (h : r.Of space name symbol literals) :
    (Nest.node r.chunk literals).Sound space := ⟨h.assembled, h.built⟩

/-- Every chunk that comes out of a body is that of the body or of a literal in it. -/
theorem Compiled.Of.exists_holds {name : String} (h : r.Of space name symbol literals)
    {c : Chunk Value} (hc : c ∈ r.chunk :: r.nested) :
    ∃ body, (Nest.node r.chunk literals).Holds body ∧ body.chunk = c := by
  rcases List.mem_cons.mp hc with rfl | hc
  · exact ⟨_, .self _, rfl⟩
  · rw [h.nested] at hc
    obtain ⟨t, ht, hc⟩ := Nest.mem_allChunks.mp hc
    obtain ⟨number, hb⟩ := h.built.mem ht
    obtain ⟨body, hbody, he⟩ := Nest.exists_holds hb hc
    exact ⟨body, .deeper ht hbody, he⟩

theorem Compiled.Of.wellFormed {name : String} (h : r.Of space name symbol literals) :
    ∀ c ∈ r.chunk :: r.nested, c.WellFormed := by
  intro c hc
  obtain ⟨body, hbody, rfl⟩ := h.exists_holds hc
  exact (h.sound.of_holds hbody).assembled.wellFormed

/-- A body that is compiled has no problems, and its chunk is laid out from its code. -/
theorem Body.compile_layout {b : Body} {part : Build Code} (h : b.compile space part = .ok r) :
    let run := part ⟨space, b.chunk.path⟩ { body := b }
    run.1.problems run.2.body.chunk.path = [] ∧
      r = ⟨run.1.layout run.2.body.cells run.2.body.chunk, run.2.finished.toList⟩ := by
  change ((part ⟨space, b.chunk.path⟩ { body := b }).2.body.finish
    (part ⟨space, b.chunk.path⟩ { body := b }).1).map _ = .ok r at h
  generalize part ⟨space, b.chunk.path⟩ { body := b } = run at h ⊢
  obtain ⟨code, s'⟩ := run
  cases hp : code.problems s'.body.chunk.path with
  | cons p ps =>
    simp only [Body.finish, hp] at h
    cases h
  | nil =>
    simp only [Body.finish, hp] at h
    cases h
    exact ⟨hp, rfl⟩

/-- A compiled body along which the analysis holds, with the literals in it. -/
structure Compiled.Traced (strict : Prop) (space : Space) (kind : BodyKind) (symbol : Symbol)
    (r : Compiled) (literals : List Nest) : Prop where
  traced : (Nest.node r.chunk literals).Traced strict space
  nested : r.nested = Nest.allChunks literals
  symbol : r.chunk.symbol = symbol
  receiver : r.chunk.hasReceiver = kind.hasReceiver
  captures : r.chunk.captures = #[]

/-! ## Sources -/

inductive Source where
  | file (symbol : Symbol) (body : List Stmt)
  | function (symbol : Symbol) (decl : FuncDecl)
  | method (owner : StructType) (symbol : Symbol) (decl : FuncDecl)
  | initializer (owner : StructType) (decl : StructDecl)
  | value (symbol : Symbol) (x : Option Expr) (loc : Location)

def Source.compile (space : Space) (path : String) : Source → Except (List Diagnostic) Compiled
  | file symbol body => Compiled.ofFile space path symbol body
  | function symbol decl => Compiled.ofFunction space path symbol decl
  | method owner symbol decl => Compiled.ofMethod space path owner symbol decl
  | initializer owner decl => Compiled.ofInitializer space path owner decl
  | value symbol x loc => Compiled.ofValue space path symbol x loc

def Source.name (path : String) : Source → String
  | file _ _ => path
  | function symbol _ => symbol.name
  | method owner symbol _ => owner.name ++ "." ++ symbol.name
  | initializer owner _ => owner.name ++ ".init"
  | value symbol _ _ => symbol.name ++ " initializer"

def Source.symbol? : Source → Option Symbol
  | file symbol _ | function symbol _ | method _ symbol _ | value symbol _ _ => some symbol
  | initializer owner _ => owner.initializer

def Source.kind : Source → BodyKind
  | file .. => .file
  | function .. => .function
  | method .. => .method
  | initializer .. => .initializer
  | value .. => .value

def Source.paramNames : Source → List String
  | file .. | value .. => []
  | function _ decl | method _ _ decl => decl.paramNames
  | initializer _ decl => decl.initParams.map (·.name)

def Source.part : Source → Build Code
  | file _ body => return (← joined (stmts [] body)) ++ fallOff body 0
  | function _ decl | method _ _ decl => functionBody decl
  | initializer owner decl => initializerBody owner decl
  | value symbol x loc => do
    let value ← valueOrNone loc x
    let store ← refer symbol loc (⟨.setModuleValue, ·⟩)
    return value ++ store ++ .instr loc.line ⟨.ret, ()⟩

/-- Bodies of all kinds are compiled alike. Only an initializer may have no symbol. -/
theorem Source.compile_cases (space : Space) (path : String) (source : Source) :
    (∃ p, source.compile space path = .error [p]) ∨ ∃ symbol, source.symbol? = some symbol ∧
      source.compile space path =
        (Body.empty source.kind (source.name path) symbol path).compile space source.part := by
  cases source with
  | initializer owner decl =>
    rw [compile, Compiled.ofInitializer, symbol?]
    cases owner.initializer with
    | none => exact .inl ⟨_, rfl⟩
    | some symbol => exact .inr ⟨symbol, rfl, rfl⟩
  | _ => exact .inr ⟨_, rfl, rfl⟩

theorem Source.compile_part {path : String} {source : Source}
    (h : source.compile space path = .ok r) : ∃ symbol, source.symbol? = some symbol ∧
      (Body.empty source.kind (source.name path) symbol path).compile space source.part =
        .ok r := by
  rcases source.compile_cases space path with ⟨p, he⟩ | ⟨symbol, hs, he⟩
  · rw [h] at he
    cases he
  · exact ⟨symbol, hs, he ▸ h⟩

def Source.variables : Source → List String
  | file _ body => Stmt.variablesOf body
  | function _ decl => decl.variables
  | method _ _ decl => decl.variables
  | initializer _ decl => decl.variables
  | value _ x _ => Expr.variablesOf? x

/-- The outline of a body. The parameters of an initializer are in scope in the defaults of
properties. -/
def Source.outline (space : Space) : Source → Outline
  | file _ body => (Point.stmts space body { kind := .file }).outline
  | function _ decl =>
    let start : Point := { kind := .function }
    (Point.stmts space decl.body (start.declareAll decl.paramNames)).outline
  | method _ _ decl =>
    let start : Point := { kind := .method }
    (Point.stmts space decl.body (start.declareAll ("self" :: decl.paramNames))).outline
  | initializer _ decl =>
    let start : Point := { kind := .initializer }
    let params := decl.initParams.map (·.name)
    let p := decl.properties.foldl (fun p x => Point.valueExpr space x.default p)
      (start.declareAll ("self" :: params))
    match decl.init with
    | some init => (Point.stmts space init.body p).outline
    | none => (params.foldl (fun p name => p.read space name) p).outline
  | value symbol x _ =>
    ((Point.valueExpr space x { kind := .value }).mark (.write (.global (.value symbol)))).outline

theorem Body.finish_ne_error (b : Body) (code : Code) : b.finish code ≠ .error [] := by
  rw [Body.finish]
  cases code.problems b.chunk.path with
  | nil =>
    intro h
    cases h
  | cons p ps =>
    intro h
    cases h

theorem Body.compile_ne_error (b : Body) (space : Space) (part : Build Code) :
    b.compile space part ≠ .error [] := by
  intro h
  have hfinish := Body.finish_ne_error (part ⟨space, b.chunk.path⟩ { body := b }).2.body
    (part ⟨space, b.chunk.path⟩ { body := b }).1
  change ((part ⟨space, b.chunk.path⟩ { body := b }).2.body.finish
    (part ⟨space, b.chunk.path⟩ { body := b }).1).map _ = .error [] at h
  generalize (part ⟨space, b.chunk.path⟩ { body := b }).2.body.finish
    (part ⟨space, b.chunk.path⟩ { body := b }).1 = result at h hfinish
  cases result with
  | ok c => cases h
  | error problems =>
    cases h
    exact hfinish rfl

theorem Source.compile_ne_error (space : Space) (path : String) (source : Source) :
    source.compile space path ≠ .error [] := by
  rcases source.compile_cases space path with ⟨p, he⟩ | ⟨symbol, -, he⟩
  · rw [he]
    intro h
    cases h
  · rw [he]
    exact Body.compile_ne_error _ _ _

/-! ## Parts of initializers -/

theorem storeProperty_lowers (owner : StructType) (name : String) (loc : Location)
    (hr : s.body.kind.hasReceiver = true) :
    Lowers v m (storeProperty owner name loc) s p p 1 0 := by
  unfold Lowers
  rw [storeProperty]
  cases owner.propertyOffset? name with
  | some offset =>
    have hset : Emits v m ⟨s, p, 2⟩ (.instr loc.line ⟨.setProperty, propertyOperand offset⟩)
        ⟨s, p, 1⟩ := .plain rfl (Int.le_refl 2) (by simp) rfl
    exact Emits.dropped ((getSelf_emits (by decide) hr).seq hset)
  | none => exact .refused (.inl (.inr (.inl trivial)))

def Point.defaults (space : Space) (properties : List PropertyDecl) (p : Point) : Point :=
  properties.foldl (fun p x => Point.valueExpr space x.default p) p

theorem storeDefaults_lowers (hreg : RegularEnums v.strict v.space) (owner : StructType)
    {properties : List PropertyDecl} (hv : Apart v.strict (PropertyDecl.variables properties))
    (hr : s.body.kind.hasReceiver = true) :
    Lowers v m (storeDefaults owner properties) s p (p.defaults v.space properties) 0 0 := by
  induction properties generalizing s p with
  | nil => exact Emits.skip
  | cons x xs ih =>
    obtain ⟨name, ty, mutable, default⟩ := x
    rw [PropertyDecl.variables] at hv
    change Emits v m ⟨s, p, 0⟩ _ ⟨_, (Point.valueExpr v.space default p).defaults v.space xs, 0⟩
    rw [storeDefaults]
    cases default with
    | none =>
      rw [Point.valueExpr]
      exact Emits.skip.seq (ih hv.right hr)
    | some x =>
      rw [Point.valueExpr]
      have hx := (expr_pushes hreg x hv.left).1 m s p 0 (Int.le_refl 0)
      refine (hx.seqWith fun _ he => ?_).seqWith fun _ he => ih hv.right (he.kind ▸ hr)
      exact storeProperty_lowers owner name x.loc (he.kind ▸ hr)

def Point.readAll (space : Space) (names : List String) (p : Point) : Point :=
  names.foldl (fun p name => p.read space name) p

theorem Point.read_of_mem {name : String} {x : Local}
    (h : p.scope.find? (·.name == name) = some x) :
    p.read space name = p.mark (.read (.slot 0 x.slot)) := by
  simp only [Point.read, Point.place?, binding?, h]

/-- Parameters that are in scope are read from their slots. -/
theorem storeParams_lowers (owner : StructType) (loc : Location) (params : List Param)
    (hr : s.body.kind.hasReceiver = true)
    (h : ∀ x ∈ params, (p.scope.find? (·.name == x.name)).isSome) :
    Lowers v m (storeParams owner loc params) s p (p.readAll v.space (params.map (·.name))) 0
      0 := by
  induction params generalizing s p with
  | nil => exact Emits.skip
  | cons x xs ih =>
    refine Assures.intro fun hs => ?_
    obtain ⟨y, hy⟩ := Option.isSome_iff_exists.mp (h x List.mem_cons_self)
    have hslot : s.body.slot? x.name = some y.slot := by
      rw [Body.slot?, hs.scope, hy]
      rfl
    change Emits v m ⟨s, p, 0⟩ _ ⟨_, (p.read v.space x.name).readAll v.space (xs.map (·.name)), 0⟩
    rw [storeParams, bind_run, get_run, Point.read_of_mem hy]
    simp only [hslot]
    have hmem : y ∈ s.body.scope := hs.scope ▸ List.mem_of_find?_eq_some hy
    refine ((getLocal_emits (Int.le_refl 0) hmem).seq
      (storeProperty_lowers owner x.name loc hr)).seqWith fun _ he => ih (he.kind ▸ hr) ?_
    exact fun z hz => h z (List.mem_cons_of_mem _ hz)

theorem Point.isSome_find?_declareAll {name : String} {names : List String} (h : name ∈ names) :
    ((p.declareAll names).scope.find? (·.name == name)).isSome := by
  have hscope : ∀ (names : List String) (p : Point), (p.declareAll names).scope.map (·.name) =
      names.reverse ++ p.scope.map (·.name) := by
    intro names
    induction names with
    | nil => exact fun _ => rfl
    | cons x xs ih =>
      intro p
      rw [Point.declareAll, List.foldl_cons]
      exact (ih (p.declare x)).trans (by simp [Point.declare])
  have hmem : name ∈ (p.declareAll names).scope.map (·.name) := by
    rw [hscope]
    exact List.mem_append_left _ (List.mem_reverse.mpr h)
  obtain ⟨y, hy, rfl⟩ := List.mem_map.mp hmem
  exact List.find?_isSome.mpr ⟨y, hy, beq_self_eq_true _⟩

theorem isSome_find?_of_suffix {α : Type} {l l' : List α} {f : α → Bool} (h : l <:+ l')
    (hl : (l.find? f).isSome) : (l'.find? f).isSome := by
  obtain ⟨x, hx, hf⟩ := List.find?_isSome.mp hl
  exact List.find?_isSome.mpr ⟨x, h.mem hx, hf⟩

theorem initializerBody_ends {ctx : Context} (owner : StructType) (decl : StructDecl) :
    (initializerBody owner decl ctx s).1.Ends := by
  rw [initializerBody]
  cases decl.init <;> rfl

theorem Source.part_ends {ctx : Context} (source : Source) : (source.part ctx s).1.Ends := by
  cases source with
  | initializer owner decl => exact initializerBody_ends owner decl
  | _ => rfl

/-! ## Whole bodies -/

/-- Compiling the part refuses the body, or goes from where the body is opened with its parameters
to the end of a walk with the given outline. -/
def Opens (v : View) (s₀ : State) (part : Build Code) (names : List String) (outline : Outline) :
    Prop :=
  (part v.ctx s₀).1.Refused ∨ ∃ s p p', Opened v s₀ s p names ∧
    Emits v ⟨False, false, false⟩ ⟨s, p, 0⟩ (part v.ctx s₀).1 ⟨(part v.ctx s₀).2, p', 0⟩ ∧
    p'.outline = outline

section Opens

variable {kind : BodyKind} {name : String} (hreg : RegularEnums v.strict v.space)
include hreg

theorem functionBody_opens {decl : FuncDecl} (hv : Apart v.strict decl.variables) :
    Opens v { body := Body.empty kind name symbol path } (functionBody decl) decl.paramNames
      (Point.stmts v.space decl.body (Point.declareParams decl.params { kind })).outline := by
  obtain ⟨_, params, _, body, loc⟩ := decl
  rcases declareParams_opened (v := v) (s := { body := Body.empty kind name symbol path }) rfl
    trivial params loc with hr | ⟨hidle, ho⟩
  · exact .inl (.inl (.inl hr))
  · exact .inr ⟨_, _, _, ho, (hidle.emits.seq ((stmts_continue hreg body hv).keeps _ _ _ ho.inLoop
      False.elim)).seq (fallOff_emits body loc.line), rfl⟩

theorem initializerBody_opens (owner : StructType) {decl : StructDecl}
    (hv : Apart v.strict decl.variables) :
    Opens v { body := Body.empty .initializer name symbol path } (initializerBody owner decl)
      (decl.initParams.map (·.name)) ((Source.initializer owner decl).outline v.space) := by
  obtain ⟨dname, properties, init, methods, loc⟩ := decl
  rw [StructDecl.variables] at hv
  let decl : StructDecl := ⟨dname, properties, init, methods, loc⟩
  rcases declareParams_opened (v := v) (s := { body := Body.empty .initializer name symbol path })
    rfl trivial decl.initParams loc with hr | ⟨hidle, ho⟩
  · refine .inl ?_
    rw [initializerBody]
    cases init <;> exact .inl (.inl (.inl (.inl hr)))
  have hkind : ∀ s₀ : State, s₀.body.kind = .initializer → s₀.body.kind.hasReceiver = true := by
    intro s₀ h
    rw [h]
    rfl
  have hdefaults := hidle.emits.seq (storeDefaults_lowers (m := ⟨False, false, false⟩)
    (p := Point.declareParams decl.initParams { kind := .initializer }) hreg owner hv.left
    (hkind _ ho.bodyKind))
  cases init with
  | some init =>
    obtain ⟨iname, params, returns, body, iloc⟩ := init
    rw [FuncDecl.variablesOf?, FuncDecl.variables] at hv
    have hbody := (stmts_continue hreg body hv.right.left).keeps
    refine .inr ⟨_, _, _, ho, Emits.returned ((hdefaults.seqWith fun _ he =>
      hbody _ _ _ (he.inLoop.trans ho.inLoop) False.elim).seqWith fun _ he =>
        getSelf_emits (Int.le_refl 0) (hkind _ (he.kind.trans ho.bodyKind))), rfl⟩
  | none =>
    refine .inr ⟨_, _, _, ho, Emits.returned ((hdefaults.seqWith fun _ he =>
      storeParams_lowers owner loc _ (hkind _ (he.kind.trans ho.bodyKind)) fun x hx => ?_).seqWith
        fun _ he => getSelf_emits (Int.le_refl 0) (hkind _ (he.kind.trans ho.bodyKind))), rfl⟩
    have hscope := he.scope
    rw [ho.scope, he.stands.scope] at hscope
    exact isSome_find?_of_suffix hscope (Point.isSome_find?_declareAll (List.mem_map_of_mem hx))

end Opens

theorem Source.opens (hreg : RegularEnums strict space) {source : Source}
    (hv : Apart strict source.variables) :
    Opens ⟨strict, ⟨space, path⟩⟩ { body := Body.empty source.kind (source.name path) symbol path }
      source.part source.paramNames (source.outline space) := by
  cases source with
  | file _ body =>
    have ho : Opened ⟨strict, ⟨space, path⟩⟩ { body := Body.empty .file path symbol path } _ _ [] :=
      opened_empty rfl rfl trivial
    exact .inr ⟨_, _, _, ho, ((stmts_continue hreg body hv).keeps _ _ _ rfl False.elim).seq
      (fallOff_emits body 0), rfl⟩
  | function _ decl | method _ _ decl => exact functionBody_opens hreg hv
  | initializer owner decl => exact initializerBody_opens hreg owner hv
  | value declared x loc =>
    have ho : Opened ⟨strict, ⟨space, path⟩⟩
        { body := Body.empty .value (declared.name ++ " initializer") symbol path } _ _ [] :=
      opened_empty rfl rfl trivial
    exact .inr ⟨_, _, _, ho, Emits.returned ((valueOrNone_pushes hreg loc x hv _ _ _ 0
      (Int.le_refl 0)).seq (setModuleValue_lowers (Int.le_refl 1) declared loc)), rfl⟩

/-- What comes out of a body is assembled from the literals in it, can be relied on, and has the
outline of the walk through the body. -/
theorem Source.compile_whole (strict : Prop) (hreg : RegularEnums strict space) {source : Source}
    (hv : Apart strict source.variables) (h : source.compile space path = .ok r) :
    ∃ symbol literals, source.symbol? = some symbol ∧
      r.Of space (source.name path) symbol literals ∧
      r.Traced strict space source.kind symbol literals ∧
      (Nest.node r.chunk literals).Outlined [] (source.outline space) := by
  obtain ⟨symbol, hs, h⟩ := Source.compile_part h
  obtain ⟨hp, rfl⟩ := Body.compile_layout h
  rcases Source.opens hreg hv with href | ⟨s, p, p', ho, hemits, houtline⟩
  · exact absurd href (Code.fits_of_problems_eq_nil hp).not_refused
  obtain ⟨literals, hd⟩ := ho.done hemits source.part_ends hp
  have hnil := hd.around.eq_nil
  refine ⟨symbol, literals, hs, ⟨hd.name, hd.symbol, hd.assembled, hd.built, hd.finished⟩,
    ⟨hd.traced, hd.finished, hd.symbol, hd.receiver, ?_⟩, ?_⟩
  -- There is no body around from which anything could be captured.
  · refine hd.captures_eq.trans (Array.eq_empty_iff_forall_not_mem.mpr fun x hx => ?_)
    obtain ⟨o, ho, -⟩ := hd.placed.1.offers x hx
    rw [hnil] at ho
    cases ho
  · have houtlined := hd.outlined
    rw [hnil, houtline] at houtlined
    exact houtlined

/-- A body has the names of its parameters in the slots of its arguments. -/
theorem Opened.paramNames {s' : State} {p' : Point} {s₀ : State} {names : List String}
    (ho : Opened v s₀ s p names) (he : Extends v s p s' p' literals) :
    s'.body.chunk.paramNames = names := by
  have hlocals : s'.body.chunk.locals.toList.take s.body.chunk.locals.size =
      s.body.chunk.locals.toList := by
    refine List.ext_getElem? fun i => ?_
    rw [List.getElem?_take, Array.getElem?_toList, Array.getElem?_toList]
    split
    · rename_i hi
      rw [Array.getElem?_eq_getElem hi]
      exact he.extended.locals i _ (Array.getElem?_eq_getElem hi)
    · rename_i hi
      exact (Array.getElem?_eq_none (Nat.not_lt.mp hi)).symm
  rw [Chunk.paramNames, he.extended.receiver, he.arity, List.take_drop, ← ho.size, hlocals,
    ho.locals]
  split <;> rfl

theorem Source.compile_paramNames {source : Source} (h : source.compile space path = .ok r) :
    r.chunk.paramNames = source.paramNames ∧
      r.chunk.arity.toNat = source.paramNames.length := by
  obtain ⟨symbol, hs, h⟩ := Source.compile_part h
  obtain ⟨hp, rfl⟩ := Body.compile_layout h
  have hfits := Code.fits_of_problems_eq_nil hp
  have hopens : Opens ⟨False, ⟨space, path⟩⟩ { body := Body.empty _ _ symbol path }
      source.part _ _ :=
    Source.opens False.elim False.elim
  rcases hopens with href | ⟨s, p, p', ho, hemits, -⟩
  · exact absurd href hfits.not_refused
  rcases hemits ho.toStands with href | ⟨literals, he, -⟩
  · exact absurd href hfits.not_refused
  obtain ⟨lines, hlay⟩ := Code.adds_layout (source.part ⟨space, path⟩ _).2.body.cells
    (source.part ⟨space, path⟩ _).1 (source.part ⟨space, path⟩ _).2.body.chunk
  refine ⟨(congrArg Chunk.paramNames hlay).trans (ho.paramNames he), ?_⟩
  exact (congrArg (·.arity.toNat) hlay).trans ((congrArg _ he.arity).trans ho.arity)

theorem Source.compile_traced (hreg : RegularEnums strict space) {source : Source}
    (hv : Apart strict source.variables) (h : source.compile space path = .ok r) :
    ∃ symbol literals, source.symbol? = some symbol ∧
      r.Traced strict space source.kind symbol literals := by
  obtain ⟨symbol, literals, hs, -, ht, -⟩ := compile_whole strict hreg hv h
  exact ⟨symbol, literals, hs, ht⟩

theorem Source.compile_eq_ok {source : Source} (h : source.compile space path = .ok r) :
    ∃ symbol literals, source.symbol? = some symbol ∧
      r.Of space (source.name path) symbol literals := by
  obtain ⟨symbol, literals, hs, hr, -⟩ := compile_whole False False.elim False.elim h
  exact ⟨symbol, literals, hs, hr⟩

theorem Compiled.ofValue_eq_ok {x : Option Expr} {loc : Location}
    (h : ofValue space path symbol x loc = .ok r) :
    ∃ literals, r.Of space (symbol.name ++ " initializer") symbol literals := by
  have hok : (Source.value symbol x loc).compile space path = .ok r := h
  obtain ⟨_, literals, hs, hr⟩ := Source.compile_eq_ok hok
  cases hs
  exact ⟨literals, hr⟩

/-- Every chunk of a body that compiles, and of the literals in it, is well formed: its instructions
decode one behind another and refer into its tables, its jumps lead to instructions, and the depth
of the stack is the same on all paths to an instruction. -/
theorem compile_wellFormed {space : Space} {path : String} {source : Source} {r : Compiled}
    (h : source.compile space path = .ok r) : ∀ c ∈ r.chunk :: r.nested, c.WellFormed := by
  obtain ⟨symbol, literals, -, hr⟩ := Source.compile_eq_ok h
  exact hr.wellFormed

/-- A file whose loop is left and repeated, and which gives back a function. -/
def loopingFile : Source :=
  let loc := Location.synthesized
  let yes : Expr := ⟨.literal (.bool true), .bool, loc⟩
  let given : Stmt := ⟨.ret (some ⟨.var "x", .int, loc⟩), loc⟩
  let identity : FuncDecl := ⟨none, [⟨"x", .int⟩], .int, [given], loc⟩
  .file (.function "Main" "<main>" [])
    [⟨.loop yes [⟨.ite yes [⟨.break, loc⟩] none, loc⟩, ⟨.continue, loc⟩], loc⟩,
      ⟨.ret (some ⟨.func identity, identity.ty, loc⟩), loc⟩]

theorem compile_wellFormed_loopingFile :
    ∃ r, loopingFile.compile { module := "Main" } "main" = .ok r ∧ r.nested.length = 1 ∧
      ∀ c ∈ r.chunk :: r.nested, c.WellFormed := by
  have hok : (loopingFile.compile { module := "Main" } "main").toOption.map (·.nested.length) =
      some 1 := by decide +kernel
  cases h : loopingFile.compile { module := "Main" } "main" with
  | error problems =>
    rw [h] at hok
    cases hok
  | ok r =>
    rw [h] at hok
    exact ⟨r, rfl, Option.some.inj hok, compile_wellFormed h⟩

/-- The instructions of a body that compiles, and of the literals in it, read, assign and bind what
the names of the source stand for, in the order of the outline: a name that is bound lexically
stands for its innermost binding, however many functions are around it. -/
theorem names_address_innermost_bindings {space : Space} {path : String} {source : Source}
    {r : Compiled} (h : source.compile space path = .ok r) :
    ∃ literals, r.nested = Nest.allChunks literals ∧
      (Nest.node r.chunk literals).Outlined [] (source.outline space) := by
  obtain ⟨symbol, literals, -, hr, -, ho⟩ := Source.compile_whole False False.elim False.elim h
  exact ⟨literals, hr.nested, ho⟩

/-- A function of `x` that binds `y` twice and gives back a closure. Two functions deep, the closure
reads the later `y`, the name `z` of a pattern and a builtin. -/
def shadowingFunction : Source :=
  let loc := Location.synthesized
  let var (name : String) : Expr := ⟨.var name, .int, loc⟩
  let ret (x : Expr) : Stmt := ⟨.ret (some x), loc⟩
  let lambda (body : List Stmt) : Expr :=
    ⟨.func ⟨none, [], .int, body, loc⟩, .function [] .int, loc⟩
  let bind (x : Expr) : Stmt := ⟨.bind "y" false .int (some x), loc⟩
  let deep := lambda [⟨.expr (var "print"), loc⟩, ret ⟨.binary (var "y") .add (var "z"), .int, loc⟩]
  .function (.function "Main" "f" ["Int"]) ⟨some "f", [⟨"x", .int⟩], .int,
    [bind (var "x"), bind (var "y"),
      ⟨.cases (var "y") [⟨.binding "z", [ret (lambda [ret deep])], loc⟩] none, loc⟩], loc⟩

theorem names_address_innermost_bindings_shadowingFunction :
    ∃ r, shadowingFunction.compile { module := "Main" } "main" = .ok r ∧
      shadowingFunction.outline { module := "Main" } =
        .node [.read (.slot 0 0), .bind 1, .read (.slot 0 1), .bind 2, .read (.slot 0 2), .bind 3,
          .read (.slot 0 3), .bind 4]
          [.node [] [.node [.read (.builtin Builtin.print.symbol), .read (.slot 2 2),
            .read (.slot 2 4)] []]] ∧
      ∃ literals, r.nested = Nest.allChunks literals ∧ (Nest.node r.chunk literals).Outlined []
        (shadowingFunction.outline { module := "Main" }) := by
  have hok : (shadowingFunction.compile { module := "Main" } "main").toOption.isSome = true := by
    decide +kernel
  cases h : shadowingFunction.compile { module := "Main" } "main" with
  | error problems =>
    rw [h] at hok
    cases hok
  | ok r => exact ⟨r, rfl, rfl, names_address_innermost_bindings h⟩

end Lowering

end StackCode
