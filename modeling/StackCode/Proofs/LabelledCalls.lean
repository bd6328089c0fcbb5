import StackCode.Proofs.Overridden
import StackCode.Proofs.PropertyOffsets

/-! # Calls with labels

The names of parameters are known for the functions and methods of the module itself and for every
struct. There a labelled argument gets to the parameter of its name, and the other ones to the rest
of the parameters in order. For functions and methods of imported modules labels do not count.
-/

namespace StackCode

/-- The order in which arguments are passed, where the names of the parameters may be known. -/
def Argument.Ordered (args : List Argument) (order : List Expr) : Option (List String) → Prop
  | some params => ∃ given, Given params args given ∧ order = params.map given
  | none => order = args.map (·.value)

namespace Linking

/-! ## Names of parameters -/

section Params

variable {module : String} {files : List SourceFile} {imports : List Linked} {t : TopLevel}
  {b : Piece} {symbol : Symbol}

/-- A declaration records the names of the parameters of its bodies. -/
theorem Piece.params_ofTopLevel (ht : t ∈ TopLevel.ofFiles files)
    (hb : b ∈ ofTopLevel (declarations module files imports) t) (hv : b.isValue = false) :
    t.params module = (ofTopLevel (declarations module files imports) t).filterMap fun b =>
      b.source.symbol?.map (·, b.source.paramNames) := by
  have hcol : (declarations module files imports).Collects module _ _ := collects_declarations
  rcases ofTopLevel_cases hcol ht with he | ⟨decl, name, hk, hn, -, he⟩ | ⟨_, _, _, -, he⟩ |
    ⟨decl, hk, hl, he⟩ <;> rw [he] at hb ⊢
  · cases hb
  · simp only [TopLevel.params, hk, hn]
    rfl
  · cases List.mem_singleton.mp hb
    cases hv
  · obtain ⟨-, g, hg⟩ := TopLevel.last?_spec ((hcol.isLast_iff ht).mp hl)
    rw [(TopLevel.tables_of_struct hk hg).2]
    change _ :: _ = _ :: List.filterMap _ (List.filterMap _ _)
    rw [List.filterMap_filterMap]
    refine congrArg (List.cons _) (List.filterMap_congr fun method _ => ?_)
    cases method.name.bind (StructType.ofDecl module decl).method? <;> rfl

theorem symbol?_of_find {l : List Piece}
    (h : l.find? (·.source.symbol? == some symbol) = some b) : b.source.symbol? = some symbol := by
  simpa using List.find?_some h

/-- The names that are recorded under a symbol are those of the last body that has it. -/
theorem params?_of_last (ht : t ∈ TopLevel.ofFiles files)
    (hb : (Piece.ofTopLevel (declarations module files imports) t).reverse.find?
      (·.source.symbol? == some symbol) = some b) (hv : b.isValue = false) :
    (declarations module files imports).space.params? symbol = some b.source.paramNames := by
  have hmem := List.mem_reverse.mp (List.mem_of_find?_eq_some hb)
  have hs := symbol?_of_find hb
  have hfind : (t.params module).reverse.find? (·.1 == symbol) =
      some (symbol, b.source.paramNames) := by
    rw [Piece.params_ofTopLevel ht hmem hv, ← List.filterMap_reverse, List.find?_filterMap,
      show (fun x : Piece => (x.source.symbol?.map (·, x.source.paramNames)).any
        (·.1 == symbol)) = fun x => x.source.symbol? == some symbol from ?_, hb,
      Option.bind_some, hs]
    · rfl
    · funext x
      cases x.source.symbol? <;> simp
  obtain ⟨name, hlast, -⟩ := Piece.declares_of_mem_ofTopLevel collects_declarations ht hmem
  obtain ⟨owner, g, hg, hn⟩ := TopLevel.params_owner t _
    (List.mem_reverse.mp (List.mem_of_find?_eq_some hfind))
  have hl := (collects_declarations.isLast_iff ht).mp hlast
  obtain ⟨-, g', hg'⟩ := TopLevel.last?_spec hl
  cases hg.symm.trans hg'
  rw [Space.params?, params_declarations, Table.get?_insertAll_flatMap,
    TopLevel.findSome?_of_last hl hfind fun u y hy => ?_]
  · rfl
  · obtain ⟨owner', g'', hu, hn'⟩ := TopLevel.params_owner u y
      (List.mem_reverse.mp (List.mem_of_find?_eq_some hy))
    have hkey := List.find?_some hy
    rw [eq_of_beq hkey, hn] at hn'
    cases hn'
    exact TopLevel.declares_eq_true.mpr ⟨g'', hu⟩

theorem params?_of_ne (h : symbol.module ≠ module) :
    (declarations module files imports).space.params? symbol = none := by
  refine Option.eq_none_iff_forall_ne_some.mpr fun names hn => h ?_
  rw [Space.params?, params_declarations] at hn
  obtain ⟨t, -, he⟩ := List.mem_flatMap.mp (Table.mem_of_get?_ofList hn)
  rw [TopLevel.params] at he
  split at he
  · obtain ⟨name, -, he⟩ := List.mem_map.mp he
    cases he
    rfl
  · split at he
    · cases he
    · obtain ⟨_, _, hs⟩ := TopLevel.mem_memberParams he
      exact congrArg Symbol.module hs
  · cases he

end Params

end Linking

/-! ## Frames of callees -/

namespace Machine

def Frame.Binds (f : Frame) (name : String) (v : Value) : Prop :=
  ∃ i, f.chunk.paramNames[i]? = some name ∧
    f.slot ((if f.chunk.hasReceiver then 1 else 0) + i) = .value v

/-- The machine has come to the end of the code, which has pushed a value. -/
structure Pushed (code : Code) (v : Value) (s t : State) : Prop where
  closure : t.frame.closure = s.frame.closure
  next : t.frame.next = s.frame.next + code.width
  callers : t.callers = s.callers
  stack : t.stack = s.stack.push v

variable {p : Program}

/-- The machine runs through codes one after another, each of which pushes a value. -/
inductive Passes (p : Program) : List Code → List Value → State → State → Prop where
  | nil (s : State) : Passes p [] [] s s
  | cons {code : Code} {codes : List Code} {v : Value} {vs : List Value} {s t u : State}
      (run : Relation.ReflTransGen (fun s t => step p s = .ok none t) s t)
      (pushed : Pushed code v s t) (rest : Passes p codes vs t u) :
      Passes p (code :: codes) (v :: vs) s u

theorem Passes.joined {codes : List Code} {vs : List Value} {s t : State}
    (h : Passes p codes vs s t) :
    t.frame.closure = s.frame.closure ∧ t.callers = s.callers ∧
      t.frame.next = s.frame.next + (Code.join codes).width ∧
      t.stack = s.stack ++ vs.toArray ∧ vs.length = codes.length := by
  induction h with
  | nil s => exact ⟨rfl, rfl, rfl, Array.append_empty.symm, rfl⟩
  | cons run pushed rest ih =>
    obtain ⟨hclosure, hcallers, hnext, hstack, hlen⟩ := ih
    refine ⟨hclosure.trans pushed.closure, hcallers.trans pushed.callers, ?_, ?_,
      congrArg (· + 1) hlen⟩
    · rw [hnext, pushed.next, Code.join_cons, Nat.add_assoc]
      rfl
    · rw [hstack, pushed.stack]
      simp

section Puts

variable {s : State} {cells : List UInt8} {t : Code.Targets}

theorem Puts.pushed {code : Code} {v : Value}
    (h : Puts p s.frame.chunk s.frame.locals code [v])
    (hs : Contains s.frame.chunk cells t s.frame.next code)
    (hroom : s.stack.size < p.limits.maxStack) : Comes p s (Pushed code v s) := by
  change Comes _ (s.moved s.frame.next s.stack s.frame.locals s.current) _
  exact h.comes rfl hs hroom fun _ => .done ⟨rfl, rfl, rfl, Array.append_singleton⟩

/-- The machine runs through codes each of which pushes a value wherever it stands. -/
theorem exists_passes {c : Chunk Value} {codes : List Code} {vs : List Value}
    (h : List.Forall₂ (fun code v => ∀ locals, Puts p c locals code [v]) codes vs)
    (hc : s.frame.chunk = c) (hs : Contains c cells t s.frame.next (Code.join codes))
    (hroom : s.stack.size + vs.length ≤ p.limits.maxStack) :
    ∃ r, Passes p codes vs s r := by
  induction h generalizing s with
  | nil => exact ⟨s, .nil s⟩
  | @cons code v codes vs h _ ih =>
    subst hc
    rw [Code.join_cons] at hs
    rw [List.length_cons] at hroom
    obtain ⟨u, hrun, hu⟩ := (h s.frame.locals).pushed hs.left (by omega)
    have hroom' : u.stack.size + vs.length ≤ p.limits.maxStack := by
      rw [hu.stack, Array.size_push]
      omega
    obtain ⟨r, hr⟩ := ih (congrArg Closure.chunk hu.closure) (hu.next ▸ hs.right) hroom'
    exact ⟨r, .cons hrun hu hr⟩

end Puts

theorem Puts.getModuleFunction {c : Chunk Value} {locals : Array Slot} {line : UInt32} {n : UInt16}
    {symbol : Symbol} {chunk : Chunk Value} (h : c.symbol? n = some symbol)
    (hp : p.chunk? symbol = some chunk) :
    Puts p c locals (.instr line ⟨.getModuleFunction, n⟩)
      [.closure (plainClosure chunk symbol)] :=
  .instr (by simp) fun hc =>
    (bind_of_ok (ofOption_of_eq_some (hc ▸ h))).trans (bind_of_ok (ofOption_of_eq_some hp))

theorem invokeMethod_run {s : State} {below : Array Value} {args : List Value} {symbol : Symbol}
    {chunk : Chunk Value} {ref : Handle} {n : UInt16}
    (hstack : s.stack = below.push (.object ref) ++ args.toArray) (hcount : args.length < 256)
    (hn : s.frame.chunk.symbol? n = some symbol) (hsymbol : symbol.isStandard = false)
    (hchunk : p.chunk? symbol = some chunk) :
    execute p ⟨.invokeMethod, ⟨n, UInt8.ofNat args.length⟩⟩ s =
      enter p (plainClosure chunk symbol) below.size args (some ref)
        { s with stack := below.push (.object ref) } := by
  refine (bind_of_ok (ofOption_of_eq_some hn)).trans
    ((bind_of_ok (calleeHeight_run hstack hcount)).trans
      ((bind_of_ok (valueAt_run hstack)).trans ((bind_of_ok rfl).trans ?_)))
  rw [callMethod, bind_of_ok (cutAbove_run hstack), if_neg (by simp [hsymbol])]
  exact bind_of_ok (ofOption_of_eq_some hchunk)

/-- A body starts with its arguments in the slots of its parameters. -/
theorem starting_binds {c : Closure Value} {names : List String} {args : List Value}
    {receiver : Option Handle} (base : Nat) (hr : c.chunk.hasReceiver = receiver.isSome)
    (hlen : names.length = args.length) (hnames : c.chunk.paramNames = names) :
    List.Forall₂ (Frame.starting c base args receiver).Binds names args := by
  rw [Frame.starting_eq]
  refine List.forall₂_iff_get.mpr ⟨hlen, fun i hi hi' => ⟨i, ?_, ?_⟩⟩
  · change c.chunk.paramNames[i]? = _
    rw [hnames, List.get_eq_getElem, List.getElem?_eq_getElem hi]
  · have hslot := fun f first => slot_setSlots args f first i
    simp only [List.getElem?_eq_getElem hi', Option.map_some, Option.getD_some] at hslot
    change Frame.slot _ ((if c.chunk.hasReceiver then 1 else 0) + i) = _
    rw [← Frame.starting_eq, hr]
    cases receiver with
    | none => exact hslot _ 0
    | some ref => exact hslot _ 1

end Machine

namespace Lowering

/-! ## The code of calls -/

/-- The callee of a call is what the source declares: the function or the struct that an unbound
name stands for, or a method of the struct of the receiver. The code of a call starts with the part
that loads the callee or the receiver. -/
inductive Calls (space : Space) (s : State) : Expr → Build Code → Source → Prop where
  | function {name : String} {ty : Ty} {loc : Location} {symbol : Symbol} {decl : FuncDecl}
      (unbound : (s.body :: s.enclosing).any (·.binds name) = false)
      (resolved : space.resolve? name = some (.function symbol)) :
      Calls space s ⟨.var name, ty, loc⟩ (load name loc) (.function symbol decl)
  | struct {name : String} {ty : Ty} {loc : Location} {type : StructType} {decl : StructDecl}
      (unbound : (s.body :: s.enclosing).any (·.binds name) = false)
      (resolved : space.resolve? name = some (.struct type.symbol))
      (described : space.structType? type.symbol = some type) :
      Calls space s ⟨.var name, ty, loc⟩ (load name loc) (.initializer type decl)
  | method {receiver : Expr} {name : String} {ty : Ty} {loc : Location} {type : StructType}
      {symbol : Symbol} {decl : FuncDecl} (described : space.structOf? receiver.ty = some type)
      (hidden : type.propertyOffset? name = none) (found : type.method? name = some symbol) :
      Calls space s ⟨.member receiver name, ty, loc⟩ (expr receiver) (.method type symbol decl)

def Source.Callee (p : Machine.Program) : Source → Value → Prop
  | .function symbol _, v =>
    ∃ c, p.chunk? symbol = some c ∧ v = .closure (Machine.plainClosure c symbol)
  | .initializer type _, v => p.structType? type.symbol = some type ∧ v = .struct type
  | .method .., v => ∃ ref, v = .object ref
  | _, _ => False

/-- The names by which the arguments of a call of the body are placed. -/
def Source.labels? (space : Space) : Source → Option (List String)
  | .function symbol _ | .method _ symbol _ => space.params? symbol
  | .initializer type _ => some type.initParams
  | _ => none

def Source.Invokes (c : Chunk Value) (count : Nat) (i : Instruction) : Source → Prop
  | .method _ symbol _ =>
    ∃ n, i = ⟨.invokeMethod, ⟨n, UInt8.ofNat count⟩⟩ ∧ c.symbol? n = some symbol
  | _ => i = ⟨.call, UInt8.ofNat count⟩

theorem arrange_ordered {callee : String} {known : Prop} [Decidable known] {names : List String}
    {args : List Argument} (hnames : names.Nodup) (hlength : args.length = names.length)
    (h : (Labelled.arrange callee (if known then some names else none) (arguments args)).1 = []) :
    let params := if known then some names else none
    Argument.Ordered args (Labelled.arrange "" params (labelled args)).2 params ∧
      (Labelled.arrange "" params (labelled args)).2.length = args.length := by
  by_cases hk : known
  · simp only [if_pos hk] at h ⊢
    obtain ⟨given, hgiven, he⟩ := arrange_arguments hnames hlength h
    exact ⟨⟨given, hgiven, he⟩, by rw [he, List.length_map, hlength]⟩
  · simp only [if_neg hk]
    exact ⟨List.map_map, (List.length_map _).trans (List.length_map _)⟩

theorem Source.Invokes.mono {c c' : Chunk Value} {count : Nat} {i : Instruction} {source : Source}
    (h : source.Invokes c count i) (ht : Tables c c') : source.Invokes c' count i := by
  cases source with
  | method =>
    obtain ⟨n, hi, hn⟩ := h
    exact ⟨n, hi, ht.symbols n _ hn⟩
  | _ => exact h

section Code

open Machine (Puts)

variable {ctx : Context} {s r : State} {p : Point}

theorem evaluates (ctx : Context) (e : Expr) : Evaluates ⟨False, ctx⟩ e :=
  (expr_pushes (v := ⟨False, ctx⟩) False.elim e False.elim).1

/-- Expressions that are compiled one after another add to the tables only. -/
theorem sequence_extends (hs : Stands ⟨False, ctx⟩ s p) (es : List Expr)
    (hr : ¬ (Code.joinReversed (sequence [] (es.map expr) ctx s).1).Refused) :
    ∃ p', Stands ⟨False, ctx⟩ (sequence [] (es.map expr) ctx s).2 p' ∧
      Tables s.body.chunk (sequence [] (es.map expr) ctx s).2.body.chunk := by
  have hskip : Emits ⟨False, ctx⟩ ⟨False, false, false⟩ ⟨s, p, 0⟩ (Code.joinReversed [])
    ⟨s, p, 0⟩ :=
    .skip
  rcases sequence_emits (fun e _ => evaluates ctx e) (Int.le_refl 0) hskip hs with
    href | ⟨literals, he, -⟩
  · exact absurd href hr
  · exact ⟨_, he.stands, he.tables⟩

theorem length_sequence (ctx : Context) (parts : List (Build Code)) (done : List Code) :
    (sequence done parts ctx s).1.length = done.length + parts.length := by
  induction parts generalizing done s with
  | nil => rfl
  | cons part parts ih =>
    refine (ih _).trans ?_
    simp only [List.length_cons]
    omega

theorem like_call {front args call : Code} :
    (front ++ (.skip ++ .skip ++ args) ++ call).Like (front ++ args ++ call) :=
  ((Code.Like.refl front).append (((Code.Like.skip_append _).append (.refl args)).trans
    (.skip_append args))).append (.refl call)

/-- The index by which a name is loaded in front of arguments leads to its symbol. -/
theorem load_front {name : String} {symbol : Symbol} {loc : Location} {make : UInt16 → Instruction}
    {es : List Expr} {call : Code} (hs : Stands ⟨False, ctx⟩ s p)
    (hload : load name loc ctx s =
      (.skip ++ (refer symbol loc make ctx s).1, (refer symbol loc make ctx s).2))
    (hr : ¬ ((load name loc ctx s).1 ++ (.skip ++ .skip ++ Code.joinReversed
      (sequence [] (es.map expr) ctx (load name loc ctx s).2).1) ++ call).Refused)
    {c : Chunk Value}
    (ht : Tables (sequence [] (es.map expr) ctx (load name loc ctx s).2).2.body.chunk c) :
    ∃ n, (load name loc ctx s).1 = .skip ++ .instr loc.line (make n) ∧
      c.symbol? n = some symbol := by
  rw [hload] at hr ht ⊢
  rcases refer_cases symbol loc make hs with href | ⟨n, hn, he, -, hsymbol⟩
  · exact absurd (.inl (.inl (.inr href))) hr
  obtain ⟨-, -, htables⟩ := sequence_extends he.stands _ fun h => hr (.inl (.inr (.inr h)))
  exact ⟨n, congrArg _ hn, ht.symbols n symbol (htables.symbols n symbol hsymbol)⟩

variable {callee : Expr} {first : Build Code} {source : Source} {args : List Argument} {ty : Ty}
  {loc : Location} {code : Code}

/-- What a call consists of: the callee or its receiver, the arguments in the order of their
parameters, and the instruction that calls. -/
theorem Calls.parts (h : Calls ctx.space s callee first source) (hs : Stands ⟨False, ctx⟩ s p)
    (hrun : expr ⟨.call callee args, ty, loc⟩ ctx s = (code, r)) (hr : ¬ code.Refused) :
    let order := (Labelled.arrange "" (source.labels? ctx.space) (labelled args)).2
    let front := first ctx s
    let codes := (sequence [] (order.map expr) ctx front.2).1
    ∃ label i, (Labelled.arrange label (source.labels? ctx.space) (arguments args)).1 = [] ∧
      code.Like (front.1 ++ Code.joinReversed codes ++ .instr loc.line i) ∧
      source.Invokes r.body.chunk order.length i ∧
      (source.kind ≠ .method → ∀ c, Tables r.body.chunk c → ∀ program locals v,
        source.Callee program v → Puts program c locals front.1 [v]) := by
  cases h with
  | @function name ty' loc' symbol decl unbound resolved =>
    have hparams : calleeParams? ⟨.var name, ty', loc'⟩ ctx s = (ctx.space.params? symbol, s) := by
      simp only [calleeParams?, bind_run, read_run, global?_run, unbound, resolved,
        Bool.false_eq_true, if_false]
      rfl
    have hload : load name loc' ctx s =
        (.skip ++ (refer symbol loc' (⟨.getModuleFunction, ·⟩) ctx s).1,
          (refer symbol loc' (⟨.getModuleFunction, ·⟩) ctx s).2) := by
      rw [load, bind_run, storage?_of_unbound loc' unbound]
      simp only [bind_run, read_run, resolved]
      rfl
    obtain ⟨hproblems, -, rfl, rfl⟩ := call_var_run hparams hrun hr
    refine ⟨name, _, hproblems, like_call, rfl, fun _ c ht program locals v hv => ?_⟩
    obtain ⟨chunk, hc, rfl⟩ := hv
    obtain ⟨n, hn, hsymbol⟩ := load_front hs hload hr ht
    rw [hn]
    exact Puts.skip.append (.getModuleFunction hsymbol hc)
  | @struct name ty' loc' type decl unbound resolved described =>
    obtain ⟨hproblems, -, rfl, rfl⟩ :=
      call_var_run (calleeParams?_struct unbound resolved described) hrun hr
    refine ⟨name, _, hproblems, like_call, rfl, fun _ c ht program locals v hv => ?_⟩
    obtain ⟨hc, rfl⟩ := hv
    obtain ⟨n, hn, hsymbol⟩ := load_front hs (load_struct unbound resolved) hr ht
    rw [hn]
    exact Puts.skip.append (.getStruct hsymbol hc)
  | @method receiver name ty' loc' type symbol decl described hidden found =>
    have hinvoked : invoked? ctx.space receiver.ty name = some symbol := by
      simp [invoked?, described, hidden, found]
    have hstart : expr ⟨.call ⟨.member receiver name, ty', loc'⟩ args, ty, loc⟩ ctx s =
      exprKind loc (.call ⟨.member receiver name, ty', loc'⟩ args) ctx s := rfl
    rw [hstart, exprKind] at hrun
    simp only [bind_run, read_run, hinvoked] at hrun
    obtain ⟨rfl, rfl⟩ := Prod.mk.inj hrun
    rcases evaluates ctx receiver ⟨False, false, false⟩ s p 0 (Int.le_refl 0) hs with
      href | ⟨literals, he, -⟩
    · exact absurd (.inl (.inl href)) hr
    obtain ⟨hproblems, -, hpass⟩ := pass_run fun h => hr (.inl (.inr h))
    simp only [hpass] at hr ⊢
    obtain ⟨p', hs', -⟩ := sequence_extends he.stands _ fun h => hr (.inl (.inr (.inr h)))
    rcases refer_cases symbol loc (⟨.invokeMethod, ⟨·, UInt8.ofNat _⟩⟩) hs' with
      href | ⟨n, hn, -, -, hsymbol⟩
    · exact absurd (.inr href) hr
    exact ⟨name, _, hproblems, hn ▸ like_call, ⟨n, rfl, hsymbol⟩, fun h => absurd rfl h⟩

end Code

end Lowering

namespace Linking

open Machine (Comes Contains Passes Pushed)
open Lowering (expr)

section Calls

variable {m : String} {fs : List SourceFile} {is : List Linked} {name : String} {t : TopLevel}
  {b : Piece} {symbol : Symbol} {program : Machine.Program}

theorem Piece.Declares.module_eq (h : b.Declares m name) (hs : b.source.symbol? = some symbol) :
    symbol.module = m := by
  cases h <;> cases hs <;> rfl

/-- A program that holds the module holds the functions and the structs of it. -/
theorem Piece.exists_callee (ht : t ∈ TopLevel.ofFiles fs)
    (hb : b ∈ ofTopLevel (declarations m fs is) t) (hv : b.isValue = false)
    (hmethod : b.source.kind ≠ .method) (hs : b.source.symbol? = some symbol) {c : Chunk Value}
    (hc : program.chunk? symbol = some c) (hp : program.find? m = some (link m fs is).module) :
    ∃ v, b.source.Callee program v := by
  have hcol : (declarations m fs is).Collects m _ _ := collects_declarations
  rcases ofTopLevel_cases hcol ht with he | ⟨_, _, -, -, -, he⟩ | ⟨_, _, _, -, he⟩ |
    ⟨decl, hk, hl, he⟩ <;> rw [he] at hb
  · cases hb
  · cases List.mem_singleton.mp hb
    exact ⟨_, c, Option.some.inj hs ▸ hc, rfl⟩
  · cases List.mem_singleton.mp hb
    cases hv
  · rcases mem_ofStruct.mp hb with rfl | ⟨_, _, _, _, _, _, rfl⟩
    · refine ⟨_, ?_, rfl⟩
      change (program.find? m).bind _ = _
      rw [hp, Option.bind_some, link_structs]
      exact Wins.structs_get? ⟨(hcol.isLast_iff ht).mp hl, hk⟩
    · exact absurd rfl hmethod

/-- Whatever is called, the body is entered with the arguments. -/
theorem Piece.Declares.enters (h : b.Declares m name) (hm : m ≠ Symbol.standardModule)
    (hs : b.source.symbol? = some symbol) {c : Chunk Value} (hc : program.chunk? symbol = some c)
    {σ : Machine.State} {below : Array Value} {v : Value} {vs : List Value} {i : Instruction}
    (hv : b.source.Callee program v) (hi : b.source.Invokes σ.frame.chunk vs.length i)
    (hstack : σ.stack = below.push v ++ vs.toArray) (hcount : vs.length < 256) :
    i.opcode ≠ .ret ∧ ∃ heap receiver, b.source.kind.hasReceiver = Option.isSome receiver ∧
      Machine.execute program i σ = Machine.enter program (Machine.plainClosure c symbol) below.size
        vs receiver { σ with stack := below.push v, heap } := by
  have hother : (m == Symbol.standardModule) = false := beq_eq_false_iff_ne.mpr hm
  cases h with
  | function path name decl =>
    cases hs
    cases hi
    obtain ⟨c', hc', rfl⟩ := hv
    cases hc.symm.trans hc'
    exact ⟨by simp, _, none, rfl, Machine.callValue_closure hstack hcount⟩
  | value => cases hv
  | initializer path decl =>
    cases hi
    obtain ⟨-, rfl⟩ := hv
    obtain ⟨ref, heap, -, hrun⟩ := Machine.call_struct hstack hcount hother hs hc
    exact ⟨by simp, heap, some ref, rfl, hrun⟩
  | method path n decl params method =>
    cases hs
    obtain ⟨k, rfl, hk⟩ := hi
    obtain ⟨ref, rfl⟩ := hv
    exact ⟨by simp, _, some ref, rfl, Machine.invokeMethod_run hstack hcount hk hother hc⟩

/-- The labels of a call are compared with the names of the parameters, unless the callee is a
function or a method of an imported module. -/
theorem Piece.Declares.labels?_eq {module : String} {files : List SourceFile}
    {imports : List Linked} (h : b.Declares m name)
    (hunit : (m, fs, is) = (module, files, imports) ∨ m ≠ module)
    (ht : t ∈ TopLevel.ofFiles fs)
    (hb : (Piece.ofTopLevel (declarations m fs is) t).reverse.find?
      (·.source.symbol? == some symbol) = some b) (hv : b.isValue = false) :
    b.source.labels? (declarations module files imports).space =
      if m = module ∨ b.source.kind = .initializer then some b.source.paramNames else none := by
  have hs := symbol?_of_find hb
  have hparams : (declarations module files imports).space.params? symbol =
      if m = module then some b.source.paramNames else none := by
    rcases hunit with he | hne
    · cases he
      rw [if_pos rfl, params?_of_last ht hb hv]
    · rw [if_neg hne, params?_of_ne (h.module_eq hs ▸ hne)]
  cases h with
  | value => cases hv
  | initializer path decl => exact (if_pos (.inr rfl)).symm
  | function | method =>
    cases hs
    exact hparams.trans (if_congr (by simp [Lowering.Source.kind]) rfl rfl)

end Calls

/-- What a call gives for a parameter by its label, or else by its position, is bound to it in the
frame of the callee. Labels do not count where the callee is a function or a method of another
module. -/
theorem labels_decide_parameters {module m : String} {files fs : List SourceFile}
    {imports is : List Linked} (hunit : (m, fs, is) = (module, files, imports) ∨ m ≠ module)
    (hm : m ≠ Symbol.standardModule) {t : TopLevel} (ht : t ∈ TopLevel.ofFiles fs) {symbol : Symbol}
    {b : Piece} (hb : (Piece.ofTopLevel (declarations m fs is) t).reverse.find?
      (·.source.symbol? == some symbol) = some b) {compiled : Lowering.Compiled}
    (hc : b.compile (declarations m fs is).space = .ok compiled)
    (hkept : (link m fs is).module.chunks.get? symbol = some compiled.chunk)
    (hnames : compiled.chunk.paramNames.Nodup) {ctx : Lowering.Context}
    (hctx : ctx.space = (declarations module files imports).space) {s r : Lowering.State}
    {p : Lowering.Point} (hs : Lowering.Stands ⟨False, ctx⟩ s p) {callee : Expr}
    {first : Lowering.Build Code} (hcalls : Lowering.Calls ctx.space s callee first b.source)
    {args : List Argument} (hargs : args.length = compiled.chunk.paramNames.length) {ty : Ty}
    {loc : Location} {code : Code} (hrun : expr ⟨.call callee args, ty, loc⟩ ctx s = (code, r))
    (hr : ¬ code.Refused) :
    ∃ order : List Expr, Argument.Ordered args order
        (if m = module ∨ b.source.kind = .initializer then some compiled.chunk.paramNames
          else none) ∧
      let front := first ctx s
      let codes := (Lowering.sequence [] (order.map expr) ctx front.2).1.reverse
      (∃ i, code.Like (front.1 ++ Code.join codes ++ .instr loc.line i)) ∧
      ∀ (program : Machine.Program) (σ : Machine.State) cells targets,
        program.find? m = some (link m fs is).module →
        Lowering.Tables r.body.chunk σ.frame.chunk →
        Contains σ.frame.chunk cells targets σ.frame.next code →
        (b.source.kind ≠ .method → ∃ v, b.source.Callee program v ∧
          (σ.stack.size < program.limits.maxStack → Comes program σ (Pushed front.1 v σ))) ∧
        ∀ v vs τ, b.source.Callee program v →
          Passes program (front.1 :: codes) (v :: vs) σ τ →
          if program.limits.maxFrames ≤ τ.callers.size + 1 then
            ∃ ω, Machine.step program τ = .error (.trap .stackOverflow) ω
          else
            ∃ ω, Machine.step program τ = .ok none ω ∧
              ω.frame.closure = Machine.plainClosure compiled.chunk symbol ∧
              ω.callers.pop = τ.callers ∧
              List.Forall₂ ω.frame.Binds compiled.chunk.paramNames vs := by
  have hmem := List.mem_reverse.mp (List.mem_of_find?_eq_some hb)
  have hsymbol := symbol?_of_find hb
  have hvalue : b.isValue = false := by
    obtain ⟨path, source⟩ := b
    cases hcalls <;> rfl
  obtain ⟨name, -, hdeclares⟩ := Piece.declares_of_mem_ofTopLevel collects_declarations ht hmem
  obtain ⟨hparams, harity⟩ := Lowering.Source.compile_paramNames hc
  have hlabels := hdeclares.labels?_eq hunit ht hb hvalue
  rw [← hctx, ← hparams] at hlabels
  rw [← hparams] at harity
  obtain ⟨label, i, hproblems, hlike, hinvokes, hfront⟩ := hcalls.parts hs hrun hr
  rw [hlabels] at hproblems hlike hinvokes
  obtain ⟨hordered, hlength⟩ := Lowering.arrange_ordered hnames hargs hproblems
  generalize (Lowering.Labelled.arrange "" _ (Lowering.labelled args)).2 = order
    at hordered hlength hlike hinvokes
  refine ⟨order, hordered, ⟨i, by rwa [Code.join, List.reverse_reverse]⟩,
    fun program σ cells targets hp htables hcontains => ?_⟩
  have hchunk : program.chunk? symbol = some compiled.chunk := by
    change (program.find? symbol.module).bind _ = _
    rw [hdeclares.module_eq hsymbol, hp]
    exact hkept
  refine ⟨fun hmethod => ?_, fun v vs τ hv hpasses => ?_⟩
  · obtain ⟨v, hv⟩ := Piece.exists_callee ht hmem hvalue hmethod hsymbol hchunk hp
    exact ⟨v, hv, (hfront hmethod _ htables program _ v hv).pushed
      (hcontains.like hlike).left.left⟩
  · obtain ⟨hclosure, -, hnext, hstack, hlen⟩ := hpasses.joined
    have hstack : τ.stack = σ.stack.push v ++ vs.toArray := by simpa using hstack
    have hcount : vs.length = order.length := by
      have hlen : vs.length = _ := Nat.succ.inj hlen
      rw [hlen, List.length_reverse, Lowering.length_sequence, List.length_map]
      exact Nat.zero_add _
    have hcode : τ.frame.chunk = σ.frame.chunk := congrArg Closure.chunk hclosure
    have hi : Instruction.decode? τ.frame.chunk.code τ.frame.next = some i := by
      rw [hcode, hnext, Code.join_cons, Code.join, List.reverse_reverse]
      exact (hcontains.like hlike).right.instr
    obtain ⟨-, hreceiver⟩ := traced_of_piece hc
    have hsize : vs.length = compiled.chunk.arity.toNat := by rw [hcount, hlength, hargs, harity]
    obtain ⟨hret, heap, receiver, hsome, henter⟩ := hdeclares.enters
      (σ := τ.moved (τ.frame.next + i.size) τ.stack τ.frame.locals τ.frame.next)
      hm hsymbol hchunk hv (hcount ▸ hinvokes.mono (hcode ▸ htables)) hstack
      (hsize ▸ compiled.chunk.arity.toNat_lt)
    have hstep : Machine.step program
        (τ.moved τ.frame.next τ.stack τ.frame.locals τ.current) = _ :=
      Machine.step_of_enter hi hret henter hsize (hreceiver.trans hsome)
    by_cases hframes : program.limits.maxFrames ≤ τ.callers.size + 1
    · rw [if_pos hframes]
      exact ⟨_, hstep.trans (if_pos hframes)⟩
    · rw [if_neg hframes]
      refine ⟨_, hstep.trans (if_neg hframes), ?_, Array.pop_push .., ?_⟩
      · rw [Machine.Frame.starting_eq]
      · exact Machine.starting_binds _ (hreceiver.trans hsome) (hsize.trans harity).symm rfl

/-- In the call `Point(y: 2, 1)` the label is that of the second parameter. -/
theorem labels_decide_parameters_point :
    ∃ (chunk : Chunk Value) (front : Code) (codes : List Code),
      (link "main" [pointFile] []).module.chunks.get?
        (.method "main" "Point" "init" ["int", "int"]) = some chunk ∧
      (∃ i, pointCall.1.Like (front ++ Code.join codes ++ .instr 0 i)) ∧
      ∀ types, ∃ τ ω, Passes (pointProgram types) (front :: codes)
          [.struct (.ofDecl "main" pointDecl), .int 1, .int 2] pointStart τ ∧
        Machine.step (pointProgram types) τ = .ok none ω ∧ ω.frame.chunk = chunk ∧
        List.Forall₂ ω.frame.Binds ["x", "y"] [.int 1, .int 2] := by
  obtain ⟨r, hr, hkept⟩ := point_wins.initializer (by simp [pointDecl]) point_diagnostics
  have hnames : r.chunk.paramNames = ["x", "y"] := (Lowering.Source.compile_paramNames hr).1
  have hs : Lowering.Stands ⟨False, ⟨(declarations "main" [pointFile] []).space, "main.pl"⟩⟩
      { body := .empty .function "make" ⟨"main", .function "make" []⟩ "main.pl" } _ :=
    (Lowering.opened_empty rfl rfl (by trivial)).toStands
  obtain ⟨hrefused, htables, hcode⟩ := pointClosure_holds
  obtain ⟨order, hordered, hlike, hcall⟩ := labels_decide_parameters
    (b := ⟨"main.pl", .initializer (.ofDecl "main" pointDecl) pointDecl⟩) (.inl rfl) (by decide)
    (TopLevel.last?_spec point_wins.last).1 (by rw [point_wins.pieces_eq]; rfl) hr hkept
    (by rw [hnames]; decide) rfl hs
    (.struct (by decide +kernel) point_wins.resolve? point_wins.structType?)
    (by rw [hnames]; rfl) (show pointCall = (pointCall.1, pointCall.2) from rfl) hrefused
  rw [if_pos (.inl rfl), hnames] at hordered
  obtain ⟨given, hgiven, rfl⟩ := hordered
  have hy := hgiven.labelled _ List.mem_cons_self "y" rfl
  have hx : given "x" = ⟨.literal (.int 1), .int, .synthesized⟩ :=
    (List.cons.inj hgiven.unlabelled).1
  have horder : ["x", "y"].map given = [⟨.literal (.int 1), .int, .synthesized⟩,
      ⟨.literal (.int 2), .int, .synthesized⟩] := by
    rw [List.map_cons, List.map_cons, hx, hy]
    rfl
  rw [horder] at hlike hcall
  obtain ⟨-, -, hparts, hstate⟩ := Lowering.call_var_run (Lowering.calleeParams?_struct
    (by decide +kernel) point_wins.resolve? point_wins.structType?)
    (show pointCall = (pointCall.1, pointCall.2) from rfl) hrefused
  obtain ⟨-, hputs⟩ := Lowering.sequence_literals _ [⟨.literal (.int 1), .int, .synthesized⟩,
      ⟨.literal (.int 2), .int, .synthesized⟩] (by simp [Expr.literal?]) (by decide +kernel)
    fun code hm h => hrefused (hparts ▸
      .inl (.inr (.inr (Code.refused_joinReversed.mpr ⟨code, hm, h⟩))))
  obtain ⟨i, hi⟩ := hlike
  refine ⟨r.chunk, _, _, hkept, ⟨i, hi⟩, fun types => ?_⟩
  obtain ⟨hfront, hbinds⟩ := hcall (pointProgram types) pointStart [] {} rfl htables hcode
  obtain ⟨_, hv, hcomes⟩ := hfront (by simp [Lowering.Source.kind])
  obtain ⟨-, rfl⟩ := id hv
  obtain ⟨σ, hrun, hσ⟩ := hcomes (show 0 < 65536 by decide)
  have hstands := (hcode.like hi).left.right
  have hroom : σ.stack.size + 2 ≤ (pointProgram types).limits.maxStack := by
    rw [hσ.stack]
    exact (show 3 ≤ 65536 by decide)
  obtain ⟨τ, hτ⟩ := Machine.exists_passes
    (hputs pointClosure.chunk (hstate ▸ htables) (pointProgram types) [] .nil)
    (congrArg Closure.chunk hσ.closure) (hσ.next ▸ hstands) hroom
  have hpasses := Passes.cons hrun hσ hτ
  have hframes : ¬ (pointProgram types).limits.maxFrames ≤ τ.callers.size + 1 := by
    rw [hpasses.joined.2.1]
    exact (show ¬ 256 ≤ 1 by decide)
  obtain ⟨ω, hstep, hclosure, -, hω⟩ := (if_neg hframes).mp (hbinds _ _ τ hv hpasses)
  exact ⟨τ, ω, hpasses, hstep, congrArg Closure.chunk hclosure, hnames ▸ hω⟩

end Linking

end StackCode
