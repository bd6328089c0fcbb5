import StackCode.Proofs.CompiledBodies

/-! # Compilation looks names up

A body is compiled against the tables of its module by lookups only, which start from names and
types. Two spaces in which these lookups give the same compile every body to the same chunk, however
their tables came about and whatever else stands in them.
-/

namespace StackCode

/-- Every lookup in one space gives the same as in the other. -/
structure Space.Alike (a b : Space) : Prop where
  module : a.module = b.module
  imports : a.imports = b.imports
  globals : ∀ name, a.globals.get? name = b.globals.get? name
  structs : ∀ s, a.structs.get? s = b.structs.get? s
  enums : ∀ s, a.enums.get? s = b.enums.get? s
  params : ∀ s, a.params.get? s = b.params.get? s

namespace Space.Alike

variable {a b : Space}

theorem resolve? (h : a.Alike b) (name : String) : a.resolve? name = b.resolve? name := by
  rw [Space.resolve?, Space.resolve?, h.globals, h.imports]

theorem structType? (h : a.Alike b) (s : Symbol) : a.structType? s = b.structType? s := by
  rw [Space.structType?, Space.structType?, h.structs, h.imports]

theorem enumType? (h : a.Alike b) (s : Symbol) : a.enumType? s = b.enumType? s := by
  rw [Space.enumType?, Space.enumType?, h.enums, h.imports]

theorem params? (h : a.Alike b) (s : Symbol) : a.params? s = b.params? s := h.params s

theorem enumOf? (h : a.Alike b) (ty : Ty) : a.enumOf? ty = b.enumOf? ty := by
  cases ty with
  | enum name =>
    rw [Space.enumOf?, Space.enumOf?, h.resolve?]
    cases b.resolve? name with
    | none => rfl
    | some g =>
      cases g with
      | enum s => exact h.enumType? s
      | _ => rfl
  | _ => rfl

theorem structOf? (h : a.Alike b) (ty : Ty) : a.structOf? ty = b.structOf? ty := by
  cases ty with
  | struct name =>
    rw [Space.structOf?, Space.structOf?, h.resolve?]
    cases b.resolve? name with
    | none => rfl
    | some g =>
      cases g with
      | struct s => exact h.structType? s
      | _ => rfl
  | array _ | dictionary _ _ => exact h.structType? _
  | _ => rfl

end Space.Alike

/-- What compilation finds from names and types is the same in both spaces. -/
structure Space.Seen (a b : Space) : Prop where
  module : a.module = b.module
  resolve? : ∀ name, a.resolve? name = b.resolve? name
  enumOf? : ∀ ty, a.enumOf? ty = b.enumOf? ty
  structOf? : ∀ ty, a.structOf? ty = b.structOf? ty
  params? : ∀ name s, b.resolve? name = some (.function s) → a.params? s = b.params? s
  methodParams? : ∀ ty t name s, b.structOf? ty = some t → t.method? name = some s →
    a.params? s = b.params? s

namespace Space.Seen

variable {a b : Space} {name : String} {s : Symbol}

theorem enumType? (h : a.Seen b) (hs : b.resolve? name = some (.enum s)) :
    a.enumType? s = b.enumType? s := by
  have hof := h.enumOf? (.enum name)
  simpa only [Space.enumOf?, h.resolve?, hs] using hof

theorem structType? (h : a.Seen b) (hs : b.resolve? name = some (.struct s)) :
    a.structType? s = b.structType? s := by
  have hof := h.structOf? (.struct name)
  simpa only [Space.structOf?, h.resolve?, hs] using hof

end Space.Seen

theorem Space.Alike.seen {a b : Space} (h : a.Alike b) : a.Seen b :=
  ⟨h.module, h.resolve?, h.enumOf?, h.structOf?, fun _ s _ => h.params? s,
    fun _ _ _ s _ _ => h.params? s⟩

namespace Lowering

variable {α β : Type} {a b : Space} {path : String}

/-- The build does the same in both spaces. -/
def Same (a b : Space) (path : String) (x : Build α) : Prop := x ⟨a, path⟩ = x ⟨b, path⟩

namespace Same

variable {x : Build α}

theorem done (v : α) : Same a b path (pure v : Build α) := rfl

theorem bind {f : α → Build β} (h : Same a b path x) (hf : ∀ v, Same a b path (f v)) :
    Same a b path (x >>= f) := by
  funext s
  have hx : x ⟨a, path⟩ s = x ⟨b, path⟩ s := congrFun h s
  rw [bind_run, bind_run, hx]
  exact congrFun (hf _) _

/-- Reading the context is the same if what is made of it is. -/
theorem reading {f : Context → Build β} (hf : f ⟨a, path⟩ = f ⟨b, path⟩)
    (h : Same a b path (f ⟨b, path⟩)) : Same a b path (read >>= f) := by
  funext s
  rw [bind_run, bind_run]
  change f ⟨a, path⟩ ⟨a, path⟩ s = f ⟨b, path⟩ ⟨b, path⟩ s
  rw [hf]
  exact congrFun h s

theorem bindOf {f : α → Build β} {R : α → Prop} (h : Same a b path x)
    (hR : ∀ s, R (x ⟨b, path⟩ s).1) (hf : ∀ v, R v → Same a b path (f v)) :
    Same a b path (x >>= f) := by
  funext s
  have hx : x ⟨a, path⟩ s = x ⟨b, path⟩ s := congrFun h s
  rw [bind_run, bind_run, hx]
  exact congrFun (hf _ (hR s)) _

theorem getting : Same a b path (get : Build State) := rfl

theorem modifying (f : State → State) : Same a b path (modify f : Build Unit) := rfl

end Same

open Same

/-! ## Parts of bodies -/

theorem report_same (p : Problem) (loc : Location) : Same a b path (report p loc) := rfl

theorem updateChunk_same (f : Chunk Value → α × Chunk Value) :
    Same a b path (updateChunk f) := rfl

theorem refer_same (symbol : Symbol) (loc : Location) (make : UInt16 → Instruction) :
    Same a b path (refer symbol loc make) := by
  refine (updateChunk_same _).bind fun index => ?_
  cases index with
  | some n => exact done _
  | none => exact (report_same _ _).bind fun _ => done _

theorem constant_same (v : Value) (loc : Location) : Same a b path (constant v loc) := by
  refine (updateChunk_same _).bind fun index => ?_
  cases index with
  | some n => exact done _
  | none => exact report_same _ _

theorem substitute_same (p : Problem) (loc : Location) : Same a b path (substitute p loc) :=
  (report_same p loc).bind fun _ => done _

theorem define_same (name : String) (loc : Location) : Same a b path (define name loc) := by
  have hreserve : Same a b path (reserve? name) := rfl
  refine hreserve.bind fun slot => ?_
  cases slot with
  | some n => exact done _
  | none => exact (report_same _ _).bind fun _ => done _

variable {part : Build Code}

theorem inScope_same (h : Same a b path part) :
    Same a b path (inScope part) :=
  getting.bind fun _ => (modifying _).bind fun _ => h.bind fun _ => (modifying _).bind fun _ =>
    done _

theorem inLoop_same (h : Same a b path part) : Same a b path (inLoop part) :=
  getting.bind fun _ => (modifying _).bind fun _ => h.bind fun _ => (modifying _).bind fun _ =>
    done _

theorem sequence_same {parts : List (Build Code)} (h : ∀ part ∈ parts, Same a b path part)
    (codes : List Code) : Same a b path (sequence codes parts) := by
  induction parts generalizing codes with
  | nil => exact done _
  | cons part parts ih =>
    exact (h part List.mem_cons_self).bind fun code =>
      ih (fun p hp => h p (List.mem_cons_of_mem _ hp)) (code :: codes)

theorem declareAll_same (loc : Location) (names : List String) :
    Same a b path (declareAll loc names) := by
  induction names with
  | nil => exact done _
  | cons name names ih =>
    have hreserve : Same a b path (reserve? name) := rfl
    refine hreserve.bind fun slot => ?_
    cases slot with
    | some n => exact ih.bind fun _ => done _
    | none => exact (report_same _ _).bind fun _ => ih.bind fun _ => done _

theorem declareParams_same (params : List Param) (loc : Location) :
    Same a b path (declareParams params loc) := by
  refine getting.bind fun s => (declareAll_same _ _).bind fun code => ?_
  dsimp only
  split
  · exact (report_same _ _).bind fun _ => (modifying _).bind fun _ =>
      (declareAll_same _ _).bind fun _ => done _
  · exact (done _).bind fun _ => (modifying _).bind fun _ => (declareAll_same _ _).bind fun _ =>
      done _

theorem nest_same (inner : Body) (h : Same a b path part) :
    Same a b path (nest inner part) := by
  refine (modifying _).bind fun _ => h.bind fun code => ?_
  exact rfl

theorem storage?_same (name : String) (loc : Location) : Same a b path (storage? name loc) := by
  funext s
  rw [storage?_run, storage?_run]

theorem global?_same (h : a.Seen b) (name : String) : Same a b path (global? name) := by
  have hlexical : Same a b path (isLexical name) := rfl
  refine hlexical.bind fun bound => ?_
  cases bound with
  | true => exact done none
  | false => exact reading (by dsimp only; rw [h.resolve?]) (done _)

theorem global?_resolve? (space : Space) (name : String) (s : State) :
    ∀ g, (global? name ⟨space, path⟩ s).1 = some g → space.resolve? name = some g := by
  intro g hg
  have hrun : global? name ⟨space, path⟩ s = (if (s.body :: s.enclosing).any (·.binds name) then
      pure none else pure (space.resolve? name) : Build _) ⟨space, path⟩ s := by
    rw [global?, bind_run]
    change (if (s.body :: s.enclosing).any (·.binds name) then _ else _ : Build _) _ s = _
    split <;> rfl
  rw [hrun] at hg
  split at hg
  · cases hg
  · exact hg

theorem namedEnum?_same (h : a.Seen b) (e : Expr) : Same a b path (namedEnum? e) := by
  unfold namedEnum?
  split
  · rename_i name _
    refine (global?_same h name).bindOf (R := fun r => ∀ g, r = some g → b.resolve? name = some g)
      (global?_resolve? b name) fun g hg => ?_
    split
    · have henum := h.enumType? (hg _ rfl)
      exact reading (by dsimp only; rw [henum]) (done _)
    · exact done none
  · exact done none

theorem calleeParams?_same (h : a.Seen b) (callee : Expr) :
    Same a b path (calleeParams? callee) := by
  unfold calleeParams?
  split
  · rename_i name _
    funext s
    have hrun : global? name ⟨a, path⟩ s = global? name ⟨b, path⟩ s :=
      congrFun (global?_same h name) s
    have hg : ∀ g, (global? name ⟨b, path⟩ s).1 = some g → _ := global?_resolve? b name s
    rw [bind_run, bind_run, bind_run, bind_run]
    simp only [read_run]
    rw [hrun]
    generalize global? name ⟨b, path⟩ s = r at hg ⊢
    rcases r with ⟨_ | ⟨symbol⟩ | ⟨symbol⟩ | ⟨symbol⟩ | ⟨symbol⟩, s'⟩
    · rfl
    · have hparams := h.params? name symbol (hg _ rfl)
      simp only [hparams]
      rfl
    · rfl
    · have htype := h.structType? (hg _ rfl)
      simp only [htype]
      rfl
    · rfl
  · exact done none

theorem load_same (h : a.Seen b) (name : String) (loc : Location) :
    Same a b path (load name loc) := by
  refine (storage?_same name loc).bind fun r => ?_
  obtain ⟨problem, storage⟩ := r
  rcases storage with _ | n | n
  · refine reading (by dsimp only; rw [h.resolve?]) ?_
    dsimp only
    split
    · exact (refer_same _ _ _).bind fun _ => done _
    · exact (refer_same _ _ _).bind fun _ => done _
    · exact (refer_same _ _ _).bind fun _ => done _
    · exact (substitute_same _ _).bind fun _ => done _
    · split
      · exact (refer_same _ _ _).bind fun _ => done _
      · exact (substitute_same _ _).bind fun _ => done _
  · exact done _
  · exact done _

theorem store_same (h : a.Seen b) (name : String) (loc : Location) :
    Same a b path (store name loc) := by
  refine (storage?_same name loc).bind fun r => ?_
  obtain ⟨problem, storage⟩ := r
  rcases storage with _ | n | n
  · refine reading (by dsimp only; rw [h.resolve?]) ?_
    dsimp only
    split
    · exact (refer_same _ _ _).bind fun _ => done _
    · exact (report_same _ _).bind fun _ => done _
    · exact (report_same _ _).bind fun _ => done _
  · exact done _
  · exact done _

theorem receiver_same (loc : Location) : Same a b path (receiver loc) := by
  refine getting.bind fun s => ?_
  split
  · exact done _
  refine (storage?_same "self" loc).bind fun r => ?_
  obtain ⟨problem, storage⟩ := r
  dsimp only
  split
  · split
    · exact done _
    · exact (substitute_same _ _).bind fun _ => done _
  · exact (substitute_same _ _).bind fun _ => done _

/-! ## Statements and expressions -/

theorem mapM_report_same (problem : α → Problem × Location) (l : List α) :
    Same a b path (l.mapM fun x => report (problem x).1 (problem x).2) := by
  funext s
  rw [mapM_report_run, mapM_report_run]

theorem pass_same (callee : String) (params : Option (List String))
    {args : List (Labelled (Build Code))} (loc : Location)
    (h : ∀ arg ∈ args, Same a b path arg.value) : Same a b path (pass callee params args loc) := by
  have hargs : ∀ part ∈ (Labelled.arrange callee params args).2, Same a b path part := by
    intro part hp
    obtain ⟨arg, ha, rfl⟩ := Labelled.mem_arrange hp
    exact h arg ha
  unfold pass
  generalize Labelled.arrange callee params args = r at hargs ⊢
  obtain ⟨problems, parts⟩ := r
  refine (mapM_report_same id problems).bind fun _ => ?_
  split
  · exact (report_same _ _).bind fun _ => (sequence_same hargs _).bind fun _ => done _
  · exact (done _).bind fun _ => (sequence_same hargs _).bind fun _ => done _

theorem callValue_same (h : a.Seen b) (callee : Expr) {function : Build Code}
    {args : List (Labelled (Build Code))} (loc : Location) (hf : Same a b path function)
    (ha : ∀ arg ∈ args, Same a b path arg.value) :
    Same a b path (callValue callee function args loc) :=
  (calleeParams?_same h callee).bind fun params => hf.bind fun _ =>
    (pass_same _ params loc ha).bind fun _ => done _

theorem checkCase_same (h : a.Seen b) (receiver : Expr) (name : String) (got : Nat)
    (loc : Location) : Same a b path (checkCase receiver name got loc) := by
  refine (namedEnum?_same h receiver).bind fun t => ?_
  split
  · split
    · split
      · exact done _
      · exact report_same _ _
    · exact done _
  · exact done _

theorem readMember_same (h : a.Seen b) (type : Ty) (name : String) {receiver : Build Code}
    (loc : Location) (hr : Same a b path receiver) :
    Same a b path (readMember type name receiver loc) := by
  refine reading (by dsimp only; rw [h.structOf?]) ?_
  dsimp only
  split
  · exact substitute_same _ _
  split
  · exact hr.bind fun _ => done _
  split
  · exact hr.bind fun _ => (refer_same _ _ _).bind fun _ => done _
  · exact substitute_same _ _

theorem enumCase_same (t : EnumType) (name : String) (loc : Location) :
    Same a b path (enumCase t name loc) := by
  unfold enumCase
  split
  · exact constant_same _ _
  · exact (report_same _ _).bind fun _ => (constant_same _ _).bind fun _ => done _

theorem closure_same {function : Build (Code × Symbol)} (loc : Location)
    (h : Same a b path function) : Same a b path (closure function loc) :=
  h.bind fun _ => (refer_same _ _ _).bind fun _ => done _

theorem bindClosure_same (name : String) {function : Build (Code × Symbol)} (loc : Location)
    (h : Same a b path function) : Same a b path (bindClosure name function loc) := by
  refine (define_same name loc).bind fun r => ?_
  obtain ⟨bind, slot⟩ := r
  cases slot with
  | none => exact done _
  | some n => exact (closure_same loc h).bind fun _ => done _

theorem nestFunction_same (h : a.Seen b) (label : String) (params : List Param) (loc : Location)
    {body : Build Code} (hb : Same a b path body) :
    Same a b path (nestFunction label params loc body) := by
  refine (modifying _).bind fun _ => getting.bind fun s => ?_
  refine reading (by dsimp only; rw [h.module]) ?_
  refine reading rfl ?_
  refine (nest_same _ ?_).bind fun _ => done _
  exact (declareParams_same params loc).bind fun _ => hb.bind fun _ => done _

theorem force_same (h : a.Seen b) (name : String) (loc : Location) :
    Same a b path (force name loc) := by
  refine reading (by dsimp only; rw [h.module, h.resolve?]) ?_
  dsimp only
  split
  · exact (refer_same _ _ _).bind fun _ => done _
  · exact done _

theorem atFileScope_same : Same a b path atFileScope := rfl

theorem declaration_same (sort : String) (loc : Location) :
    Same a b path (declaration sort loc) := by
  refine atFileScope_same.bind fun top => ?_
  cases top with
  | true => exact done _
  | false => exact report_same _ _

theorem checkBindings_same (p : Pattern) (loc : Location) :
    Same a b path (checkBindings p loc) :=
  (mapM_report_same (fun name =>
    (.invalidPattern ("'" ++ name ++ "' is bound more than once"), loc)) _).bind fun _ => done _

theorem bindAll_same (slot : UInt8) (loc : Location) (names : List (String × Path)) :
    Same a b path (bindAll slot loc names) := by
  induction names with
  | nil => exact done _
  | cons entry names ih =>
    exact (define_same _ _).bind fun _ => ih.bind fun _ => done _

theorem countOperand_same (n : Nat) (loc : Location) : Same a b path (countOperand n loc) := by
  unfold countOperand
  split
  · exact done _
  · exact (report_same _ _).bind fun _ => done _

theorem joined_same {codes : Build (List Code)} (h : Same a b path codes) :
    Same a b path (joined codes) := h.bind fun _ => done _

def PartsSame (a b : Space) (path : String) : ExprKind → Prop
  | .member receiver _ => Same a b path (expr receiver)
  | .subscript receiver index => Same a b path (expr receiver) ∧ Same a b path (expr index)
  | _ => True

theorem assign_same (h : a.Seen b) {target value : Expr} {loc : Location}
    (hp : PartsSame a b path target.kind) (hv : Same a b path (expr value)) :
    Same a b path (exprKind loc (.assign target value)) := by
  obtain ⟨kind, ty, tloc⟩ := target
  cases kind
  case var name =>
    rw [exprKind]
    exact hv.bind fun _ => (store_same h name loc).bind fun _ => done _
  case member receiver name =>
    rw [exprKind]
    refine reading (by dsimp only; rw [h.structOf?]) ?_
    dsimp only
    split
    · exact hv.bind fun _ => Same.bind hp fun _ => done _
    · exact (report_same _ _).bind fun _ => hv.bind fun _ => Same.bind hp fun _ => done _
  case subscript receiver index =>
    rw [exprKind]
    exact hv.bind fun _ => Same.bind hp.1 fun _ => Same.bind hp.2 fun _ => done _
  all_goals
    rw [exprKind]
    · exact (report_same _ _).bind fun _ => hv.bind fun _ => done _
    all_goals simp

theorem call_same (h : a.Seen b) {callee : Expr} {args : List Argument} {loc : Location}
    (hp : PartsSame a b path callee.kind) (hc : Same a b path (expr callee))
    (ha : ∀ arg ∈ arguments args, Same a b path arg.value) :
    Same a b path (exprKind loc (.call callee args)) := by
  obtain ⟨kind, ty, cloc⟩ := callee
  cases kind
  case member receiver name =>
    have hcall := callValue_same h ⟨.member receiver name, ty, cloc⟩ loc hc ha
    have hinvoked : invoked? a receiver.ty name = invoked? b receiver.ty name := by
      rw [invoked?, invoked?, h.structOf?]
    rw [exprKind]
    refine reading ?_ ?_
    · dsimp only
      rw [hinvoked]
      split
      · rename_i method hm
        obtain ⟨t, ht, hmethod⟩ := means_invoked hm
        rw [h.methodParams? _ t _ method ht hmethod]
      · rfl
    · dsimp only
      split
      · exact Same.bind hp fun _ => (pass_same _ _ loc ha).bind fun _ =>
          (refer_same _ _ _).bind fun _ => done _
      · exact (checkCase_same h _ _ _ _).bind fun _ => hcall.bind fun _ => done _
  all_goals
    rw [exprKind]
    · exact callValue_same h _ loc hc ha
    all_goals simp

mutual

theorem expr_same (h : a.Seen b) : (x : Expr) → Same a b path (expr x) ∧ PartsSame a b path x.kind
  | ⟨kind, _, loc⟩ => by
    rw [expr]
    exact exprKind_same h loc kind

theorem exprKind_same (h : a.Seen b) (loc : Location) :
    (kind : ExprKind) → Same a b path (exprKind loc kind) ∧ PartsSame a b path kind
  | .literal (.int n) | .literal (.string t) => by
    rw [exprKind]
    exact ⟨constant_same _ _, trivial⟩
  | .literal (.bool true) | .literal (.bool false) | .literal .none => by
    rw [exprKind]
    exact ⟨done _, trivial⟩
  | .var name => by
    rw [exprKind]
    exact ⟨load_same h name loc, trivial⟩
  | .selfRef => by
    rw [exprKind]
    exact ⟨receiver_same loc, trivial⟩
  | .unary op operand => by
    rw [exprKind]
    exact ⟨(expr_same h operand).1.bind fun _ => done _, trivial⟩
  | .binary left op right => by
    rw [exprKind]
    exact ⟨(expr_same h left).1.bind fun _ => (expr_same h right).1.bind fun _ => done _, trivial⟩
  | .assign target value => ⟨assign_same h (expr_same h target).2 (expr_same h value).1, trivial⟩
  | .call callee args =>
    ⟨call_same h (expr_same h callee).2 (expr_same h callee).1 (arguments_same h args), trivial⟩
  | .member receiver name => by
    have hr := (expr_same h receiver).1
    rw [exprKind]
    refine ⟨(namedEnum?_same h receiver).bind fun t => ?_, hr⟩
    cases t with
    | some t => exact enumCase_same t name loc
    | none => exact readMember_same h _ name loc hr
  | .subscript receiver index => by
    have hr := (expr_same h receiver).1
    have hi := (expr_same h index).1
    rw [exprKind]
    exact ⟨hr.bind fun _ => hi.bind fun _ => done _, hr, hi⟩
  | .func decl => by
    have hf := function_same h decl
    rw [exprKind]
    refine ⟨?_, trivial⟩
    cases decl.name with
    | some name => exact inScope_same (bindClosure_same name loc hf)
    | none => exact closure_same loc hf
  | .ite cond thenBranch elseBranch => by
    have hc := (expr_same h cond).1
    have ht := (expr_same h thenBranch).1
    have he := (expr_same h elseBranch).1
    rw [exprKind]
    exact ⟨hc.bind fun _ => ht.bind fun _ => he.bind fun _ => done _, trivial⟩
  | .array elements => by
    have he := exprs_same h elements []
    rw [exprKind]
    exact ⟨he.bind fun _ => (countOperand_same _ _).bind fun _ => done _, trivial⟩
  | .dictionary entries => by
    have he := entryCodes_same h entries []
    rw [exprKind]
    exact ⟨he.bind fun _ => (countOperand_same _ _).bind fun _ => done _, trivial⟩

theorem exprs_same (h : a.Seen b) :
    (xs : List Expr) → ∀ codes, Same a b path (exprs codes xs)
  | [], codes => by
    rw [exprs]
    exact done _
  | x :: xs, codes => by
    have hxs := exprs_same h xs
    rw [exprs]
    exact (expr_same h x).1.bind fun code => hxs (code :: codes)

theorem entryCodes_same (h : a.Seen b) :
    (entries : List Entry) → ∀ codes, Same a b path (entryCodes codes entries)
  | [], codes => by
    rw [entryCodes]
    exact done _
  | ⟨key, value⟩ :: entries, codes => by
    have hrest := entryCodes_same h entries
    rw [entryCodes]
    exact (expr_same h key).1.bind fun k => (expr_same h value).1.bind fun v =>
      hrest (v :: k :: codes)

theorem arguments_same (h : a.Seen b) :
    (args : List Argument) → ∀ arg ∈ arguments args, Same a b path arg.value
  | [], arg, hm => by
    rw [arguments] at hm
    cases hm
  | ⟨label, value⟩ :: args, arg, hm => by
    have hrest := arguments_same h args
    rw [arguments] at hm
    rcases List.mem_cons.mp hm with rfl | hm
    · exact (expr_same h value).1
    · exact hrest arg hm

theorem function_same (h : a.Seen b) : (decl : FuncDecl) → Same a b path (function decl)
  | ⟨name, params, _, body, loc⟩ => by
    have hb := stmts_same h body []
    rw [function]
    exact nestFunction_same h _ params loc ((joined_same hb).bind fun _ => done _)

theorem stmt_same (h : a.Seen b) : (st : Stmt) → Same a b path (stmt st)
  | ⟨kind, loc⟩ => by
    rw [stmt]
    exact stmtKind_same h loc kind

theorem stmtKind_same (h : a.Seen b) (loc : Location) :
    (kind : StmtKind) → Same a b path (stmtKind loc kind)
  | .expr x => by
    rw [stmtKind]
    exact (expr_same h x).1.bind fun _ => done _
  | .bind name _ _ value => by
    have hv := valueOrNone_same h loc value
    rw [stmtKind]
    refine atFileScope_same.bind fun top => ?_
    cases top with
    | true => exact force_same h name loc
    | false => exact hv.bind fun _ => (define_same name loc).bind fun _ => done _
  | .func decl => by
    have hf := function_same h decl
    rw [stmtKind]
    refine atFileScope_same.bind fun top => ?_
    cases top with
    | true => exact done _
    | false =>
      cases decl.name with
      | some name => exact (bindClosure_same name loc hf).bind fun _ => done _
      | none => exact report_same _ _
  | .struct _ | .enum _ => by
    rw [stmtKind]
    exact declaration_same _ _
  | .ite cond thenBranch none => by
    have hb := stmts_same h thenBranch []
    rw [stmtKind]
    exact (expr_same h cond).1.bind fun _ => (inScope_same (joined_same hb)).bind fun _ => done _
  | .ite cond thenBranch (some elseBranch) => by
    have ht := stmts_same h thenBranch []
    have he := stmts_same h elseBranch []
    rw [stmtKind]
    exact (expr_same h cond).1.bind fun _ => (inScope_same (joined_same ht)).bind fun _ =>
      (inScope_same (joined_same he)).bind fun _ => done _
  | .loop cond body => by
    have hb := stmts_same h body []
    rw [stmtKind]
    exact (expr_same h cond).1.bind fun _ =>
      (inLoop_same (inScope_same (joined_same hb))).bind fun _ => done _
  | .ret value => by
    have hnone := valueOrNone_same h loc value
    have hskip := valueOrSkip_same h loc value
    rw [stmtKind]
    refine getting.bind fun s => ?_
    split
    · exact hskip.bind fun _ => done _
    · exact hnone.bind fun _ => done _
  | .break | .continue => by
    rw [stmtKind]
    refine getting.bind fun s => ?_
    split
    · exact done _
    · exact report_same _ _
  | .block body => by
    have hb := stmts_same h body []
    rw [stmtKind]
    exact inScope_same (joined_same hb)
  | .cases subject cases elseBranch => by
    have harms := fun slot type => arms_same h slot type loc (otherwise_same h elseBranch) cases
    rw [stmtKind]
    refine inScope_same (reading (by dsimp only; rw [h.enumOf?]) ?_)
    refine (expr_same h subject).1.bind fun code => (define_same _ _).bind fun r => ?_
    obtain ⟨bind, slot⟩ := r
    cases slot with
    | none => exact done _
    | some n => exact (harms n _).bind fun _ => done _

theorem valueOrNone_same (h : a.Seen b) (loc : Location) :
    (value : Option Expr) → Same a b path (valueOrNone loc value)
  | none => by
    rw [valueOrNone]
    exact done _
  | some x => by
    rw [valueOrNone]
    exact (expr_same h x).1

theorem valueOrSkip_same (h : a.Seen b) (loc : Location) :
    (value : Option Expr) → Same a b path (valueOrSkip loc value)
  | none => by
    rw [valueOrSkip]
    exact done _
  | some x => by
    rw [valueOrSkip]
    exact (expr_same h x).1.bind fun _ => done _

theorem otherwise_same (h : a.Seen b) :
    (body : Option (List Stmt)) → Same a b path (otherwise body)
  | none => by
    rw [otherwise]
    exact done _
  | some body => by
    have hb := stmts_same h body []
    rw [otherwise]
    exact inScope_same (joined_same hb)

theorem stmts_same (h : a.Seen b) : (ss : List Stmt) → ∀ codes, Same a b path (stmts codes ss)
  | [], codes => by
    rw [stmts]
    exact done _
  | s :: ss, codes => by
    have hrest := stmts_same h ss
    rw [stmts]
    exact (stmt_same h s).bind fun code => hrest (code :: codes)

theorem arms_same (h : a.Seen b) (slot : UInt8) (type : Option EnumType) (loc : Location)
    {last : Build Code} (hlast : Same a b path last) :
    (cases : List Arm) → Same a b path (arms slot type loc last cases)
  | [] => by
    rw [arms]
    exact hlast
  | ⟨p, body, armLoc⟩ :: rest => by
    have hp := pattern_same h slot (if armLoc == .synthesized then loc else armLoc) p type []
    have hb := stmts_same h body []
    have hrest := arms_same h slot type loc hlast rest
    rw [arms]
    refine (checkBindings_same _ _).bind fun _ => hp.bind fun r => ?_
    refine (inScope_same ?_).bind fun _ => hrest.bind fun _ => done _
    exact (bindAll_same _ _ _).bind fun _ => (joined_same hb).bind fun _ => done _

theorem pattern_same (h : a.Seen b) (slot : UInt8) (loc : Location) : (p : Pattern) →
    ∀ (type : Option EnumType) (at_ : Path), Same a b path (pattern slot loc type at_ p)
  | .wildcard, type, at_ => by
    rw [pattern]
    exact done _
  | .binding name, type, at_ => by
    rw [pattern]
    exact done _
  | .value x, type, at_ => by
    rw [pattern]
    exact (expr_same h x).1.bind fun _ => done _
  | .case name values, type, at_ => by
    have hinner := patterns_same h slot loc values
    cases type with
    | none =>
      rw [pattern]
      exact (report_same _ _).bind fun _ => done _
    | some t =>
      rw [pattern]
      dsimp only
      split
      · exact (report_same _ _).bind fun _ => done _
      · split
        · exact (refer_same _ _ _).bind fun _ => (hinner _ _ _).bind fun _ => done _
        · exact (report_same _ _).bind fun _ => done _

theorem patterns_same (h : a.Seen b) (slot : UInt8) (loc : Location) : (ps : List Pattern) →
    ∀ (at_ : Path) (i : Nat) (types : List Ty), Same a b path (patterns slot loc at_ i types ps)
  | [], at_, i, types => by
    rw [patterns]
    exact done _
  | p :: ps, at_, i, types => by
    have hp := pattern_same h slot loc p
    have hps := patterns_same h slot loc ps
    have henum : a.enumOf? = b.enumOf? := funext h.enumOf?
    rw [patterns]
    refine reading (by dsimp only; rw [henum]) ?_
    exact (hp _ _).bind fun _ => (hps _ _ _).bind fun _ => done _

end

/-! ## Bodies -/

theorem Body.compile_same {body : Body} (h : Same a b body.chunk.path part) :
    body.compile a part = body.compile b part := by
  have hrun : part ⟨a, body.chunk.path⟩ { body } = part ⟨b, body.chunk.path⟩ { body } :=
    congrFun h _
  change ((part ⟨a, body.chunk.path⟩ { body }).2.body.finish
    (part ⟨a, body.chunk.path⟩ { body }).1).map _ = _
  rw [hrun]
  rfl

theorem body_same (h : a.Seen b) (body : List Stmt) : Same a b path (joined (stmts [] body)) :=
  joined_same (stmts_same h body [])

theorem functionBody_same (h : a.Seen b) (decl : FuncDecl) :
    Same a b path (functionBody decl) :=
  (declareParams_same _ _).bind fun _ => (body_same h decl.body).bind fun _ => done _

theorem storeProperty_same (owner : StructType) (name : String) (loc : Location) :
    Same a b path (storeProperty owner name loc) := by
  unfold storeProperty
  split
  · exact (done _).bind fun _ => done _
  · exact (report_same _ _).bind fun _ => (done _).bind fun _ => done _

theorem storeDefaults_same (h : a.Seen b) (owner : StructType) (properties : List PropertyDecl) :
    Same a b path (storeDefaults owner properties) := by
  induction properties with
  | nil => exact done _
  | cons p ps ih =>
    unfold storeDefaults
    split
    · exact (expr_same h _).1.bind fun _ => (storeProperty_same _ _ _).bind fun _ =>
        ih.bind fun _ => done _
    · exact ih.bind fun _ => done _

theorem storeParams_same (owner : StructType) (loc : Location) (params : List Param) :
    Same a b path (storeParams owner loc params) := by
  induction params with
  | nil => exact done _
  | cons p ps ih =>
    refine getting.bind fun s => ?_
    split
    · exact (storeProperty_same _ _ _).bind fun _ => ih.bind fun _ => done _
    · exact ih.bind fun _ => done _

theorem initializerBody_same (h : a.Seen b) (owner : StructType) (decl : StructDecl) :
    Same a b path (initializerBody owner decl) := by
  refine (declareParams_same _ _).bind fun _ => (storeDefaults_same h _ _).bind fun _ => ?_
  split
  · exact (body_same h _).bind fun _ => done _
  · exact (storeParams_same _ _ _).bind fun _ => done _

/-- Spaces with the same lookups compile a body to the same chunks, or find the same problems. -/
theorem Source.compile_same (h : a.Seen b) (source : Source) :
    source.compile a path = source.compile b path := by
  cases source with
  | file symbol body =>
    rw [compile, compile, Compiled.ofFile, Compiled.ofFile]
    exact Body.compile_same ((body_same h body).bind fun _ => done _)
  | function _ decl | method _ _ decl => exact Body.compile_same (functionBody_same h decl)
  | initializer owner decl =>
    rw [compile, compile, Compiled.ofInitializer, Compiled.ofInitializer]
    cases owner.initializer with
    | none => rfl
    | some symbol => exact Body.compile_same (initializerBody_same h owner decl)
  | value symbol x loc =>
    rw [compile, compile, Compiled.ofValue, Compiled.ofValue]
    exact Body.compile_same ((valueOrNone_same h loc x).bind fun _ =>
      (refer_same _ _ _).bind fun _ => done _)

end Lowering

end StackCode
