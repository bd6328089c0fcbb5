import StackCode.Proofs.Patterns

/-! # Statements and expressions

Whatever the tree, the code of an expression leaves one value and that of a statement none. It reads
only slots that are bound, and names what the walk through the tree names. The proof follows the
recursion by which trees are compiled.
-/

namespace StackCode

/-! ## Variables -/

mutual

def Expr.variables : Expr → List String
  | ⟨kind, _, _⟩ => kind.variables

def ExprKind.variables : ExprKind → List String
  | .literal _ => []
  | .var name => [name]
  | .selfRef => []
  | .unary _ operand => operand.variables
  | .binary left _ right => left.variables ++ right.variables
  | .assign target value => target.variables ++ value.variables
  | .call callee args => callee.variables ++ Argument.variables args
  | .member receiver _ => receiver.variables
  | .subscript receiver index => receiver.variables ++ index.variables
  | .func decl => decl.variables
  | .ite cond thenBranch elseBranch =>
    cond.variables ++ (thenBranch.variables ++ elseBranch.variables)
  | .array elements => Expr.variablesOf elements
  | .dictionary entries => Entry.variables entries

def Expr.variablesOf : List Expr → List String
  | [] => []
  | e :: es => e.variables ++ Expr.variablesOf es

def Expr.variablesOf? : Option Expr → List String
  | none => []
  | some e => e.variables

def Entry.variables : List Entry → List String
  | [] => []
  | ⟨key, value⟩ :: entries => key.variables ++ (value.variables ++ Entry.variables entries)

def Argument.variables : List Argument → List String
  | [] => []
  | ⟨_, value⟩ :: args => value.variables ++ Argument.variables args

def FuncDecl.variables : FuncDecl → List String
  | ⟨_, _, _, body, _⟩ => Stmt.variablesOf body

def FuncDecl.variablesOf : List FuncDecl → List String
  | [] => []
  | decl :: decls => decl.variables ++ FuncDecl.variablesOf decls

def FuncDecl.variablesOf? : Option FuncDecl → List String
  | none => []
  | some decl => decl.variables

def PropertyDecl.variables : List PropertyDecl → List String
  | [] => []
  | ⟨_, _, _, default⟩ :: ps => Expr.variablesOf? default ++ PropertyDecl.variables ps

def StructDecl.variables : StructDecl → List String
  | ⟨_, properties, init, methods, _⟩ =>
    PropertyDecl.variables properties ++ (FuncDecl.variablesOf? init ++
      FuncDecl.variablesOf methods)

def Stmt.variables : Stmt → List String
  | ⟨kind, _⟩ => kind.variables

def StmtKind.variables : StmtKind → List String
  | .expr e => e.variables
  | .bind _ _ _ value => Expr.variablesOf? value
  | .func decl => decl.variables
  | .struct decl => decl.variables
  | .enum _ => []
  | .ite cond thenBranch elseBranch =>
    cond.variables ++ (Stmt.variablesOf thenBranch ++ Stmt.variablesOf? elseBranch)
  | .loop cond body => cond.variables ++ Stmt.variablesOf body
  | .ret value => Expr.variablesOf? value
  | .break => []
  | .continue => []
  | .block body => Stmt.variablesOf body
  | .cases subject arms elseBranch =>
    subject.variables ++ (Arm.variables arms ++ Stmt.variablesOf? elseBranch)

def Stmt.variablesOf : List Stmt → List String
  | [] => []
  | s :: ss => s.variables ++ Stmt.variablesOf ss

def Stmt.variablesOf? : Option (List Stmt) → List String
  | none => []
  | some body => Stmt.variablesOf body

def Arm.variables : List Arm → List String
  | [] => []
  | ⟨p, body, _⟩ :: arms => p.variables ++ (Stmt.variablesOf body ++ Arm.variables arms)

def Pattern.variables : Pattern → List String
  | .wildcard => []
  | .binding _ => []
  | .case _ values => Pattern.variablesOf values
  | .value e => e.variables

def Pattern.variablesOf : List Pattern → List String
  | [] => []
  | p :: ps => p.variables ++ Pattern.variablesOf ps

end

namespace Lowering

variable {v : View} {m : Mode} {s : State} {p : Point} {loc : Location} {name : String}

/-- If the analysis is strict, no name is that of the subject of a choice. -/
def Apart (strict : Prop) (names : List String) : Prop := strict → subjectName ∉ names

section Apart

variable {strict : Prop} {names more : List String}

theorem Apart.left (h : Apart strict (names ++ more)) : Apart strict names :=
  fun hs hm => h hs (List.mem_append_left _ hm)

theorem Apart.right (h : Apart strict (names ++ more)) : Apart strict more :=
  fun hs hm => h hs (List.mem_append_right _ hm)

theorem Apart.ne (h : Apart strict [name]) (hs : strict) : name ≠ subjectName :=
  fun he => h hs (he ▸ List.mem_singleton_self _)

end Apart

def AtFile (s : State) : Prop :=
  (s.enclosing.isEmpty && s.body.kind == .file && s.body.depth == 1) = true

theorem Extends.atFile {s' : State} {p' : Point} {ts : List Nest} (h : Extends v s p s' p' ts)
    (hs : AtFile s) : AtFile s' := by
  unfold AtFile at hs ⊢
  have he : s'.enclosing.isEmpty = s.enclosing.isEmpty := by
    rw [Bool.eq_iff_iff, List.isEmpty_iff_length_eq_zero, List.isEmpty_iff_length_eq_zero,
      h.around.length_eq]
  rw [he, h.kind, h.depth]
  exact hs

/-- The part leaves the stack as it is, in whatever loop it stands. It leaves the scope of a file as
it is. -/
def Keeps (v : View) (part : Build Code) (walk : Point → Point) : Prop :=
  ∀ (m : Mode) (s : State) (p : Point), s.body.inLoop = m.inLoop → (m.quiet → AtFile s) →
    Lowers v m part s p (walk p) 0 0

/-- The part leaves the stack and the scope as they are, in whatever loop it stands. -/
def Returns (v : View) (part : Build Code) (walk : Point → Point) : Prop :=
  ∀ (m : Mode) (s : State) (p : Point), s.body.inLoop = m.inLoop → Lowers v m part s p (walk p) 0 0

/-- The statements may stand behind others. -/
def Continues (v : View) (ss : List Stmt) : Prop :=
  ∀ (m : Mode) (σ : Spot) (s₁ : State) (p₁ : Point) (done : List Code),
    σ.state.body.inLoop = m.inLoop → (m.quiet → AtFile σ.state) →
    Emits v m σ (Code.joinReversed done) ⟨s₁, p₁, 0⟩ →
    Emits v m σ (Code.joinReversed (stmts done ss v.ctx s₁).1)
      ⟨(stmts done ss v.ctx s₁).2, Point.stmts v.space ss p₁, 0⟩

theorem Continues.keeps {ss : List Stmt} (h : Continues v ss) :
    Keeps v (joined (stmts [] ss)) (Point.stmts v.space ss) :=
  fun m s p hin hq => h m ⟨s, p, 0⟩ s p [] hin hq .skip

theorem Continues.returns {ss : List Stmt} (h : Continues v ss) :
    Returns v (inScope (joined (stmts [] ss)))
      (Point.inScope fun p => Point.stmts v.space ss p) := by
  rintro ⟨q, inLoop, inArm⟩ s p hin
  exact inScope_assures fun s₀ p₀ hin' _ =>
    h.keeps ⟨False, inLoop, inArm⟩ s₀ p₀ (hin'.trans hin) False.elim

/-! ## Assignments and calls -/

def Parted (v : View) : ExprKind → Prop
  | .var name => v.strict → name ≠ subjectName
  | .member receiver _ => Evaluates v receiver
  | .subscript receiver index => Evaluates v receiver ∧ Evaluates v index
  | _ => True

theorem assign_pushes {target value : Expr} (hp : Parted v target.kind) (hv : Evaluates v value) :
    Pushes v (exprKind loc (.assign target value))
      (Point.exprKind v.space (.assign target value)) := by
  intro m s p d hd
  have hvalue := hv m s p d hd
  have hnext : 0 ≤ d + 1 := by omega
  unfold Lowers
  obtain ⟨kind, ty, tloc⟩ := target
  cases kind
  case var name =>
    rw [exprKind, Point.exprKind]
    exact hvalue.seq (store_lowers hp loc (by omega))
  case member receiver name =>
    rw [exprKind, Point.exprKind]
    simp only [bind_run, read_run]
    cases (v.ctx.space.structOf? receiver.ty).bind (·.propertyOffset? name) with
    | none => exact .refused (.inl (.inl (.inl trivial)))
    | some offset =>
      exact (hvalue.two (hp m _ _ _ hnext)).reduces 2 hd rfl (Nat.le_refl _) (by simp) rfl
  case subscript receiver index =>
    rw [exprKind, Point.exprKind]
    have htwo := hvalue.two (hp.1 m _ _ _ hnext)
    have hindex := hp.2 m (expr receiver v.ctx (expr value v.ctx s).2).2
      (Point.expr v.space receiver (Point.expr v.space value p)) (d + (2 : Nat)) (by omega)
    have hthree : d + ((2 : Nat) : Int) + 1 = d + (3 : Nat) := by omega
    rw [hthree] at hindex
    exact Emits.reduces 3 (htwo.seq hindex) hd rfl (Nat.le_refl _) (by simp) rfl
  all_goals
    rw [exprKind]
    · exact .refused (.inl trivial)
    all_goals simp

theorem call_pushes {callee : Expr} {args : List Argument} (hp : Parted v callee.kind)
    (hc : Evaluates v callee) (ha : ∀ arg ∈ args, Evaluates v arg.value) :
    Pushes v (exprKind loc (.call callee args)) (Point.exprKind v.space (.call callee args)) := by
  obtain ⟨kind, ty, cloc⟩ := callee
  have hcall : Pushes v (callValue ⟨kind, ty, cloc⟩ _ (arguments args) loc) _ :=
    callValue_pushes hc ha
  intro m s p d hd
  unfold Lowers
  cases kind
  case member receiver name =>
    refine Assures.intro fun hs => ?_
    rw [exprKind, Point.exprKind]
    simp only [bind_run, read_run]
    cases hm : invoked? v.ctx.space receiver.ty name with
    | some method =>
      exact ((hp m s p d hd).seq (pass_emits (by omega) ha)).seq (invoke_lowers hm hd)
    | none =>
      exact (checked_checkCase receiver name _ loc hs).emits.seq (hcall m _ p d hd)
  all_goals
    rw [exprKind, Point.exprKind]
    · exact hcall m s p d hd
    all_goals simp

/-- The subject of a choice is bound to a name of its own, and the arms are given its slot. -/
theorem cases_returns {subject : Expr} {cases : List Arm} {elseBranch : Option (List Stmt)}
    (hx : Evaluates v subject)
    (ha : ∀ (slot : UInt8) (m : Mode) (s : State) (p : Point),
      ⟨subjectName, slot⟩ ∈ s.body.scope → s.body.inLoop = m.inLoop →
      Lowers v m (arms slot (v.space.enumOf? subject.ty) loc (otherwise elseBranch) cases) s p
        (Point.armsWith v.space slot (Point.otherwise v.space elseBranch) cases p) 0 0) :
    Returns v (stmtKind loc (.cases subject cases elseBranch))
      (Point.stmtKind v.space (.cases subject cases elseBranch)) := by
  rintro ⟨q, inLoop, inArm⟩ s p hin
  unfold Lowers
  rw [stmtKind, Point.stmtKind]
  refine inScope_assures (r := False) fun s₀ p₀ hin' _ => ?_
  simp only [bind_run, read_run]
  have hsubject := hx ⟨False, inLoop, inArm⟩ s₀ p₀ 0 (Int.le_refl 0)
  refine Assures.intro fun hs => ?_
  rcases hsubject hs with href | ⟨ts, he, -⟩
  · refine .refused ?_
    rcases define "<match>" loc v.ctx (expr subject v.ctx s₀).2 with ⟨⟨bind, _ | slot⟩, s₁⟩
    · exact .inl href
    · exact .inl (.inl href)
  have hdefine := define_emits (v := v) (m := ⟨False, inLoop, inArm⟩)
    (s := (expr subject v.ctx s₀).2) (p := Point.expr v.space subject p₀) "<match>" loc
    (Int.le_refl 1) id
  rcases define_cases "<match>" loc he.stands with ⟨href, hnone⟩ | ⟨-, hrun⟩
  · generalize define "<match>" loc v.ctx (expr subject v.ctx s₀).2 = r at href hnone ⊢
    obtain ⟨⟨bind, slot⟩, s₁⟩ := r
    cases hnone
    exact .refused (.inr href)
  · rw [hrun] at hdefine ⊢
    refine (hsubject.seq hdefine).seq (ha _ _ _ _ ?_ (he.inLoop.trans (hin'.trans hin)))
    rw [← he.stands.slots]
    exact List.mem_cons_self

/-! ## The induction over trees -/

mutual

theorem expr_pushes (hreg : RegularEnums v.strict v.space) :
    (x : Expr) → Apart v.strict x.variables →
    Evaluates v x ∧ Parted v x.kind
  | ⟨kind, _, loc⟩, hv => by
    refine ⟨fun m s p d hd => ?_, (exprKind_pushes hreg loc kind hv).2⟩
    unfold Lowers
    rw [expr, Point.expr]
    exact (exprKind_pushes hreg loc kind hv).1 m s p d hd

theorem exprKind_pushes (hreg : RegularEnums v.strict v.space) (loc : Location) :
    (kind : ExprKind) → Apart v.strict kind.variables →
    Pushes v (exprKind loc kind) (Point.exprKind v.space kind) ∧ Parted v kind
  | .literal (.int n), _ | .literal (.string t), _ => by
    refine ⟨fun m s p d hd => ?_, trivial⟩
    unfold Lowers
    rw [exprKind, Point.exprKind]
    refine constant_pushes ?_ (fun _ _ h => ?_) m s p d hd
    · trivial
    · cases h
  | .literal (.bool true), _ | .literal (.bool false), _ | .literal .none, _ => by
    refine ⟨fun m s p d hd => ?_, trivial⟩
    unfold Lowers
    rw [exprKind, Point.exprKind]
    exact Emits.plain rfl hd (by simp) rfl
  | .var name, hv => by
    have hname : v.strict → name ≠ subjectName := Apart.ne hv
    refine ⟨fun m s p d hd => ?_, hname⟩
    unfold Lowers
    rw [exprKind, Point.exprKind]
    exact load_pushes hname loc m s p d hd
  | .selfRef, _ => by
    refine ⟨fun m s p d hd => ?_, trivial⟩
    unfold Lowers
    rw [exprKind, Point.exprKind]
    exact receiver_pushes loc m s p d hd
  | .unary op operand, hv => by
    refine ⟨fun m s p d hd => ?_, trivial⟩
    unfold Lowers
    rw [exprKind, Point.exprKind]
    exact unary_emits op loc hd ((expr_pushes hreg operand hv).1 m s p d hd)
  | .binary left op right, hv => by
    refine ⟨?_, trivial⟩
    rintro ⟨q, inLoop, inArm⟩ s p d hd
    rw [ExprKind.variables] at hv
    have hright := (expr_pushes hreg right hv.right).1
    unfold Lowers
    rw [exprKind, Point.exprKind]
    exact binary_emits op loc hd ((expr_pushes hreg left hv.left).1 _ s p d hd) fun q x hx =>
      hright ⟨q, inLoop, inArm⟩ _ _ x hx
  | .assign target value, hv => by
    rw [ExprKind.variables] at hv
    exact ⟨assign_pushes (expr_pushes hreg target hv.left).2
      (expr_pushes hreg value hv.right).1, trivial⟩
  | .call callee args, hv => by
    rw [ExprKind.variables] at hv
    have hcallee := expr_pushes hreg callee hv.left
    exact ⟨call_pushes hcallee.2 hcallee.1 (arguments_push hreg args hv.right), trivial⟩
  | .member receiver name, hv => by
    have hreceiver := (expr_pushes hreg receiver hv).1
    refine ⟨fun m s p d hd => Assures.intro fun hs => ?_, hreceiver⟩
    rw [exprKind, Point.exprKind, bind_run, namedEnum?_point hs]
    cases ht : p.namedEnum? v.space receiver with
    | some t =>
      obtain ⟨symbol, hsymbol⟩ := Point.namedEnum?_eq_some ht
      exact enumCase_pushes hreg hsymbol name loc m s p d hd
    | none => exact readMember_pushes hreceiver m s p d hd
  | .subscript receiver index, hv => by
    rw [ExprKind.variables] at hv
    have hreceiver := (expr_pushes hreg receiver hv.left).1
    have hindex := (expr_pushes hreg index hv.right).1
    refine ⟨fun m s p d hd => ?_, hreceiver, hindex⟩
    unfold Lowers
    rw [exprKind, Point.exprKind]
    exact ((hreceiver m s p d hd).two (hindex m _ _ _ (by omega))).reduces 2 hd rfl (Nat.le_refl _)
      (by simp) rfl
  | .func decl, hv => by
    refine ⟨?_, trivial⟩
    rintro ⟨q, inLoop, inArm⟩ s p d hd
    have hadds := function_adds hreg decl hv
    unfold Lowers
    rw [exprKind, Point.exprKind]
    cases decl.name with
    | some name =>
      exact inScope_assures (r := False) fun s₀ p₀ _ _ => bindClosure_lowers hadds hd id
    | none => exact closure_pushes hadds _ s p d hd
  | .ite cond thenBranch elseBranch, hv => by
    refine ⟨?_, trivial⟩
    rintro ⟨q, inLoop, inArm⟩ s p d hd
    rw [ExprKind.variables] at hv
    have hthen := (expr_pushes hreg thenBranch hv.right.left).1 ⟨True, inLoop, inArm⟩
    have helse := (expr_pushes hreg elseBranch hv.right.right).1 ⟨True, inLoop, inArm⟩
    unfold Lowers
    rw [exprKind, Point.exprKind]
    exact ((expr_pushes hreg cond hv.left).1 _ s p d hd).seq
      (Emits.ite hd (hthen _ _ d hd) fun _ _ => helse _ _ d hd)
  | .array elements, hv => by
    refine ⟨fun m s p d hd => ?_, trivial⟩
    unfold Lowers
    rw [exprKind, Point.exprKind]
    refine collect_emits (k := 1) (⟨.initArray, ·⟩) hd ?_ (fun _ => rfl) (fun _ => by simp)
      (fun _ => (Nat.one_mul _).symm) fun _ => ?_
    · rw [Nat.one_mul]
      exact exprs_emits hreg elements hv hd Emits.skip
    · rw [Nat.one_mul]
      rfl
  | .dictionary entries, hv => by
    refine ⟨fun m s p d hd => ?_, trivial⟩
    unfold Lowers
    rw [exprKind, Point.exprKind]
    exact collect_emits (⟨.initDict, ·⟩) hd (entryCodes_emits hreg entries hv hd Emits.skip)
      (fun _ => rfl) (fun _ => by simp) (fun _ => rfl) fun _ => rfl

theorem exprs_emits (hreg : RegularEnums v.strict v.space) :
    (xs : List Expr) → Apart v.strict (Expr.variablesOf xs) →
    ∀ {m : Mode} {σ : Spot} {s₁ : State} {p₁ : Point} {e : Int} {done : List Code}, 0 ≤ e →
    Emits v m σ (Code.joinReversed done) ⟨s₁, p₁, e⟩ →
    Emits v m σ (Code.joinReversed (exprs done xs v.ctx s₁).1)
      ⟨(exprs done xs v.ctx s₁).2, Point.exprs v.space xs p₁, e + xs.length⟩
  | [], _, m, σ, s₁, p₁, e, done, he, h => by
    rw [exprs, Point.exprs]
    exact (Int.add_zero e).symm ▸ h
  | x :: xs, hv, m, σ, s₁, p₁, e, done, he, h => by
    rw [Expr.variablesOf] at hv
    rw [exprs, Point.exprs]
    have hlen : e + ((x :: xs).length : Int) = e + 1 + xs.length := by
      rw [List.length_cons]
      omega
    rw [hlen]
    exact exprs_emits hreg xs hv.right (by omega)
      (h.snoc ((expr_pushes hreg x hv.left).1 m s₁ p₁ e he))

theorem entryCodes_emits (hreg : RegularEnums v.strict v.space) :
    (entries : List Entry) → Apart v.strict (Entry.variables entries) →
    ∀ {m : Mode} {σ : Spot} {s₁ : State} {p₁ : Point} {e : Int} {done : List Code}, 0 ≤ e →
    Emits v m σ (Code.joinReversed done) ⟨s₁, p₁, e⟩ →
    Emits v m σ (Code.joinReversed (entryCodes done entries v.ctx s₁).1)
      ⟨(entryCodes done entries v.ctx s₁).2, Point.entryExprs v.space entries p₁,
        e + (2 * entries.length : Nat)⟩
  | [], _, m, σ, s₁, p₁, e, done, he, h => by
    rw [entryCodes, Point.entryExprs]
    exact (Int.add_zero e).symm ▸ h
  | ⟨key, value⟩ :: entries, hv, m, σ, s₁, p₁, e, done, he, h => by
    rw [Entry.variables] at hv
    rw [entryCodes, Point.entryExprs]
    have hlen : e + ((2 * (Entry.mk key value :: entries).length : Nat) : Int) =
        e + 1 + 1 + (2 * entries.length : Nat) := by
      rw [List.length_cons]
      omega
    rw [hlen]
    exact entryCodes_emits hreg entries hv.right.right (by omega)
      ((h.snoc ((expr_pushes hreg key hv.left).1 m s₁ p₁ e he)).snoc
        ((expr_pushes hreg value hv.right.left).1 m _ _ (e + 1) (by omega)))

theorem arguments_push (hreg : RegularEnums v.strict v.space) :
    (args : List Argument) → Apart v.strict (Argument.variables args) →
    ∀ arg ∈ args, Evaluates v arg.value
  | [], _ => fun _ h => absurd h List.not_mem_nil
  | ⟨label, value⟩ :: args, hv => by
    rw [Argument.variables] at hv
    intro arg h
    rcases List.mem_cons.mp h with rfl | h
    · exact (expr_pushes hreg value hv.left).1
    · exact arguments_push hreg args hv.right arg h

theorem function_adds (hreg : RegularEnums v.strict v.space) :
    (decl : FuncDecl) → Apart v.strict decl.variables →
    AddsLiteral v (function decl) (Point.function v.space decl)
  | ⟨name, params, _, body, loc⟩, hv => by
    rw [FuncDecl.variables] at hv
    have hbody := (stmts_continue hreg body hv).keeps
    have hwalk : Point.function v.space ⟨name, params, ‹_›, body, loc⟩ =
        Point.nest params fun p => Point.stmts v.space body p := by
      funext p
      rw [Point.function]
    rw [function, hwalk]
    exact nestFunction_adds (fun s₀ p₀ hin => (hbody _ s₀ p₀ hin False.elim).seq
      (fallOff_emits body loc.line)) fun _ => rfl

theorem stmt_keeps (hreg : RegularEnums v.strict v.space) :
    (st : Stmt) → Apart v.strict st.variables →
    Keeps v (stmt st) (Point.stmt v.space st)
  | ⟨kind, loc⟩, hv => fun m s p hin hq => by
    unfold Lowers
    rw [stmt, Point.stmt]
    exact stmtKind_keeps hreg loc kind hv m s p hin hq

theorem stmtKind_keeps (hreg : RegularEnums v.strict v.space) (loc : Location) :
    (kind : StmtKind) → Apart v.strict kind.variables →
    Keeps v (stmtKind loc kind) (Point.stmtKind v.space kind)
  | .expr x, hv => fun m s p _ _ => by
    unfold Lowers
    rw [stmtKind, Point.stmtKind]
    exact ((expr_pushes hreg x hv).1 m s p 0 (Int.le_refl 0)).dropped
  | .bind name _ _ value, hv => fun m s p _ hq => Assures.intro fun hs => by
    have hvalue := valueOrNone_pushes hreg loc value hv m s p 0 (Int.le_refl 0)
    have hat : m.quiet → p.atFileScope = true := fun h =>
      (congrArg Prod.fst (atFileScope_point hs)).symm.trans (hq h)
    rw [stmtKind, Point.stmtKind, bind_run, atFileScope_point hs]
    cases hb : p.atFileScope with
    | true => exact force_lowers name loc
    | false =>
      have hq : ¬ m.quiet := fun h => absurd (hb.symm.trans (hat h)) Bool.false_ne_true
      exact hvalue.seq (define_emits name loc (Int.le_refl 1) hq)
  | .func decl, hv => fun m s p _ hq => Assures.intro fun hs => by
    have hadds := function_adds hreg decl hv
    have hat : m.quiet → p.atFileScope = true := fun h =>
      (congrArg Prod.fst (atFileScope_point hs)).symm.trans (hq h)
    rw [stmtKind, Point.stmtKind, bind_run, atFileScope_point hs]
    cases hb : p.atFileScope with
    | true => exact Emits.skip
    | false =>
      have hq : ¬ m.quiet := fun h => absurd (hb.symm.trans (hat h)) Bool.false_ne_true
      simp only [Bool.false_eq_true, if_false]
      cases decl.name with
      | some name => exact (bindClosure_lowers hadds (Int.le_refl 0) hq).dropped
      | none => exact report_lowers _ loc
  | .struct _, _ | .enum _, _ => fun m s p _ _ => by
    unfold Lowers
    rw [stmtKind, Point.stmtKind]
    exact (checked_declaration _ loc).emits
  | .ite cond thenBranch none, hv => by
    rintro ⟨q, inLoop, inArm⟩ s p hin -
    rw [StmtKind.variables] at hv
    have hthen := (stmts_continue hreg thenBranch hv.right.left).returns ⟨True, inLoop, inArm⟩
    unfold Lowers
    rw [stmtKind, Point.stmtKind, Point.otherwise]
    exact ((expr_pushes hreg cond hv.left).1 _ s p 0 (Int.le_refl 0)).seqWith fun _ he =>
      Emits.when (hthen _ _ (he.inLoop.trans hin))
  | .ite cond thenBranch (some elseBranch), hv => by
    rintro ⟨q, inLoop, inArm⟩ s p hin -
    rw [StmtKind.variables, Stmt.variablesOf?] at hv
    have hthen := (stmts_continue hreg thenBranch hv.right.left).returns ⟨True, inLoop, inArm⟩
    have helse := (stmts_continue hreg elseBranch hv.right.right).returns ⟨True, inLoop, inArm⟩
    unfold Lowers
    rw [stmtKind, Point.stmtKind, Point.otherwise]
    exact ((expr_pushes hreg cond hv.left).1 _ s p 0 (Int.le_refl 0)).seqWith fun _ he =>
      Emits.ite (Int.le_refl 0) (hthen _ _ (he.inLoop.trans hin)) fun _ he' =>
        helse _ _ (he'.inLoop.trans (he.inLoop.trans hin))
  | .loop cond body, hv => by
    rintro ⟨q, inLoop, inArm⟩ s p hin -
    rw [StmtKind.variables] at hv
    have hbody := (stmts_continue hreg body hv.right).returns ⟨True, true, inArm⟩
    unfold Lowers
    rw [stmtKind, Point.stmtKind]
    exact Emits.loop ((expr_pushes hreg cond hv.left).1 _ s p 0 (Int.le_refl 0))
      (inLoop_lowers fun s₀ p₀ hin => hbody s₀ p₀ hin)
  | .ret value, hv => fun m s p _ _ => Assures.intro fun hs => by
    have hnone := valueOrNone_pushes hreg loc value hv m s p 0 (Int.le_refl 0)
    have hskip := valueOrSkip_lowers hreg loc value hv m s p
    rw [stmtKind, Point.stmtKind, bind_run, get_run]
    cases hk : s.body.kind == .initializer with
    | true =>
      have hkind : s.body.kind = .initializer := beq_iff_eq.mp hk
      refine Emits.returned (hskip.seqWith fun _ he => ?_)
      exact getSelf_emits (Int.le_refl 0) (by rw [he.kind, hkind]; rfl)
    | false => exact hnone.returned
  | .break, _ => by
    rintro ⟨q, inLoop, inArm⟩ s p hin -
    unfold Lowers
    rw [stmtKind, Point.stmtKind, bind_run, get_run]
    dsimp only at hin
    rw [hin]
    cases inLoop with
    | true => exact Emits.leave
    | false => exact report_lowers _ loc
  | .continue, _ => by
    rintro ⟨q, inLoop, inArm⟩ s p hin -
    unfold Lowers
    rw [stmtKind, Point.stmtKind, bind_run, get_run]
    dsimp only at hin
    rw [hin]
    cases inLoop with
    | true => exact Emits.again
    | false => exact report_lowers _ loc
  | .block body, hv => fun m s p hin _ => by
    have hbody := (stmts_continue hreg body hv).returns
    unfold Lowers
    rw [stmtKind, Point.stmtKind]
    exact hbody m s p hin
  | .cases subject cases elseBranch, hv => fun m s p hin _ => by
    rw [StmtKind.variables] at hv
    have hlast := otherwise_returns hreg elseBranch hv.right.right
    have harms := fun slot => arms_lowers hreg slot _ loc (known_enumOf? v.space subject.ty)
      hlast cases hv.right.left
    exact cases_returns (expr_pushes hreg subject hv.left).1 harms m s p hin

theorem valueOrNone_pushes (hreg : RegularEnums v.strict v.space) (loc : Location) :
    (value : Option Expr) → Apart v.strict (Expr.variablesOf? value) →
    Pushes v (valueOrNone loc value) (Point.valueExpr v.space value)
  | none, _ => fun m s p d hd => by
    unfold Lowers
    rw [valueOrNone, Point.valueExpr]
    exact Emits.plain rfl hd (by simp) rfl
  | some x, hv => fun m s p d hd => by
    unfold Lowers
    rw [valueOrNone, Point.valueExpr]
    exact (expr_pushes hreg x hv).1 m s p d hd

theorem valueOrSkip_lowers (hreg : RegularEnums v.strict v.space) (loc : Location) :
    (value : Option Expr) → Apart v.strict (Expr.variablesOf? value) →
    ∀ m s p, Lowers v m (valueOrSkip loc value) s p (Point.valueExpr v.space value p) 0 0
  | none, _ => fun m s p => by
    unfold Lowers
    rw [valueOrSkip, Point.valueExpr]
    exact Emits.skip
  | some x, hv => fun m s p => by
    unfold Lowers
    rw [valueOrSkip, Point.valueExpr]
    exact ((expr_pushes hreg x hv).1 m s p 0 (Int.le_refl 0)).dropped

theorem otherwise_returns (hreg : RegularEnums v.strict v.space) :
    (body : Option (List Stmt)) → Apart v.strict (Stmt.variablesOf? body) →
    Returns v (otherwise body) (Point.otherwise v.space body)
  | none, _ => fun m s p _ => by
    unfold Lowers
    rw [otherwise, Point.otherwise]
    exact Emits.skip
  | some body, hv => fun m s p hin => by
    have hbody := (stmts_continue hreg body hv).returns
    unfold Lowers
    rw [otherwise, Point.otherwise]
    exact hbody m s p hin

theorem arms_lowers (hreg : RegularEnums v.strict v.space) (slot : UInt8) (type : Option EnumType)
    (loc : Location) (htype : Known v.space type) {last : Build Code} {walk : Point → Point}
    (hlast : Returns v last walk) : (cases : List Arm) → Apart v.strict (Arm.variables cases) →
    ∀ (m : Mode) (s : State) (p : Point), ⟨subjectName, slot⟩ ∈ s.body.scope →
      s.body.inLoop = m.inLoop → Lowers v m (arms slot type loc last cases) s p
        (Point.armsWith v.space slot walk cases p) 0 0
  | [], _ => fun m s p _ hin => by
    unfold Lowers
    rw [arms, Point.armsWith]
    exact hlast m s p hin
  | ⟨pat, body, armLoc⟩ :: rest, hv => by
    rintro ⟨q, inLoop, inArm⟩ s p hslot hin
    rw [Arm.variables] at hv
    have hbody := (stmts_continue hreg body hv.right.left).keeps ⟨False, inLoop, true⟩
    have hrest := arms_lowers hreg slot type loc htype hlast rest hv.right.right
      ⟨True, inLoop, inArm⟩
    have hpattern := pattern_tests hreg slot (if armLoc == .synthesized then loc else armLoc)
      pat hv.left type htype []
    unfold Lowers
    rw [arms, Point.armsWith]
    exact arm_lowers hslot hin hpattern (fun s₀ p₀ hin => hbody s₀ p₀ hin False.elim) hrest

/-- The tests of a pattern let the names that it binds be reached. -/
theorem pattern_tests (hreg : RegularEnums v.strict v.space) (slot : UInt8) (loc : Location) :
    (pat : Pattern) → Apart v.strict pat.variables → ∀ (type : Option EnumType),
    Known v.space type →
    ∀ (path : Path), Tests v (Walks v.strict v.space slot path) slot
      (pattern slot loc type path pat) pat.bindings (Point.pattern v.space slot pat)
  | .wildcard, _, type, _, path => by
    refine ⟨fun s => ?_, fun s p inLoop _ => ?_⟩ <;> rw [pattern]
    · exact .inr rfl
    · rw [Point.pattern]
      exact .skip fun _ _ _ h => absurd h List.not_mem_nil
  | .binding name, _, type, _, path => by
    refine ⟨fun s => ?_, fun s p inLoop _ => ?_⟩ <;> rw [pattern]
    · exact .inr rfl
    · rw [Point.pattern]
      refine .skip fun k hw x hx => ?_
      cases List.mem_singleton.mp hx
      exact hw
  | .value x, hv, type, _, path => by
    have hvalue := (expr_pushes hreg x hv).1
    refine ⟨fun s => ?_, fun s p inLoop hslot => ?_⟩ <;> rw [pattern]
    · exact .inr rfl
    rw [Point.pattern]
    have hload : Assures v ⟨True, inLoop, true⟩ (Walks v.strict v.space slot path) (fun _ => True)
        ⟨s, p, 0⟩ (loadPath slot path loc.line) ⟨s, p.mark (.read (.slot 0 slot)), 1⟩ :=
      (loadPath_assures hslot (Int.le_refl 0)).mono (fun _ => id) (fun _ _ => trivial) id
    exact Assures.mono (((hload.seq (hvalue _ s _ 1 (by omega))).seq
      (Emits.plain rfl (by decide) (by simp) rfl)).seq Emits.require) (fun _ => id)
        (fun _ _ _ h => absurd h List.not_mem_nil) id
  | .case name values, hv, none, htype, path => by
    refine ⟨fun s => ?_, fun s p inLoop hslot => ?_⟩ <;> rw [pattern]
    · exact .inl trivial
    · exact .refused trivial
  | .case name values, hv, some t, htype, path => by
    have hinner := patterns_test hreg slot loc values hv
    obtain ⟨symbol, ht⟩ := htype t rfl
    rcases hcase : t.case? name with _ | ⟨index, case⟩
    · refine ⟨fun s => ?_, fun s p inLoop hslot => ?_⟩ <;> rw [pattern, hcase]
      · exact .inl trivial
      · exact .refused trivial
    cases hlen : case.values.length == values.length with
    | false =>
      refine ⟨fun s => ?_, fun s p inLoop hslot => ?_⟩ <;> rw [pattern, hcase] <;>
        simp only [hlen]
      · exact .inl trivial
      · exact .refused trivial
    | true =>
      refine ⟨fun s => ?_, fun s p inLoop hslot => ?_⟩ <;> rw [pattern, hcase] <;>
        simp only [hlen, if_true, bind_run]
      · rw [Pattern.bindings]
        exact ((hinner path 0 case.values).names _).imp_left .inr
      · rw [Point.pattern]
        refine (test_assures hreg hslot ht hcase).seqWith fun _ he => ?_
        refine ((hinner path 0 case.values).assures _ _ inLoop (he.scope.subset hslot)).mono
          (fun k hw j _ hj => hw j ?_) (fun _ => id) id
        rw [beq_iff_eq.mp hlen]
        omega

theorem patterns_test (hreg : RegularEnums v.strict v.space) (slot : UInt8) (loc : Location) :
    (pats : List Pattern) → Apart v.strict (Pattern.variablesOf pats) →
    ∀ (path : Path) (i : Nat) (types : List Ty),
    Tests v (fun k => ∀ j, i ≤ j → j < i + pats.length →
        Walks v.strict v.space slot (path ++ [UInt8.ofNat j]) k) slot
      (patterns slot loc path i types pats) (Pattern.bindingsOf pats)
      (Point.patterns v.space slot pats)
  | [], _, path, i, types => by
    refine ⟨fun s => ?_, fun s p inLoop _ => ?_⟩ <;> rw [patterns]
    · exact .inr rfl
    · rw [Point.patterns]
      exact .skip fun _ _ _ h => absurd h List.not_mem_nil
  | pat :: pats, hv, path, i, types => by
    rw [Pattern.variablesOf] at hv
    have htype : Known v.space (types.head?.bind v.space.enumOf?) := by
      intro t ht
      obtain ⟨ty, -, ht⟩ := Option.bind_eq_some_iff.mp ht
      exact known_enumOf? _ _ t ht
    have hp := pattern_tests hreg slot loc pat hv.left _ htype (path ++ [UInt8.ofNat i])
    have hps := patterns_test hreg slot loc pats hv.right path (i + 1) types.tail
    have hboth := hp.both hps (P := fun k => ∀ j, i ≤ j → j < i + (pat :: pats).length →
      Walks v.strict v.space slot (path ++ [UInt8.ofNat j]) k) (fun k hw => hw i (Nat.le_refl _)
        (by rw [List.length_cons]; omega)) (fun k hw j hle hlt => hw j (by omega)
        (by rw [List.length_cons]; omega)) fun k k' hk hw j hle hlt => (hw j hle hlt).mono hk
    refine ⟨fun s => ?_, fun s p inLoop hslot => ?_⟩ <;> rw [patterns]
    · rw [Pattern.bindingsOf]
      exact hboth.names s
    · rw [Point.patterns]
      exact hboth.assures s p inLoop hslot

theorem stmts_continue (hreg : RegularEnums v.strict v.space) :
    (ss : List Stmt) → Apart v.strict (Stmt.variablesOf ss) → Continues v ss
  | [], _ => fun m σ s₁ p₁ done hin hq h => by
    rw [stmts, Point.stmts]
    exact h
  | st :: ss, hv => fun m σ s₁ p₁ done hin hq h => by
    rw [Stmt.variablesOf] at hv
    rw [stmts, Point.stmts]
    exact stmts_continue hreg ss hv.right m σ _ _ _ hin hq (h.snocWith fun _ he =>
      stmt_keeps hreg st hv.left m s₁ p₁ (he.inLoop.trans hin) fun h => he.atFile (hq h))

end

end Lowering

end StackCode
