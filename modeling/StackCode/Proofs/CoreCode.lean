import StackCode.Proofs.CompiledBodies
import StackCode.Proofs.Evaluation

/-! # The code of trees without calls

What code a core tree may have is said by a relation, in which every variable is a slot and every
literal a constant of the chunk. Compiling a core tree gives code of this kind, unless it is
refused.
-/

namespace StackCode.Lowering

def slotIn (scope : List Local) (name : String) : Option UInt8 :=
  (scope.find? (·.name == name)).map (·.slot)

inductive ExprCode (c : Chunk Value) (scope : List Local) : Expr → Code → Prop where
  | constant {literal : Literal} {ty : Ty} {loc : Location} {i : UInt16}
      (h : c.constant? i = some literal.value) :
      ExprCode c scope ⟨.literal literal, ty, loc⟩ (.instr loc.line ⟨.constant, i⟩)
  | pushTrue {ty : Ty} {loc : Location} :
      ExprCode c scope ⟨.literal (.bool true), ty, loc⟩ (.instr loc.line ⟨.pushTrue, ()⟩)
  | pushFalse {ty : Ty} {loc : Location} :
      ExprCode c scope ⟨.literal (.bool false), ty, loc⟩ (.instr loc.line ⟨.pushFalse, ()⟩)
  | pushNone {ty : Ty} {loc : Location} :
      ExprCode c scope ⟨.literal .none, ty, loc⟩ (.instr loc.line ⟨.pushNone, ()⟩)
  | load {name : String} {ty : Ty} {loc : Location} {slot : UInt8}
      (h : slotIn scope name = some slot) :
      ExprCode c scope ⟨.var name, ty, loc⟩ (.skip ++ .instr loc.line ⟨.getLocal, slot⟩)
  | unary {op : UnaryOp} {e : Expr} {ty : Ty} {loc : Location} {code : Code}
      (h : ExprCode c scope e code) :
      ExprCode c scope ⟨.unary op e, ty, loc⟩ (Lowering.unary loc op code)
  | binary {left right : Expr} {op : BinaryOp} {ty : Ty} {loc : Location} {code code' : Code}
      (h : ExprCode c scope left code) (h' : ExprCode c scope right code') :
      ExprCode c scope ⟨.binary left op right, ty, loc⟩ (Lowering.binary loc op code code')
  | assign {name : String} {value : Expr} {ty ty' : Ty} {loc loc' : Location} {slot : UInt8}
      {code : Code} (h : ExprCode c scope value code) (hs : slotIn scope name = some slot) :
      ExprCode c scope ⟨.assign ⟨.var name, ty', loc'⟩ value, ty, loc⟩
        (code ++ (.skip ++ .instr loc.line ⟨.setLocal, slot⟩))
  | ite {cond thenBranch elseBranch : Expr} {ty : Ty} {loc : Location} {code yes no : Code}
      (h : ExprCode c scope cond code) (hy : ExprCode c scope thenBranch yes)
      (hn : ExprCode c scope elseBranch no) :
      ExprCode c scope ⟨.ite cond thenBranch elseBranch, ty, loc⟩ (code ++ .ite loc yes no)

/-- Code that leaves the value of an expression or, without one, `none`. -/
inductive ValueCode (c : Chunk Value) (scope : List Local) (line : UInt32) :
    Option Expr → Code → Prop where
  | none : ValueCode c scope line none (.instr line ⟨.pushNone, ()⟩)
  | some {e : Expr} {code : Code} (h : ExprCode c scope e code) :
      ValueCode c scope line (some e) code

mutual

inductive StmtCode (c : Chunk Value) :
    Bool → List Local → Stmt → Code → List Local → Prop where
  | expr {inLoop : Bool} {scope : List Local} {e : Expr} {loc : Location} {code : Code}
      (h : ExprCode c scope e code) :
      StmtCode c inLoop scope ⟨.expr e, loc⟩ (code ++ .instr loc.line ⟨.pop, ()⟩) scope
  | bind {inLoop : Bool} {scope : List Local} {name : String} {mutable : Bool} {ty : Ty}
      {value : Option Expr} {loc : Location} {code : Code} {slot : UInt8}
      (h : ValueCode c scope loc.line value code) (hs : slot ∉ scope.map (·.slot)) :
      StmtCode c inLoop scope ⟨.bind name mutable ty value, loc⟩ (code ++ .bind loc.line slot)
        (⟨name, slot⟩ :: scope)
  | when {inLoop : Bool} {scope inner : List Local} {cond : Expr} {body : List Stmt}
      {loc : Location} {code yes : Code} (h : ExprCode c scope cond code)
      (hy : StmtsCode c inLoop scope body yes inner) :
      StmtCode c inLoop scope ⟨.ite cond body none, loc⟩ (code ++ .when loc yes) scope
  | ite {inLoop : Bool} {scope inner inner' : List Local} {cond : Expr}
      {body elseBody : List Stmt} {loc : Location} {code yes no : Code}
      (h : ExprCode c scope cond code) (hy : StmtsCode c inLoop scope body yes inner)
      (hn : StmtsCode c inLoop scope elseBody no inner') :
      StmtCode c inLoop scope ⟨.ite cond body (some elseBody), loc⟩ (code ++ .ite loc yes no) scope
  | loop {inLoop : Bool} {scope inner : List Local} {cond : Expr} {body : List Stmt}
      {loc : Location} {code code' : Code} (h : ExprCode c scope cond code)
      (hb : StmtsCode c true scope body code' inner) :
      StmtCode c inLoop scope ⟨.loop cond body, loc⟩ (.loop loc code code') scope
  | ret {inLoop : Bool} {scope : List Local} {value : Option Expr} {loc : Location} {code : Code}
      (h : ValueCode c scope loc.line value code) :
      StmtCode c inLoop scope ⟨.ret value, loc⟩ (code ++ .instr loc.line ⟨.ret, ()⟩) scope
  | leave {scope : List Local} {loc : Location} :
      StmtCode c true scope ⟨.break, loc⟩ (.leave loc.line) scope
  | again {scope : List Local} {loc : Location} :
      StmtCode c true scope ⟨.continue, loc⟩ (.again loc) scope
  | block {inLoop : Bool} {scope inner : List Local} {body : List Stmt} {loc : Location}
      {code : Code} (h : StmtsCode c inLoop scope body code inner) :
      StmtCode c inLoop scope ⟨.block body, loc⟩ code scope

inductive StmtsCode (c : Chunk Value) :
    Bool → List Local → List Stmt → Code → List Local → Prop where
  | nil {inLoop : Bool} {scope : List Local} : StmtsCode c inLoop scope [] .skip scope
  | cons {inLoop : Bool} {scope scope' scope'' : List Local} {s : Stmt} {ss : List Stmt}
      {code code' : Code} (h : StmtCode c inLoop scope s code scope')
      (h' : StmtsCode c inLoop scope' ss code' scope'') :
      StmtsCode c inLoop scope (s :: ss) (code ++ code') scope''

end

/-! ## Compiling core trees -/

def State.grown (s : State) (constants : Array Value) (locals : Array String)
    (scope : List Local) : State :=
  { s with body := { s.body with scope, chunk := { s.body.chunk with constants, locals } } }

/-- The state in the middle of a function, with slots for the given names. -/
structure State.Ready (s : State) (names : List String) : Prop where
  kind : s.body.kind = .function
  constants : s.body.chunk.constants.size ≤ Chunk.maxEntries
  locals : s.body.chunk.locals.size ≤ maxLocals
  slots : ∀ l ∈ s.body.scope, l.slot.toNat < s.body.chunk.locals.size
  names : ∀ x ∈ names, ∃ slot, slotIn s.body.scope x = some slot

structure Yields (s : State) (names : List String) (r : State) (scope : List Local)
    (Q : Chunk Value → Prop) : Prop where
  ready : r.Ready names
  grown : ∃ constants locals, r = s.grown constants locals scope
  tables : Tables s.body.chunk r.body.chunk
  locals : s.body.chunk.locals.size ≤ r.body.chunk.locals.size
  code : ∀ c, Tables r.body.chunk c → Q c

variable {ctx : Context} {s s₁ s₂ : State} {names : List String} {Q : Chunk Value → Prop}
  {loc : Location} {name path : String} {code : Code} {symbol : Symbol}

theorem Yields.steady (hs : s.Ready names) (hQ : ∀ c, Tables s.body.chunk c → Q c) :
    Yields s names s s.body.scope Q where
  ready := hs
  grown := ⟨s.body.chunk.constants, s.body.chunk.locals, rfl⟩
  tables := .refl _
  locals := Nat.le_refl _
  code := hQ

theorem Yields.trans {scope scope' : List Local} {names' names'' : List String}
    {Q' : Chunk Value → Prop} (h : Yields s names' s₁ scope Q) (h' : Yields s₁ names'' s₂ scope' Q')
    :
    Yields s names'' s₂ scope' fun c => Q c ∧ Q' c where
  ready := h'.ready
  grown := by
    obtain ⟨_, _, rfl⟩ := h.grown
    obtain ⟨constants, locals, rfl⟩ := h'.grown
    exact ⟨constants, locals, rfl⟩
  tables := h.tables.trans h'.tables
  locals := Nat.le_trans h.locals h'.locals
  code c hc := ⟨h.code c (h'.tables.trans hc), h'.code c hc⟩

theorem Yields.mono {scope : List Local} {R : Chunk Value → Prop} (h : Yields s names s₁ scope Q)
    (hR : ∀ c, Q c → R c) : Yields s names s₁ scope R :=
  { h with code := fun c hc => hR c (h.code c hc) }

theorem Yields.scope {scope : List Local} (h : Yields s names s₁ scope Q) :
    s₁.body.scope = scope := by
  obtain ⟨_, _, rfl⟩ := h.grown
  rfl

theorem Yields.inLoop {scope : List Local} (h : Yields s names s₁ scope Q) :
    s₁.body.inLoop = s.body.inLoop := by
  obtain ⟨_, _, rfl⟩ := h.grown
  rfl

/-- Values that are the same constant as a number or text are the same value. -/
theorem eq_of_isSameConstant {v : Value} {literal : Literal}
    (h : v.isSameConstant literal.value = true) : v = literal.value := by
  cases v <;> cases literal <;> simp_all [Value.isSameConstant, Literal.value, BEq.beq, Value.beq]

theorem constant_eq {literal : Literal} (hc : s.body.chunk.constants.size ≤ Chunk.maxEntries)
    (hr : ¬ (constant literal.value loc ctx s).1.Refused) :
    ∃ i constants, constant literal.value loc ctx s =
        (.instr loc.line ⟨.constant, i⟩, s.grown constants s.body.chunk.locals s.body.scope) ∧
      constants.size ≤ Chunk.maxEntries ∧
      Tables s.body.chunk { s.body.chunk with constants } ∧
      constants[i.toNat]? = some literal.value := by
  rw [constant_run] at hr ⊢
  rcases h : s.body.chunk.addConstant literal.value with ⟨_ | i, chunk⟩
  · rw [h] at hr
    exact absurd trivial hr
  · obtain ⟨constants, rfl, hi⟩ := Chunk.addConstant_eq_some h hc
    obtain ⟨x, hx, hsame⟩ := hi.denotes
    have hv : x = literal.value := hsame.elim id eq_of_isSameConstant
    exact ⟨i, constants, rfl, hi.size, ⟨fun n => hi.keeps n.toNat, fun _ _ => id⟩, hv ▸ hx⟩

theorem constant_yields {literal : Literal} (hs : s.Ready names)
    (hr : ¬ (constant literal.value loc ctx s).1.Refused) :
    Yields s names (constant literal.value loc ctx s).2 s.body.scope fun c =>
      ∃ i, (constant literal.value loc ctx s).1 = .instr loc.line ⟨.constant, i⟩ ∧
        c.constant? i = some literal.value := by
  obtain ⟨i, constants, hrun, hsize, htables, hi⟩ := constant_eq hs.constants hr
  rw [hrun]
  exact {
    ready := { hs with constants := hsize }
    grown := ⟨constants, s.body.chunk.locals, rfl⟩
    tables := htables
    locals := Nat.le_refl _
    code := fun c hc => ⟨i, rfl, hc.constants i _ hi⟩ }

theorem load_run {slot : UInt8} (h : slotIn s.body.scope name = some slot) :
    load name loc ctx s = (.skip ++ .instr loc.line ⟨.getLocal, slot⟩, s) := by
  have hslot : s.body.slot? name = some slot := h
  rw [load, bind_run, storage?_run, hslot]
  rfl

theorem store_run {slot : UInt8} (h : slotIn s.body.scope name = some slot) :
    store name loc ctx s = (.skip ++ .instr loc.line ⟨.setLocal, slot⟩, s) := by
  have hslot : s.body.slot? name = some slot := h
  rw [store, bind_run, storage?_run, hslot]
  rfl

theorem refused_unary {op : UnaryOp} (h : code.Refused) :
    (unary loc op code).Refused := by
  cases op <;> exact .inl h

theorem refused_binary {op : BinaryOp} {left right : Code} (h : left.Refused ∨ right.Refused) :
    (binary loc op left right).Refused := by
  cases op
  case and => exact h.imp id .inl
  case or => exact h.imp id .inr
  all_goals exact .inl h

/-- The code of a core expression, for which nothing but constants is added. -/
theorem expr_yields {e : Expr} (he : e.isCore names = true) (hs : s.Ready names)
    (hr : ¬ (expr e ctx s).1.Refused) :
    Yields s names (expr e ctx s).2 s.body.scope
      fun c => ExprCode c s.body.scope e (expr e ctx s).1 := by
  fun_induction Expr.isCore names e generalizing s with
  | case1 literal ty loc =>
    have hconstant : ∀ {t : Literal}, ¬ (constant t.value loc ctx s).1.Refused →
        Yields s names (constant t.value loc ctx s).2 s.body.scope fun c =>
          ExprCode c s.body.scope ⟨.literal t, ty, loc⟩ (constant t.value loc ctx s).1 := by
      intro t hr
      refine (constant_yields hs hr).mono fun c hc => ?_
      obtain ⟨i, hcode, hi⟩ := hc
      rw [hcode]
      exact .constant hi
    cases literal with
    | int n => exact hconstant (t := .int n) hr
    | bool b =>
      cases b with
      | true => exact .steady hs fun _ _ => .pushTrue
      | false => exact .steady hs fun _ _ => .pushFalse
    | string t => exact hconstant (t := .string t) hr
    | none => exact .steady hs fun _ _ => .pushNone
  | case2 name ty loc =>
    obtain ⟨slot, hslot⟩ := hs.names name (by simpa using he)
    have hrun : expr ⟨.var name, ty, loc⟩ ctx s = _ := load_run hslot
    rw [hrun]
    exact .steady hs fun c _ => .load hslot
  | case3 op e ty loc ih =>
    have hrun : expr ⟨.unary op e, ty, loc⟩ ctx s =
      (unary loc op (expr e ctx s).1, (expr e ctx s).2) := rfl
    rw [hrun] at hr ⊢
    exact (ih he hs (mt refused_unary hr)).mono fun c h => .unary h
  | case4 left op right ty loc ih ih' =>
    have hrun : expr ⟨.binary left op right, ty, loc⟩ ctx s =
      (binary loc op (expr left ctx s).1 (expr right ctx (expr left ctx s).2).1,
        (expr right ctx (expr left ctx s).2).2) := rfl
    rw [hrun] at hr ⊢
    rw [Bool.and_eq_true] at he
    have hl := ih he.1 hs fun h => hr (refused_binary (.inl h))
    have hr' := ih' he.2 hl.ready fun h => hr (refused_binary (.inr h))
    rw [hl.scope] at hr'
    exact (hl.trans hr').mono fun c h => .binary h.1 h.2
  | case5 name ty loc value ty' loc' ih =>
    rw [Bool.and_eq_true] at he
    obtain ⟨slot, hslot⟩ := hs.names name (by simpa using he.1)
    have hrun : expr ⟨.assign ⟨.var name, ty, loc⟩ value, ty', loc'⟩ ctx s =
      ((expr value ctx s).1 ++ (store name loc' ctx (expr value ctx s).2).1,
        (store name loc' ctx (expr value ctx s).2).2) := rfl
    rw [hrun] at hr ⊢
    have hv := ih he.2 hs fun h => hr (.inl h)
    rw [store_run (hv.scope.symm ▸ hslot)]
    exact hv.mono fun c h => .assign h hslot
  | case6 cond yes no ty loc ih ihy ihn =>
    rw [Bool.and_eq_true, Bool.and_eq_true] at he
    have hrun : expr ⟨.ite cond yes no, ty, loc⟩ ctx s =
      let s₁ := (expr cond ctx s).2
      let s₂ := (expr yes ctx s₁).2
      ((expr cond ctx s).1 ++ .ite loc (expr yes ctx s₁).1 (expr no ctx s₂).1,
        (expr no ctx s₂).2) := rfl
    rw [hrun] at hr ⊢
    have hc := ih he.1.1 hs fun h => hr (.inl h)
    have hy := ihy he.1.2 hc.ready fun h => hr (.inr (.inl h))
    have hn := ihn he.2 hy.ready fun h => hr (.inr (.inr h))
    rw [hc.scope] at hy
    rw [hy.scope] at hn
    exact ((hc.trans hy).trans hn).mono fun c h => .ite h.1.1 h.1.2 h.2
  | case7 => cases he

theorem valueOrNone_yields {value : Option Expr} (he : value.all (·.isCore names) = true)
    (hs : s.Ready names) (hr : ¬ (valueOrNone loc value ctx s).1.Refused) :
    Yields s names (valueOrNone loc value ctx s).2 s.body.scope
      fun c => ValueCode c s.body.scope loc.line value (valueOrNone loc value ctx s).1 := by
  cases value with
  | none => exact .steady hs fun _ _ => .none
  | some e => exact (expr_yields he hs hr).mono fun c h => .some h

theorem slotIn_cons (l : Local) (scope : List Local) (name : String) :
    slotIn (l :: scope) name = if l.name = name then some l.slot else slotIn scope name := by
  rw [slotIn, List.find?_cons]
  by_cases h : l.name = name
  · simp [h]
  · rw [if_neg h, beq_eq_false_iff_ne.mpr h]
    rfl

theorem reserve?_yields (hs : s.Ready names) (hlt : s.body.chunk.locals.size < maxLocals) :
    Yields s (name :: names) (reserve? name ctx s).2
      (⟨name, UInt8.ofNat s.body.chunk.locals.size⟩ :: s.body.scope)
      fun _ => UInt8.ofNat s.body.chunk.locals.size ∉ s.body.scope.map (·.slot) := by
  rw [reserve?_run, if_pos hlt]
  have hsize : (s.body.chunk.locals.push name).size = s.body.chunk.locals.size + 1 :=
    Array.size_push _
  refine ⟨⟨hs.kind, hs.constants, hsize ▸ hlt, fun l hl => ?_, fun x hx => ?_⟩,
    ⟨_, _, rfl⟩, ⟨fun _ _ => id, fun _ _ => id⟩, ?_, fun _ _ hmem => ?_⟩
  · change l.slot.toNat < (s.body.chunk.locals.push name).size
    rw [hsize]
    rcases List.mem_cons.mp hl with rfl | hl
    · rw [toNat_slot hlt]
      exact Nat.lt_succ_self _
    · exact Nat.lt_succ_of_lt (hs.slots l hl)
  · change ∃ slot, slotIn (_ :: s.body.scope) x = some slot
    rw [slotIn_cons]
    split
    · exact ⟨_, rfl⟩
    · rename_i hne
      exact hs.names x ((List.mem_cons.mp hx).resolve_left fun he => hne he.symm)
  · exact Nat.le_of_lt (hsize ▸ Nat.lt_succ_self _)
  · obtain ⟨l, hl, he⟩ := List.mem_map.mp hmem
    have hslot := hs.slots l hl
    rw [he, toNat_slot hlt] at hslot
    exact Nat.lt_irrefl _ hslot

theorem define_yields (hs : s.Ready names) (hr : ¬ (define name loc ctx s).1.1.Refused) :
    ∃ slot, (define name loc ctx s).1.1 = .bind loc.line slot ∧
      Yields s (name :: names) (define name loc ctx s).2 (⟨name, slot⟩ :: s.body.scope)
        fun _ => slot ∉ s.body.scope.map (·.slot) := by
  rw [define, bind_run] at hr ⊢
  by_cases hlt : s.body.chunk.locals.size < maxLocals
  · have hy : Yields s (name :: names) (reserve? name ctx s).2 _ _ := reserve?_yields hs hlt
    rw [reserve?_run, if_pos hlt] at hy ⊢
    exact ⟨_, rfl, hy⟩
  · rw [reserve?_run, if_neg hlt] at hr
    exact absurd (.inl trivial) hr

/-! ## Statements -/

theorem stmts_run (done : List Code) (body : List Stmt) :
    stmts done body ctx s = ((stmts [] body ctx s).1 ++ done, (stmts [] body ctx s).2) := by
  induction body generalizing done s with
  | nil => rfl
  | cons stmt₀ rest ih =>
    have hrun : ∀ done, stmts done (stmt₀ :: rest) ctx s =
        stmts ((stmt stmt₀ ctx s).1 :: done) rest ctx (stmt stmt₀ ctx s).2 := fun done => by
      rw [stmts, bind_run]
    rw [hrun, hrun, ih, ih [_], List.append_assoc, List.singleton_append]

theorem joined_stmts_cons (stmt₀ : Stmt) (rest : List Stmt) :
    joined (stmts [] (stmt₀ :: rest)) ctx s =
      let r := stmt stmt₀ ctx s
      let r' := joined (stmts [] rest) ctx r.2
      (r.1 ++ r'.1, r'.2) := by
  have hjoin : ∀ (codes : List Code) (code : Code),
      Code.joinReversed (codes ++ [code]) = code ++ Code.joinReversed codes := by
    intro codes code
    rw [Code.joinReversed, List.foldl_append]
    rfl
  have hjoined : ∀ (part : Build (List Code)) (s : State),
      joined part ctx s = (Code.joinReversed (part ctx s).1, (part ctx s).2) := fun _ _ => rfl
  rw [hjoined, stmts, bind_run, stmts_run, hjoin]
  rfl

/-- What compiling statements yields in every state in which the given names are bound. -/
def BodyYields (ctx : Context) (names : List String) (body : List Stmt) : Prop :=
  ∀ s : State, s.Ready names → ¬ (joined (stmts [] body) ctx s).1.Refused → ∃ names' inner,
    Yields s names' (joined (stmts [] body) ctx s).2 inner
      fun c => StmtsCode c s.body.inLoop s.body.scope body (joined (stmts [] body) ctx s).1 inner

theorem inScope_yields {body : List Stmt} (h : BodyYields ctx names body) (hs : s.Ready names)
    (hr : ¬ (inScope (joined (stmts [] body)) ctx s).1.Refused) :
    Yields s names (inScope (joined (stmts [] body)) ctx s).2 s.body.scope fun c =>
      ∃ inner, StmtsCode c s.body.inLoop s.body.scope body
        (inScope (joined (stmts [] body)) ctx s).1 inner := by
  have hrun : inScope (joined (stmts [] body)) ctx s =
      let r := joined (stmts [] body) ctx
        { s with body := { s.body with depth := s.body.depth + 1 } }
      (r.1, { r.2 with
        body := { r.2.body with depth := r.2.body.depth - 1, scope := s.body.scope } }) := rfl
  rw [hrun] at hr ⊢
  obtain ⟨names', inner, hb⟩ :=
    h { s with body := { s.body with depth := s.body.depth + 1 } } { hs with } hr
  generalize joined (stmts [] body) ctx _ = r at hb hr ⊢
  obtain ⟨code, s₁⟩ := r
  obtain ⟨constants, locals, rfl⟩ := hb.grown
  exact {
    ready := { hb.ready with
      slots := fun l hl => Nat.lt_of_lt_of_le (hs.slots l hl) hb.locals, names := hs.names }
    grown := ⟨constants, locals, rfl⟩
    tables := hb.tables
    locals := hb.locals
    code := fun c hc => ⟨inner, hb.code c hc⟩ }

theorem inLoop_yields {body : List Stmt} (h : BodyYields ctx names body) (hs : s.Ready names)
    (hr : ¬ (inLoop (inScope (joined (stmts [] body))) ctx s).1.Refused) :
    Yields s names (inLoop (inScope (joined (stmts [] body))) ctx s).2 s.body.scope fun c =>
      ∃ inner, StmtsCode c true s.body.scope body
        (inLoop (inScope (joined (stmts [] body))) ctx s).1 inner := by
  have hrun : inLoop (inScope (joined (stmts [] body))) ctx s =
      let r := inScope (joined (stmts [] body)) ctx
        { s with body := { s.body with inLoop := true } }
      (r.1, { r.2 with body := { r.2.body with inLoop := s.body.inLoop } }) := rfl
  rw [hrun] at hr ⊢
  have hb := inScope_yields (s := { s with body := { s.body with inLoop := true } }) h
    { hs with } hr
  generalize inScope (joined (stmts [] body)) ctx _ = r at hb hr ⊢
  obtain ⟨code, s₁⟩ := r
  obtain ⟨constants, locals, rfl⟩ := hb.grown
  exact { hb with ready := { hb.ready with }, grown := ⟨constants, locals, rfl⟩ }

theorem atFileScope_run (hs : s.Ready names) : atFileScope ctx s = (false, s) := by
  have hkind : (s.body.kind == .file) = false := by rw [hs.kind]; rfl
  have hrun : atFileScope ctx s =
    (s.enclosing.isEmpty && s.body.kind == .file && s.body.depth == 1, s) := rfl
  rw [hrun, hkind, Bool.and_false, Bool.false_and]

mutual

theorem stmt_yields : (x : Stmt) → {names : List String} → x.isCore names = true →
    ∀ {s : State}, s.Ready names → ¬ (stmt x ctx s).1.Refused →
      ∃ scope, Yields s (x.declared ++ names) (stmt x ctx s).2 scope
        fun c => StmtCode c s.body.inLoop s.body.scope x (stmt x ctx s).1 scope
  | ⟨.expr e, loc⟩, _, he, s, hs, hr => by
    have hv := expr_yields he hs fun h => hr (.inl h)
    exact ⟨_, hv.mono fun c h => .expr h⟩
  | ⟨.bind name mutable ty value, loc⟩, _, he, s, hs, hr => by
    have hrun : stmt ⟨.bind name mutable ty value, loc⟩ ctx s =
        let r := valueOrNone loc value ctx s
        let r' := define name loc ctx r.2
        (r.1 ++ r'.1.1, r'.2) := by
      rw [stmt, stmtKind, bind_run, atFileScope_run hs]
      rfl
    simp only [hrun] at hr ⊢
    have hv := valueOrNone_yields he hs fun h => hr (.inl h)
    obtain ⟨slot, hcode, hd⟩ := define_yields hv.ready fun h => hr (.inr h)
    rw [hv.scope] at hd
    rw [hcode]
    exact ⟨_, (hv.trans hd).mono fun c h => .bind h.1 h.2⟩
  | ⟨.ite cond body none, loc⟩, _, he, s, hs, hr => by
    rw [Stmt.isCore, Bool.and_eq_true] at he
    have hc := expr_yields he.1 hs fun h => hr (.inl h)
    have hb := inScope_yields (stmts_yields body he.2) hc.ready fun h => hr (.inr h)
    rw [hc.scope, hc.inLoop] at hb
    refine ⟨_, (hc.trans hb).mono fun c h => ?_⟩
    obtain ⟨h, inner, hy⟩ := h
    exact .when h hy
  | ⟨.ite cond body (some elseBody), loc⟩, _, he, s, hs, hr => by
    rw [Stmt.isCore, Bool.and_eq_true, Bool.and_eq_true] at he
    have hc := expr_yields he.1.1 hs fun h => hr (.inl h)
    have hy := inScope_yields (stmts_yields body he.1.2) hc.ready fun h => hr (.inr (.inl h))
    have hn := inScope_yields (stmts_yields elseBody he.2) hy.ready fun h => hr (.inr (.inr h))
    rw [hc.scope, hc.inLoop] at hy
    rw [hy.scope, hy.inLoop, hc.inLoop] at hn
    refine ⟨_, ((hc.trans hy).trans hn).mono fun c h => ?_⟩
    obtain ⟨⟨h, inner, hy⟩, inner', hn⟩ := h
    exact .ite h hy hn
  | ⟨.loop cond body, loc⟩, _, he, s, hs, hr => by
    rw [Stmt.isCore, Bool.and_eq_true] at he
    have hc := expr_yields he.1 hs fun h => hr (.inl h)
    have hb := inLoop_yields (stmts_yields body he.2) hc.ready fun h => hr (.inr h)
    rw [hc.scope] at hb
    refine ⟨_, (hc.trans hb).mono fun c h => ?_⟩
    obtain ⟨h, inner, hb⟩ := h
    exact .loop h hb
  | ⟨.ret value, loc⟩, _, he, s, hs, hr => by
    have hkind : (s.body.kind == .initializer) = false := by rw [hs.kind]; rfl
    have hrun : stmt ⟨.ret value, loc⟩ ctx s =
        ((valueOrNone loc value ctx s).1 ++ .instr loc.line ⟨.ret, ()⟩,
          (valueOrNone loc value ctx s).2) := by
      rw [stmt, stmtKind, bind_run, get_run, hkind]
      rfl
    rw [hrun] at hr ⊢
    have hv := valueOrNone_yields he hs fun h => hr (.inl h)
    exact ⟨_, hv.mono fun c h => .ret h⟩
  | ⟨.break, loc⟩, _, he, s, hs, hr => by
    rw [stmt, stmtKind, bind_run, get_run] at hr ⊢
    by_cases hl : s.body.inLoop = true
    · simp only [if_pos hl]
      rw [hl]
      exact ⟨_, .steady hs fun _ _ => .leave⟩
    · simp only [if_neg hl] at hr
      exact absurd trivial hr
  | ⟨.continue, loc⟩, _, he, s, hs, hr => by
    rw [stmt, stmtKind, bind_run, get_run] at hr ⊢
    by_cases hl : s.body.inLoop = true
    · simp only [if_pos hl]
      rw [hl]
      exact ⟨_, .steady hs fun _ _ => .again⟩
    · simp only [if_neg hl] at hr
      exact absurd trivial hr
  | ⟨.block body, loc⟩, _, he, s, hs, hr => by
    have hb := inScope_yields (stmts_yields body he) hs hr
    refine ⟨_, hb.mono fun c h => ?_⟩
    obtain ⟨inner, h⟩ := h
    exact .block h
  | ⟨.func _, _⟩, _, he, _, _, _ => by cases he
  | ⟨.struct _, _⟩, _, he, _, _, _ => by cases he
  | ⟨.enum _, _⟩, _, he, _, _, _ => by cases he
  | ⟨.cases _ _ _, _⟩, _, he, _, _, _ => by cases he

theorem stmts_yields : (body : List Stmt) → {names : List String} →
    Stmt.areCore names body = true → BodyYields ctx names body
  | [], names, _, s, hs, _ => ⟨names, s.body.scope, .steady hs fun _ _ => .nil⟩
  | x :: xs, _, he, s, hs, hr => by
    rw [Stmt.areCore, Bool.and_eq_true] at he
    simp only [joined_stmts_cons] at hr ⊢
    obtain ⟨scope, hx⟩ := stmt_yields x he.1 hs fun h => hr (.inl h)
    obtain ⟨names', inner, hxs⟩ := stmts_yields xs he.2 _ hx.ready fun h => hr (.inr h)
    rw [hx.scope, hx.inLoop] at hxs
    exact ⟨names', inner, (hx.trans hxs).mono fun c h => .cons h.1 h.2⟩

end

/-! ## Functions -/

def Blank (code : Code) : Prop := ∀ cells t a, code.placed cells t a = []

theorem Blank.width (h : Blank code) : code.width = 0 := by
  have hchain := code.chain_placed [] {} 0
  rw [h] at hchain
  have hlen := hchain.length_bytes
  simpa using hlen.symm

theorem Idle.blank (h : Idle code) : Blank code := by
  induction code with
  | skip => exact fun _ _ _ => rfl
  | seq first rest ih ih' =>
    intro cells t a
    rw [Code.placed, ih h.1, ih' h.2, List.append_nil]
  | _ => exact h.elim

theorem exists_slotIn (names : List String) {n : Nat} {scope : List Local}
    (h : name ∈ names ∨ ∃ slot, slotIn scope name = some slot) :
    ∃ slot, slotIn (paramScope n scope names) name = some slot := by
  induction names generalizing n scope with
  | nil => exact h.resolve_left List.not_mem_nil
  | cons first names ih =>
    refine ih (or_iff_not_imp_left.mpr fun hn => ?_)
    rw [slotIn_cons]
    by_cases hf : first = name
    · exact ⟨_, if_pos hf⟩
    · rw [if_neg hf]
      exact h.resolve_left fun hm => (List.mem_cons.mp hm).elim (fun he => hf he.symm) hn

theorem slot_lt_of_mem_paramScope {params : List String} {n : Nat} {scope : List Local} {l : Local}
    (h : l ∈ paramScope n scope params) (hn : n + params.length ≤ maxLocals)
    (hs : ∀ l ∈ scope, l.slot.toNat < n) : l.slot.toNat < n + params.length := by
  induction params generalizing n scope with
  | nil => exact hs l h
  | cons name params ih =>
    rw [List.length_cons] at hn ⊢
    have hlt := ih h (by omega) (List.forall_mem_cons.mpr
      ⟨by rw [toNat_slot (by omega)]; omega, fun l hl => Nat.lt_succ_of_lt (hs l hl)⟩)
    omega

structure Fresh (kind : BodyKind) (params : List Param) (s : State) : Prop where
  bodyKind : s.body.kind = kind
  scope : s.body.scope = paramScope 0 [] (firstNames kind params)
  cells : s.body.cells = []
  inLoop : s.body.inLoop = false
  code : s.body.chunk.code = #[]
  constants : s.body.chunk.constants = #[]
  receiver : s.body.chunk.hasReceiver = kind.hasReceiver
  arity : s.body.chunk.arity.toNat = params.length
  locals : s.body.chunk.locals.size = (firstNames kind params).length
  room : (firstNames kind params).length ≤ maxLocals

theorem declareParams_fresh {kind : BodyKind} {params : List Param} (hr : ¬ (declareParams params
      loc ctx { body := Body.empty kind name symbol path }).1.Refused) :
    Blank (declareParams params loc ctx { body := Body.empty kind name symbol path }).1 ∧
      Fresh kind params
        (declareParams params loc ctx { body := Body.empty kind name symbol path }).2 := by
  obtain ⟨hidle, hlen, hle, hrun⟩ := (declareParams_cases ctx rfl params loc).resolve_left hr
  refine ⟨hidle.blank, ?_⟩
  rw [hrun]
  generalize hs : State.taking { body := Body.empty kind name symbol path } _ = s
  obtain ⟨locals, hfold⟩ := foldl_declared_eq (firstNames kind params) s
  have hsize := size_foldl_declared (firstNames kind params) s
  rw [hfold] at hsize ⊢
  subst hs
  exact ⟨rfl, rfl, rfl, rfl, rfl, rfl, rfl, toNat_slot (Nat.lt_of_le_of_lt hlen (by decide)),
    hsize.trans (Nat.zero_add _), hle⟩

theorem Fresh.ready {params : List Param} (h : Fresh .function params s) :
    s.Ready (params.map (·.name)) where
  kind := h.bodyKind
  constants := by
    rw [h.constants]
    exact Nat.zero_le _
  locals := h.locals ▸ h.room
  slots l hl := by
    rw [h.scope] at hl
    have hlt := slot_lt_of_mem_paramScope hl ((Nat.zero_add _).symm ▸ h.room) (by simp)
    rwa [Nat.zero_add, ← h.locals] at hlt
  names x hx := h.scope ▸ exists_slotIn _ (.inl hx)

/-- What the chunk of a core function is like, in which the code of the parameters and that of the
body are laid out. -/
structure FunctionCode (decl : FuncDecl) (c : Chunk Value) (head body : Code) : Prop where
  arity : c.arity.toNat = decl.params.length
  receiver : c.hasReceiver = false
  slots : decl.params.length ≤ maxLocals
  blank : Blank head
  stmts : ∃ inner, StmtsCode c false (paramScope 0 [] decl.paramNames) decl.body body inner
  placed : ∀ o i, (o, i) ∈ (head ++ body ++ fallOff decl.body decl.loc.line).placed [] {} 0 →
    Instruction.decode? c.code o = some i
  fits : (head ++ body ++ fallOff decl.body decl.loc.line).Fits false false {} 0

theorem functionBody_code {decl : FuncDecl} (hcore : decl.isCore = true)
    (hrun : functionBody decl ctx { body := Body.empty .function name symbol path } = (code, s))
    (hfits : code.Fits false false {} 0) :
    ∃ head body, FunctionCode decl (code.layout s.body.cells s.body.chunk) head body := by
  have hparts : functionBody decl ctx { body := Body.empty .function name symbol path } =
      let r := declareParams decl.params decl.loc ctx
        { body := Body.empty .function name symbol path }
      let r' := joined (stmts [] decl.body) ctx r.2
      (r.1 ++ r'.1 ++ fallOff decl.body decl.loc.line, r'.2) := rfl
  have hr := hfits.not_refused
  obtain ⟨rfl, rfl⟩ := Prod.mk.inj (hparts.symm.trans hrun)
  obtain ⟨hblank, hfresh⟩ := declareParams_fresh fun h => hr (.inl (.inl h))
  generalize declareParams decl.params decl.loc ctx _ = params at hblank hfresh hfits hr ⊢
  obtain ⟨head, s₁⟩ := params
  obtain ⟨names, inner, hbody⟩ :=
    stmts_yields decl.body hcore s₁ hfresh.ready fun h => hr (.inl (.inr h))
  generalize joined (stmts [] decl.body) ctx s₁ = run at hbody hfits hr ⊢
  obtain ⟨body, s'⟩ := run
  obtain ⟨constants, locals, rfl⟩ := hbody.grown
  rw [hfresh.scope, hfresh.inLoop] at hbody
  have hempty : (s₁.grown constants locals inner).body.chunk.code = #[] := hfresh.code
  have hlay := Code.laidOut_layout (s₁.grown constants locals inner).body.cells hempty
    (head ++ body ++ fallOff decl.body decl.loc.line)
  obtain ⟨lines, hout⟩ := hlay.adds
  refine ⟨head, body, ?_, ?_, ?_, hblank, ⟨inner, hbody.code _ ?_⟩, ?_, hfits⟩
  · rw [hout]
    exact hfresh.arity
  · rw [hout]
    exact hfresh.receiver
  · rw [← decl.params.length_map (·.name)]
    exact hfresh.room
  · rw [hout]
    exact ⟨fun _ _ => id, fun _ _ => id⟩
  · have hc : (s₁.grown constants locals inner).body.cells = [] := hfresh.cells
    rw [hc] at hlay ⊢
    exact hlay.holds

theorem ofFunction_code {space : Space} {decl : FuncDecl} {r : Compiled}
    (h : Compiled.ofFunction space path symbol decl = .ok r) (hcore : decl.isCore = true) :
    ∃ head body, FunctionCode decl r.chunk head body := by
  obtain ⟨hp, rfl⟩ := Body.compile_layout h
  exact functionBody_code hcore rfl (Code.fits_of_problems_eq_nil hp)

end StackCode.Lowering
