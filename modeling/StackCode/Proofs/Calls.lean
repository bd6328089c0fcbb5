import StackCode.Proofs.Functions

/-! # Operators, calls and members

What operators, calls and reads of members emit, given what their parts emit. What a name stands for
is asked of the captures taken up so far in compilation, and of the scopes in the walk.
-/

namespace StackCode.Lowering

variable {v : View} {m : Mode} {s s₁ s₂ : State} {p p₁ p₂ : Point} {d : Int} {loc : Location}
  {name : String} {c c' : Code}

/-! ## Names that are not bound lexically -/

/-- A body around binds a name if and only if a scope around does. -/
theorem any_binds_eq {strict : Prop} {space : Space} {bodies : List Body}
    (h : AllPlaced strict space bodies) :
    bodies.any (·.binds name) = (binding? name (scopes bodies)).isSome := by
  induction bodies with
  | nil => rfl
  | cons b outer ih =>
    rw [List.any_cons, ih h.2, binding?_cons, Body.binds]
    cases b.slot? name with
    | some n => rfl
    | none =>
      simp only [Option.isSome_none, Bool.false_or, Option.isSome_map]
      cases hc : b.capture? name with
      | none => rfl
      | some i =>
        obtain ⟨out, n, hb, -⟩ := (Body.finds_of_capture? h hc).leads
        rw [hb]
        rfl

theorem global?_run {ctx : Context} (name : String) : global? name ctx s =
    (if (s.body :: s.enclosing).any (·.binds name) then none else ctx.space.resolve? name, s) := by
  rw [global?, bind_run]
  change (if (s.body :: s.enclosing).any (·.binds name) then pure none else _ : Build _) ctx s = _
  split <;> rfl

theorem global?_point (h : Stands v s p) (name : String) :
    global? name v.ctx s = (p.global? v.space name, s) := by
  rw [global?_run, Point.global?, ← h.scopes_eq, ← any_binds_eq h.placed]

theorem namedEnum?_point (h : Stands v s p) (e : Expr) :
    namedEnum? e v.ctx s = (p.namedEnum? v.space e, s) := by
  unfold namedEnum? Point.namedEnum?
  cases e.kind with
  | var name =>
    simp only [bind_run, global?_point h]
    rcases p.global? v.space name with _ | _ | _ | _ | _ <;> rfl
  | _ => rfl

theorem calleeParams?_point (h : Stands v s p) (callee : Expr) :
    calleeParams? callee v.ctx s = (p.calleeParams? v.space callee, s) := by
  unfold calleeParams? Point.calleeParams?
  cases callee.kind with
  | var name =>
    simp only [bind_run, read_run, global?_point h]
    rcases p.global? v.space name with _ | _ | _ | _ | _ <;> rfl
  | _ => rfl

theorem atFileScope_point (h : Stands v s p) : atFileScope v.ctx s = (p.atFileScope, s) := by
  have hempty : s.enclosing.isEmpty = p.outer.isEmpty := by
    rw [← h.outer]
    cases s.enclosing <;> rfl
  have hrun : atFileScope v.ctx s =
      (s.enclosing.isEmpty && s.body.kind == .file && s.body.depth == 1, s) := rfl
  rw [hrun, Point.atFileScope, hempty, h.kind, h.depth]

/-! ## Operators -/

theorem unary_emits (op : UnaryOp) (loc : Location) (hd : 0 ≤ d)
    (h : Emits v m ⟨s, p, d⟩ c ⟨s₁, p₁, d + 1⟩) :
    Emits v m ⟨s, p, d⟩ (unary loc op c) ⟨s₁, p₁, d + 1⟩ := by
  cases op with
  | neg | not => exact h.reduces 1 hd rfl (Nat.le_refl _) (by simp) rfl

theorem Emits.two (h : Emits v m ⟨s, p, d⟩ c ⟨s₁, p₁, d + 1⟩)
    (h' : Emits v m ⟨s₁, p₁, d + 1⟩ c' ⟨s₂, p₂, d + 1 + 1⟩) :
    Emits v m ⟨s, p, d⟩ (c ++ c') ⟨s₂, p₂, d + (2 : Nat)⟩ := by
  have hsum : d + ((2 : Nat) : Int) = d + 1 + 1 := by omega
  rw [hsum]
  exact h.seq h'

theorem binary_emits {q : Prop} {inLoop inArm : Bool} (op : BinaryOp) (loc : Location) (hd : 0 ≤ d)
    (h : Emits v ⟨q, inLoop, inArm⟩ ⟨s, p, d⟩ c ⟨s₁, p₁, d + 1⟩)
    (h' : ∀ q x, 0 ≤ x → Emits v ⟨q, inLoop, inArm⟩ ⟨s₁, p₁, x⟩ c' ⟨s₂, p₂, x + 1⟩) :
    Emits v ⟨q, inLoop, inArm⟩ ⟨s, p, d⟩ (binary loc op c c') ⟨s₂, p₂, d + 1⟩ := by
  cases op
  case and => exact h.seq (Emits.ite hd (h' True d hd) fun _ _ => .plain rfl hd (by simp) rfl)
  case or => exact h.seq (Emits.ite hd (.plain rfl hd (by simp) rfl) fun _ _ => h' True d hd)
  all_goals
    exact (h.two (h' q (d + 1) (by omega))).reduces 2 hd rfl (Nat.le_refl _) (by simp) rfl

/-! ## Arguments -/

namespace Labelled

variable {α β : Type} {x : α} {callee callee' : String} {params : List String}

theorem mem_fill {slots : List (Option α)} {rest : List α} (h : x ∈ fill slots rest) :
    some x ∈ slots ∨ x ∈ rest := by
  fun_induction fill slots rest with
  | case1 => cases h
  | case2 a slots rest ih =>
    rcases List.mem_cons.mp h with rfl | h
    · exact .inl List.mem_cons_self
    · exact (ih h).imp_left (List.mem_cons_of_mem _)
  | case3 slots a rest ih =>
    rcases List.mem_cons.mp h with rfl | h
    · exact .inr List.mem_cons_self
    · exact (ih h).imp (List.mem_cons_of_mem _) (List.mem_cons_of_mem _)
  | case4 slots ih => exact (ih h).imp_left (List.mem_cons_of_mem _)

theorem mem_give {s : Slots α} {arg : Labelled α}
    (h : some x ∈ (give callee params s arg).slots) : some x ∈ s.slots ∨ x = arg.value := by
  unfold give at h
  split at h
  · exact .inl h
  split at h
  · exact .inl h
  split at h
  · rcases List.mem_or_eq_of_mem_set h with h | h
    · exact .inl h
    · exact .inr (Option.some.inj h)
  · exact .inl h

theorem mem_foldl_give {args : List (Labelled α)} {s : Slots α}
    (h : some x ∈ (args.foldl (give callee params) s).slots) :
    some x ∈ s.slots ∨ ∃ arg ∈ args, x = arg.value := by
  induction args generalizing s with
  | nil => exact .inl h
  | cons arg args ih =>
    rcases ih h with h | ⟨arg', h, hx⟩
    · rcases mem_give h with h | h
      · exact .inl h
      · exact .inr ⟨arg, List.mem_cons_self, h⟩
    · exact .inr ⟨arg', List.mem_cons_of_mem _ h, hx⟩

/-- Whatever the order, what is passed are arguments of the call. -/
theorem mem_arrange {params : Option (List String)} {args : List (Labelled α)}
    (h : x ∈ (arrange callee params args).2) : ∃ arg ∈ args, x = arg.value := by
  have hmap : x ∈ args.map (·.value) → ∃ arg ∈ args, x = arg.value := by
    intro hx
    obtain ⟨arg, ha, rfl⟩ := List.mem_map.mp hx
    exact ⟨arg, ha, rfl⟩
  unfold arrange at h
  split at h
  · split at h
    · rcases mem_fill h with h | h
      · rcases mem_foldl_give h with h | h
        · cases List.eq_of_mem_replicate h
        · exact h
      · obtain ⟨arg, ha, rfl⟩ := List.mem_map.mp h
        exact ⟨arg, (List.mem_filter.mp ha).1, rfl⟩
    · exact hmap h
  · exact hmap h

def map (f : α → β) (arg : Labelled α) : Labelled β := ⟨arg.label, arg.loc, f arg.value⟩

theorem fill_map (f : α → β) (slots : List (Option α)) (rest : List α) :
    fill (slots.map (Option.map f)) (rest.map f) = (fill slots rest).map f := by
  fun_induction fill slots rest with
  | case1 => rfl
  | case2 a slots rest ih => simp [fill, ih]
  | case3 slots a rest ih => simp [fill, ih]
  | case4 slots ih => simpa [fill] using ih

theorem slots_give_map (f : α → β) {s : Slots β} {s' : Slots α}
    (h : s.slots = s'.slots.map (Option.map f)) (arg : Labelled α) :
    (give callee params s (arg.map f)).slots =
      (give callee' params s' arg).slots.map (Option.map f) := by
  have hget : ∀ i : Nat, s.slots[i]? = s'.slots[i]?.map (Option.map f) := by simp [h]
  unfold give
  rw [map]
  cases arg.label with
  | none => exact h
  | some label =>
    simp only
    cases params.findIdx? (· == label) with
    | none => exact h
    | some i =>
      simp only [hget]
      rcases s'.slots[i]? with _ | _ | a
      · exact h
      · simp [h, List.map_set]
      · exact h

theorem slots_foldl_give_map (f : α → β) (args : List (Labelled α)) {s : Slots β} {s' : Slots α}
    (h : s.slots = s'.slots.map (Option.map f)) :
    ((args.map (map f)).foldl (give callee params) s).slots =
      (args.foldl (give callee' params) s').slots.map (Option.map f) := by
  induction args generalizing s s' with
  | nil => exact h
  | cons arg args ih => exact ih (slots_give_map f h arg)

/-- The order of arguments depends on their labels only. -/
theorem arrange_map (f : α → β) (callee callee' : String) (params : Option (List String))
    (args : List (Labelled α)) :
    (arrange callee params (args.map (map f))).2 = (arrange callee' params args).2.map f := by
  have hvalues : (args.map (map f)).map (·.value) = (args.map (·.value)).map f := by
    simp [map]
  have hany : (args.map (map f)).any (·.label.isSome) = args.any (·.label.isSome) := by
    simp [map, List.any_map, Function.comp_def]
  have hfree : unlabelled (args.map (map f)) = (unlabelled args).map f := by
    simp [unlabelled, List.filter_map, map, Function.comp_def]
  cases params with
  | none => exact hvalues
  | some params =>
    simp only [arrange, hany]
    split
    · simp only [place, List.length_map, hfree, ← fill_map]
      rw [slots_foldl_give_map f args]
      simp
    · exact hvalues

end Labelled

def labelled (args : List Argument) : List (Labelled Expr) :=
  args.map fun arg => ⟨arg.label, arg.value.loc, arg.value⟩

theorem arguments_eq (args : List Argument) :
    arguments args = (labelled args).map (Labelled.map expr) := by
  induction args with
  | nil => rw [arguments]; rfl
  | cons arg args ih =>
    obtain ⟨label, value⟩ := arg
    rw [arguments, ih]
    rfl

theorem Point.arguments_eq (space : Space) (args : List Argument) :
    Point.arguments space args = (labelled args).map (Labelled.map (Point.expr space)) := by
  induction args with
  | nil => rw [Point.arguments]; rfl
  | cons arg args ih =>
    obtain ⟨label, value⟩ := arg
    rw [Point.arguments, ih]
    rfl

/-- The expression leaves its value, as the walk through it says. -/
abbrev Evaluates (v : View) (x : Expr) : Prop := Pushes v (expr x) (Point.expr v.space x)

theorem sequence_emits {es : List Expr} (h : ∀ e ∈ es, Evaluates v e) {e : Int} (he : 0 ≤ e)
    {done : List Code} (hdone : Emits v m ⟨s, p, d⟩ (Code.joinReversed done) ⟨s₁, p₁, e⟩) :
    Emits v m ⟨s, p, d⟩ (Code.joinReversed (sequence done (es.map expr) v.ctx s₁).1)
      ⟨(sequence done (es.map expr) v.ctx s₁).2,
        (es.map (Point.expr v.space)).foldl (fun p walk => walk p) p₁, e + es.length⟩ := by
  induction es generalizing s₁ p₁ done e with
  | nil => exact (Int.add_zero e).symm ▸ hdone
  | cons x es ih =>
    have hnext := hdone.snoc (h x List.mem_cons_self m s₁ p₁ e he)
    have hlen : e + ((x :: es).length : Int) = e + 1 + es.length := by
      rw [List.length_cons]
      omega
    rw [hlen]
    exact ih (fun e' he => h e' (List.mem_cons_of_mem _ he)) (by omega) hnext

variable {args : List Argument}

/-- Arguments that are not refused are compiled one after another. -/
theorem pass_run {ctx : Context} {callee : String} {params : Option (List String)}
    (h : ¬ (pass callee params (arguments args) loc ctx s).1.1.Refused) :
    let order := (Labelled.arrange "" params (labelled args)).2
    let q := sequence [] (order.map expr) ctx s
    (Labelled.arrange callee params (arguments args)).1 = [] ∧ order.length ≤ maxArguments ∧
      pass callee params (arguments args) loc ctx s =
        ((.skip ++ .skip ++ Code.joinReversed q.1, UInt8.ofNat order.length), q.2) := by
  have hbuilds := Labelled.arrange_map expr callee "" params (labelled args)
  rw [← arguments_eq] at hbuilds
  rw [pass] at h ⊢
  generalize Labelled.arrange callee params (arguments args) = r at h hbuilds ⊢
  generalize (Labelled.arrange "" params (labelled args)).2 = order at hbuilds ⊢
  obtain ⟨problems, parts⟩ := r
  dsimp only at hbuilds
  subst hbuilds
  simp only [bind_run, mapM_report_run] at h ⊢
  by_cases hlen : (order.map expr).length > maxArguments
  · simp only [hlen, if_true] at h
    exact absurd (.inl (.inr trivial)) h
  · simp only [hlen, if_false] at h ⊢
    cases problems with
    | cons x xs =>
      refine absurd (.inl (.inl ?_)) h
      exact Code.refused_joinReversed.mpr ⟨_, List.mem_reverse.mpr List.mem_cons_self, trivial⟩
    | nil =>
      rw [List.length_map] at hlen ⊢
      rw [Nat.min_eq_left (Nat.not_lt.mp hlen)]
      exact ⟨rfl, Nat.not_lt.mp hlen, rfl⟩

theorem pass_emits {callee : String} {params : Option (List String)} (hd : 0 ≤ d)
    (h : ∀ arg ∈ args, Evaluates v arg.value) :
    Emits v m ⟨s, p, d⟩ (pass callee params (arguments args) loc v.ctx s).1.1
      ⟨(pass callee params (arguments args) loc v.ctx s).2,
        p.pass params (Point.arguments v.space args),
        d + (pass callee params (arguments args) loc v.ctx s).1.2.toNat⟩ := by
  have hargs : ∀ e ∈ (Labelled.arrange "" params (labelled args)).2, Evaluates v e := by
    intro e he
    obtain ⟨arg', ha', rfl⟩ := Labelled.mem_arrange he
    obtain ⟨arg, ha, rfl⟩ := List.mem_map.mp ha'
    exact h arg ha
  by_cases hr : (pass callee params (arguments args) loc v.ctx s).1.1.Refused
  · exact .refused hr
  obtain ⟨-, hle, hrun⟩ := pass_run hr
  rw [hrun, Point.pass, Point.arguments_eq, Labelled.arrange_map (Point.expr v.space) "" ""]
  dsimp only
  rw [toNat_slot (Nat.lt_of_le_of_lt hle (by decide))]
  exact (Emits.skip.seq Emits.skip).seq (sequence_emits hargs hd Emits.skip)

/-! ## Calls -/

theorem call_emits {line : UInt32} (count : UInt8) (hd : 0 ≤ d) :
    Emits v m ⟨s, p, d + 1 + count.toNat⟩ (.instr line ⟨.call, count⟩) ⟨s, p, d + 1⟩ := by
  refine .plain rfl ?_ (by simp) ?_
  · change ((count.toNat + 1 : Nat) : Int) ≤ _
    omega
  · change d + 1 + (count.toNat : Int) + -(count.toNat : Int) = _
    omega

theorem callValue_pushes {callee : Expr} (hc : Evaluates v callee)
    (ha : ∀ arg ∈ args, Evaluates v arg.value) :
    Pushes v (callValue callee (expr callee) (arguments args) loc) fun p =>
      (Point.expr v.space callee p).pass (p.calleeParams? v.space callee)
        (Point.arguments v.space args) := by
  refine fun m s p d hd => Assures.intro fun hs => ?_
  rw [callValue, bind_run, calleeParams?_point hs]
  exact ((hc m s p d hd).seq (pass_emits (by omega) ha)).seq (call_emits _ hd)

/-- A method that is found in a space may be referred to. -/
theorem means_invoked {type : Ty} {method : Symbol} {space : Space}
    (h : invoked? space type name = some method) :
    ∃ t, space.structOf? type = some t ∧ t.method? name = some method := by
  obtain ⟨t, ht, hm⟩ := Option.bind_eq_some_iff.mp h
  split at hm
  · cases hm
  · exact ⟨t, ht, hm⟩

theorem invoke_lowers {count : UInt8} {method : Symbol} {type : Ty}
    (hm : invoked? v.space type name = some method) (hd : 0 ≤ d) :
    Lowers v m (refer method loc (⟨.invokeMethod, ⟨·, count⟩⟩)) s p p (d + 1 + count.toNat)
      (d + 1) := by
  obtain ⟨t, ht, hmethod⟩ := means_invoked hm
  refine refer_lowers none (fun _ _ hs => ⟨_, hs, type, t, name, ht, hmethod⟩) (fun _ => rfl)
    (fun _ _ _ => rfl) (fun _ => ?_) (fun _ => by simp) fun _ => ?_
  · change ((count.toNat + 1 : Nat) : Int) ≤ _
    omega
  · change d + 1 + (count.toNat : Int) + -(count.toNat : Int) = _
    omega

theorem checked_checkCase (receiver : Expr) (name : String) (got : Nat) (loc : Location)
    (h : Stands v s p) : Checked s (checkCase receiver name got loc v.ctx s) := by
  rw [checkCase, bind_run, namedEnum?_point h]
  cases p.namedEnum? v.space receiver with
  | none => exact checked_skip
  | some t =>
    simp only
    rcases t.case? name with _ | ⟨_, case⟩
    · exact checked_skip
    · cases hc : case.values.length == got with
      | true => simp only [hc, if_true]; exact checked_skip
      | false => simp only [hc]; exact checked_report

/-! ## Members -/

theorem readMember_pushes {type : Ty} {receiver : Build Code} {walk : Point → Point}
    (h : Pushes v receiver walk) : Pushes v (readMember type name receiver loc) walk := by
  intro m s p d hd
  unfold Lowers
  rw [readMember, bind_run, read_run]
  simp only
  cases ht : v.ctx.space.structOf? type with
  | none => exact substitute_lowers _ loc
  | some t =>
    simp only
    cases t.propertyOffset? name with
    | some offset => exact (h m s p d hd).reduces 1 hd rfl (Nat.le_refl _) (by simp) rfl
    | none =>
      simp only
      cases hm : t.method? name with
      | none => exact substitute_lowers _ loc
      | some method =>
        refine (h m s p d hd).seq (refer_lowers none
          (fun _ _ hs => ⟨_, hs, type, t, name, ht, hm⟩) (fun _ => rfl) (fun _ _ _ => rfl)
          (fun _ => ?_) (fun _ => by simp) fun _ => Int.add_zero _)
        change (1 : Int) ≤ d + 1
        omega

def RegularEnums (strict : Prop) (space : Space) : Prop :=
  strict → ∀ symbol t, space.enumType? symbol = some t → t.Regular symbol

/-- A case that is given a value is plain, and it is declared. -/
theorem of_caseValue? {strict : Prop} {space : Space} {symbol : Symbol} {t : EnumType}
    (hreg : RegularEnums strict space) (ht : space.enumType? symbol = some t)
    {x : EnumCase Value} (hx : t.caseValue? name = some x) :
    (Value.enumCase x).Plain ∧ (strict → x.Of space.enumType?) := by
  obtain ⟨⟨index, case⟩, hcase, hval⟩ := Option.bind_eq_some_iff.mp hx
  obtain ⟨i, hi, hget⟩ := Option.bind_eq_some_iff.mp hcase
  obtain ⟨y, hy, hpair⟩ := Option.bind_eq_some_iff.mp hget
  cases hpair
  cases hval
  refine ⟨rfl, fun hs => ?_⟩
  have hr := hreg hs symbol t ht
  have hlt : index < t.cases.length := (List.getElem?_eq_some_iff.mp hy).1
  have hindex : (UInt32.ofNat index).toNat = index := by
    rw [UInt32.toNat_ofNat']
    exact Nat.mod_eq_of_lt (Nat.lt_of_lt_of_le (Nat.lt_of_lt_of_le hlt hr.cases) (by decide))
  have hlen : case.values.length ≤ 255 := hr.values case (List.mem_of_getElem? hy)
  refine ⟨t, case, ?_, ?_, ?_⟩
  · change space.enumType? t.symbol = some t
    rw [hr.symbol]
    exact ht
  · change t.cases[(UInt32.ofNat index).toNat]? = some case
    rw [hindex]
    exact hy
  · change (UInt8.ofNat (min case.values.length 255)).toNat = case.values.length
    rw [Nat.min_eq_left hlen]
    exact toNat_slot (Nat.lt_of_le_of_lt hlen (by decide))

theorem Point.namedEnum?_eq_some {space : Space} {x : Expr} {t : EnumType}
    (h : p.namedEnum? space x = some t) : ∃ symbol, space.enumType? symbol = some t := by
  unfold Point.namedEnum? at h
  cases hk : x.kind with
  | var name =>
    simp only [hk] at h
    rcases hg : p.global? space name with _ | _ | _ | _ | symbol <;> simp only [hg] at h
    case some.enum => exact ⟨symbol, h⟩
    all_goals cases h
  | _ => simp [hk] at h

theorem enumCase_pushes (hreg : RegularEnums v.strict v.space) {symbol : Symbol} {t : EnumType}
    (ht : v.space.enumType? symbol = some t) (name : String) (loc : Location) :
    Pushes v (enumCase t name loc) id := by
  intro m s p d hd
  unfold Lowers
  rw [enumCase]
  cases h : t.caseValue? name with
  | some x =>
    obtain ⟨hplain, hof⟩ := of_caseValue? hreg ht h
    refine constant_pushes hplain (fun hs y hy => ?_) m s p d hd
    cases hy
    exact hof hs
  | none => exact .refused (.inl trivial)

/-! ## Collections and values of modules -/

theorem countOperand_cases (ctx : Context) (s : State) (n : Nat) (loc : Location) :
    (countOperand n loc ctx s).1.1.Refused ∨
      (n < 65536 ∧ countOperand n loc ctx s = ((.skip, UInt16.ofNat n), s)) := by
  unfold countOperand
  by_cases h : n < 65536
  · rw [if_pos h]
    exact .inr ⟨h, rfl⟩
  · rw [if_neg h]
    exact .inl trivial

theorem collect_emits {codes : List Code} {n k : Nat} (make : UInt16 → Instruction) (hd : 0 ≤ d)
    (h : Emits v m ⟨s, p, d⟩ (Code.joinReversed codes) ⟨s₁, p₁, d + (k * n : Nat)⟩)
    (hp : ∀ i, (make i).isPlain = true) (hr : ∀ i, (make i).opcode ≠ .ret)
    (hi : ∀ i, (make i).inputs = k * i.toNat)
    (he : ∀ i, (make i).effect = 1 - (k * i.toNat : Nat)) :
    Emits v m ⟨s, p, d⟩ (Code.joinReversed (.instr loc.line
      (make (countOperand n loc v.ctx s₁).1.2) :: (countOperand n loc v.ctx s₁).1.1 :: codes))
      ⟨(countOperand n loc v.ctx s₁).2, p₁, d + 1⟩ := by
  rcases countOperand_cases v.ctx s₁ n loc with href | ⟨hn, hrun⟩
  · refine .refused (Code.refused_joinReversed.mpr ⟨_, ?_, href⟩)
    exact List.mem_cons_of_mem _ List.mem_cons_self
  · rw [hrun]
    have hcount : (UInt16.ofNat n).toNat = n := by
      rw [UInt16.toNat_ofNat']
      exact Nat.mod_eq_of_lt hn
    refine (h.snoc .skip).snoc (.plain (hp _) ?_ (fun h => absurd h (hr _)) ?_)
    · rw [hi, hcount]
      omega
    · rw [he, hcount]
      omega

theorem force_lowers (name : String) (loc : Location) :
    Lowers v m (force name loc) s p (p.force v.space name) 0 0 := by
  unfold Lowers
  rw [force, bind_run, read_run, Point.force]
  simp only
  cases h : v.ctx.space.resolve? name == some (.value (Symbol.value v.ctx.space.module name)) with
  | false => exact .skip
  | true =>
    have hload : Lowers v m (refer (Symbol.value v.space.module name) loc (⟨.getModuleValue, ·⟩)) s
        p _ 0 1 :=
      refer_pushes (.read <| .global <| .value ·) (fun _ _ hs => ⟨_, hs, name, beq_iff_eq.mp h⟩)
        (fun _ => rfl) (fun _ _ _ => rfl) (fun _ => ⟨rfl, by simp, rfl⟩) (Int.le_refl 0)
    exact hload.dropped

theorem checked_declaration {ctx : Context} (sort : String) (loc : Location) :
    Checked s (declaration sort loc ctx s) := by
  obtain ⟨b, hb⟩ : ∃ b, atFileScope ctx s = (b, s) := ⟨_, rfl⟩
  rw [declaration, bind_run, hb]
  cases b with
  | true => exact checked_skip
  | false => exact checked_report

theorem fallOff_emits (body : List Stmt) (line : UInt32) :
    Emits v m ⟨s, p, 0⟩ (fallOff body line) ⟨s, p, 0⟩ :=
  Emits.returned (.plain rfl (Int.le_refl 0) (by simp) rfl)

end StackCode.Lowering
