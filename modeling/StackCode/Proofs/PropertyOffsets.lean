import StackCode.Proofs.Actions
import StackCode.Proofs.Arguments
import StackCode.Proofs.Clashes
import StackCode.Proofs.Construction

/-! # Properties keep their offsets

A struct without an initializer of its own gets one that stores defaults and arguments. Each goes to
the offset that its property has in the declaration, and by this offset members are read and
written.
-/

namespace StackCode

def Expr.literal? (e : Expr) : Option Value :=
  match e.kind with
  | .literal l => some l.value
  | _ => .none

def StructDecl.required (decl : StructDecl) : List String :=
  (decl.properties.filter (·.default.isNone)).map (·.name)

theorem StructDecl.initParams_names {decl : StructDecl} (hinit : decl.init = none) :
    decl.initParams.map (·.name) = decl.required := by
  rw [initParams, hinit]
  exact List.map_map

/-- The value that a property has at the start, by its offset: its default, or that of its name. -/
def StructDecl.initial? (decl : StructDecl) (val : String → Value) (i : Nat) : Option Value :=
  decl.properties[i]?.map fun q => (q.default.bind Expr.literal?).getD (val q.name)

/-- What a property of a new instance is set to: its default, or what is given for its name. -/
def PropertyDecl.initial (given : String → Expr) (q : PropertyDecl) : Expr :=
  q.default.getD (given q.name)

namespace Lowering

/-! ## Code of literals -/

open Machine (Puts Stores Contains Comes Matches)

variable {ctx : Context} {s r : State}

structure Refills (s r : State) : Prop where
  grown : ∃ constants, r = s.grown constants s.body.chunk.locals s.body.scope ∧
    constants.size ≤ Chunk.maxEntries
  tables : Tables s.body.chunk r.body.chunk

theorem Refills.refl (hc : s.body.chunk.constants.size ≤ Chunk.maxEntries) : Refills s s :=
  ⟨⟨_, rfl, hc⟩, .refl _⟩

theorem Refills.size (h : Refills s r) : r.body.chunk.constants.size ≤ Chunk.maxEntries := by
  obtain ⟨constants, rfl, hc⟩ := h.grown
  exact hc

theorem Refills.trans {r' : State} (h : Refills s r) (h' : Refills r r') : Refills s r' := by
  obtain ⟨_, rfl, -⟩ := h.grown
  obtain ⟨constants, rfl, hc⟩ := h'.grown
  exact ⟨⟨constants, rfl, hc⟩, h.tables.trans h'.tables⟩

theorem literal_run (ctx : Context) {e : Expr} {v : Value} (he : e.literal? = some v)
    (hc : s.body.chunk.constants.size ≤ Chunk.maxEntries) (hr : ¬ (expr e ctx s).1.Refused) :
    Refills s (expr e ctx s).2 ∧ ∀ c, Tables (expr e ctx s).2.body.chunk c → ∀ p locals,
      Puts p c locals (expr e ctx s).1 [v] := by
  obtain ⟨kind, ty, loc⟩ := e
  have hconstant : ∀ l : Literal, ¬ (constant l.value loc ctx s).1.Refused →
      Refills s (constant l.value loc ctx s).2 ∧
        ∀ c, Tables (constant l.value loc ctx s).2.body.chunk c → ∀ p locals,
          Puts p c locals (constant l.value loc ctx s).1 [l.value] := by
    intro l hr
    obtain ⟨i, constants, hrun, hsize, htables, hi⟩ := constant_eq hc hr
    rw [hrun]
    exact ⟨⟨⟨constants, rfl, hsize⟩, htables⟩,
      fun c ht p locals => .constant (ht.constants i _ hi)⟩
  cases kind with
  | literal l =>
    cases he
    cases l with
    | int n => exact hconstant (.int n) hr
    | string t => exact hconstant (.string t) hr
    | none => exact ⟨.refl hc, fun c ht p locals => .instr (by simp) fun _ => rfl⟩
    | bool b =>
      cases b <;> exact ⟨.refl hc, fun c ht p locals => .instr (by simp) fun _ => rfl⟩
  | _ => cases he

theorem mem_sequence {code : Code} (parts : List (Build Code)) {done : List Code}
    (h : code ∈ done) : code ∈ (sequence done parts ctx s).1 := by
  induction parts generalizing done s with
  | nil => exact h
  | cons part parts ih => exact ih (List.mem_cons_of_mem _ h)

/-- Literals one after another. -/
theorem sequence_literals (ctx : Context) (es : List Expr) (hes : ∀ e ∈ es, e.literal?.isSome)
    {done : List Code}
    (hc : s.body.chunk.constants.size ≤ Chunk.maxEntries)
    (hr : ∀ code ∈ (sequence done (es.map expr) ctx s).1, ¬ code.Refused) :
    Refills s (sequence done (es.map expr) ctx s).2 ∧
      ∀ c, Tables (sequence done (es.map expr) ctx s).2.body.chunk c → ∀ p vs,
        List.Forall₂ (fun code v => ∀ locals, Puts p c locals code [v]) done.reverse vs →
        List.Forall₂ (fun code v => ∀ locals, Puts p c locals code [v])
          (sequence done (es.map expr) ctx s).1.reverse (vs ++ es.filterMap Expr.literal?) := by
  induction es generalizing done s with
  | nil => exact ⟨.refl hc, fun c _ p vs h => (List.append_nil vs).symm ▸ h⟩
  | cons e es ih =>
    obtain ⟨he, hes⟩ := List.forall_mem_cons.mp hes
    obtain ⟨v, hv⟩ := Option.isSome_iff_exists.mp he
    obtain ⟨hrefills, hpushes⟩ :=
      literal_run ctx hv hc (hr _ (mem_sequence (es.map expr) List.mem_cons_self))
    obtain ⟨hrest, hall⟩ := ih hes hrefills.size hr
    refine ⟨hrefills.trans hrest, fun c ht p vs h => ?_⟩
    rw [List.filterMap_cons_some hv, List.append_cons]
    refine hall c ht p _ ?_
    rw [List.reverse_cons]
    exact List.rel_append h (.cons (hpushes c (hrest.tables.trans ht) p) .nil)

/-! ## Code of initializers -/

theorem storeProperty_run {owner : StructType} {name : String} {i : Nat}
    (h : owner.propertyOffset? name = some i) (loc : Location) :
    storeProperty owner name loc ctx s = (.instr loc.line ⟨.getSelf, ()⟩ ++
      .instr loc.line ⟨.setProperty, propertyOperand i⟩ ++ .instr loc.line ⟨.pop, ()⟩, s) := by
  rw [storeProperty, h]
  rfl

theorem toNat_propertyOperand {i : Nat} (h : i < 256) : (propertyOperand i).toNat = i := by
  rw [propertyOperand, Nat.min_eq_left (Nat.le_of_lt_succ h), UInt8.toNat_ofNat',
    Nat.mod_eq_of_lt h]

variable {owner : StructType} {R : Nat → Value → Prop}

/-- Code stores values as told, among them values in the given properties. -/
def Fills (owner : StructType) (R : Nat → Value → Prop) (c : Chunk Value)
    (locals : Array Machine.Slot)
    (code : Code) (names : List String) : Prop :=
  c.hasReceiver = true → ∀ p ref, locals[0]? = some (.value (.object ref)) →
    ∃ writes, Stores p c locals ref code writes ∧ (∀ x ∈ writes, R x.1 x.2) ∧
      ∀ name ∈ names, ∃ i ∈ writes.map Prod.fst, owner.propertyOffset? name = some i

theorem Fills.blank {c : Chunk Value} {locals : Array Machine.Slot} {code : Code} (h : Blank code) :
    Fills owner R c locals code [] :=
  fun _ _ _ _ => ⟨[], ⟨fun _ _ _ _ _ hr => by rw [h.width] at hr; exact hr _⟩, by simp, by simp⟩

theorem Fills.skip {c : Chunk Value} {locals : Array Machine.Slot} :
    Fills owner R c locals .skip [] := .blank fun _ _ _ => rfl

theorem Fills.append {c : Chunk Value} {locals : Array Machine.Slot} {code code' : Code}
    {names names' : List String} (h : Fills owner R c locals code names)
    (h' : Fills owner R c locals code' names') :
    Fills owner R c locals (code ++ code') (names ++ names') := by
  intro hc p ref hself
  obtain ⟨writes, hs, hR, hnames⟩ := h hc p ref hself
  obtain ⟨writes', hs', hR', hnames'⟩ := h' hc p ref hself
  refine ⟨_, hs.append hs', List.forall_mem_append.mpr ⟨hR, hR'⟩, fun name hn => ?_⟩
  rw [List.map_append]
  rcases List.mem_append.mp hn with hn | hn
  · obtain ⟨i, hi, ho⟩ := hnames name hn
    exact ⟨i, List.mem_append_left _ hi, ho⟩
  · obtain ⟨i, hi, ho⟩ := hnames' name hn
    exact ⟨i, List.mem_append_right _ hi, ho⟩

theorem Fills.store {c : Chunk Value} {locals : Array Machine.Slot} {code : Code} {line : UInt32}
    {name : String} {i : Nat} {v : Value} (hi : i < 256) (ho : owner.propertyOffset? name = some i)
    (hR : R i v) (h : ∀ p, Puts p c locals code [v]) :
    Fills owner R c locals (code ++ (.instr line ⟨.getSelf, ()⟩ ++
      .instr line ⟨.setProperty, propertyOperand i⟩ ++ .instr line ⟨.pop, ()⟩)) [name] := by
  intro hc p ref hself
  refine ⟨_, .store hc hself (h p), ?_, ?_⟩
  · simpa [toNat_propertyOperand hi] using hR
  · simpa [toNat_propertyOperand hi] using ho

theorem storeDefaults_run (ctx : Context) (qs : List PropertyDecl) (hqs : ∀ q ∈ qs, ∃ i, i < 256 ∧
      owner.propertyOffset? q.name = some i ∧
      ∀ e, q.default = some e → ∃ v, e.literal? = some v ∧ R i v)
    (hc : s.body.chunk.constants.size ≤ Chunk.maxEntries)
    (hr : ¬ (storeDefaults owner qs ctx s).1.Refused) :
    Refills s (storeDefaults owner qs ctx s).2 ∧
      ∀ c, Tables (storeDefaults owner qs ctx s).2.body.chunk c → ∀ locals,
        Fills owner R c locals (storeDefaults owner qs ctx s).1
          ((qs.filter (·.default.isSome)).map (·.name)) := by
  induction qs generalizing s with
  | nil => exact ⟨.refl hc, fun _ _ _ => .skip⟩
  | cons q qs ih =>
    obtain ⟨⟨i, hi, ho, hq⟩, hqs⟩ := List.forall_mem_cons.mp hqs
    cases hdefault : q.default with
    | none =>
      have hrun : storeDefaults owner (q :: qs) ctx s =
          (.skip ++ (storeDefaults owner qs ctx s).1, (storeDefaults owner qs ctx s).2) := by
        rw [storeDefaults, hdefault]
        rfl
      rw [hrun] at hr ⊢
      rw [List.filter_cons_of_neg (by simp [hdefault])]
      obtain ⟨hrefills, hfills⟩ := ih hqs hc fun h => hr (.inr h)
      exact ⟨hrefills, fun c ht locals => Fills.skip.append (hfills c ht locals)⟩
    | some e =>
      obtain ⟨v, hv, hR⟩ := hq e hdefault
      have hrun : storeDefaults owner (q :: qs) ctx s =
          let first := expr e ctx s
          let rest := storeDefaults owner qs ctx first.2
          (first.1 ++ (.instr e.loc.line ⟨.getSelf, ()⟩ ++
            .instr e.loc.line ⟨.setProperty, propertyOperand i⟩ ++
            .instr e.loc.line ⟨.pop, ()⟩) ++ rest.1, rest.2) := by
        rw [storeDefaults, hdefault]
        simp only [bind_run, storeProperty_run ho]
        rfl
      simp only [hrun] at hr ⊢
      rw [List.filter_cons_of_pos (by simp [hdefault])]
      obtain ⟨hfirst, hpushes⟩ := literal_run ctx hv hc fun h => hr (.inl (.inl h))
      obtain ⟨hrest, hfills⟩ := ih hqs hfirst.size fun h => hr (.inr h)
      exact ⟨hfirst.trans hrest, fun c ht locals => (Fills.store hi ho hR fun p =>
        hpushes c (hrest.tables.trans ht) p locals).append (hfills c ht locals)⟩

theorem storeParams_run (ctx : Context) (loc : Location) (qs : List Param)
    (hqs : ∀ q ∈ qs, ∃ i slot, i < 256 ∧
      owner.propertyOffset? q.name = some i ∧ s.body.slot? q.name = some slot) :
    (storeParams owner loc qs ctx s).2 = s ∧ ∀ c (locals : Array Machine.Slot),
      (∀ q ∈ qs, ∀ i slot, owner.propertyOffset? q.name = some i → s.body.slot? q.name = some slot →
        ∃ v, locals[slot.toNat]? = some (.value v) ∧ R i v) →
      Fills owner R c locals (storeParams owner loc qs ctx s).1 (qs.map (·.name)) := by
  induction qs with
  | nil => exact ⟨rfl, fun _ _ _ => .skip⟩
  | cons q qs ih =>
    obtain ⟨⟨i, slot, hi, ho, hslot⟩, hqs⟩ := List.forall_mem_cons.mp hqs
    obtain ⟨hsame, hfills⟩ := ih hqs
    have hrun : storeParams owner loc (q :: qs) ctx s =
        (.instr loc.line ⟨.getLocal, slot⟩ ++ (.instr loc.line ⟨.getSelf, ()⟩ ++
          .instr loc.line ⟨.setProperty, propertyOperand i⟩ ++ .instr loc.line ⟨.pop, ()⟩) ++
          (storeParams owner loc qs ctx s).1, (storeParams owner loc qs ctx s).2) := by
      rw [storeParams]
      simp only [bind_run, get_run, hslot, storeProperty_run ho]
      rfl
    rw [hrun]
    refine ⟨hsame, fun c locals hlocals => ?_⟩
    obtain ⟨hq, hlocals⟩ := List.forall_mem_cons.mp hlocals
    obtain ⟨v, hv, hR⟩ := hq i slot ho hslot
    exact (Fills.store hi ho hR fun p => .getLocal hv).append (hfills c locals hlocals)

theorem slotIn_paramScope_of_notMem {names : List String} {name : String} (h : name ∉ names)
    (n : Nat)
    (scope : List Local) : slotIn (paramScope n scope names) name = slotIn scope name := by
  induction names generalizing n scope with
  | nil => rfl
  | cons first names ih =>
    rw [List.mem_cons, not_or] at h
    rw [paramScope, ih h.2, slotIn_cons, if_neg (Ne.symm h.1)]

/-- Names that differ have slots one behind another. -/
theorem slotIn_paramScope {names : List String} (hn : names.Nodup) {i : Nat} {name : String}
    (hi : names[i]? = some name) (n : Nat) (scope : List Local) :
    slotIn (paramScope n scope names) name = some (UInt8.ofNat (n + i)) := by
  induction names generalizing n scope i with
  | nil => cases hi
  | cons first names ih =>
    obtain ⟨hfresh, hn⟩ := List.nodup_cons.mp hn
    cases i with
    | zero =>
      cases hi
      rw [paramScope, slotIn_paramScope_of_notMem hfresh, slotIn_cons, if_pos rfl]
      rfl
    | succ i =>
      rw [paramScope, ih hn hi, Nat.add_assoc, Nat.add_comm 1]

section Properties

variable {module : String} {decl : StructDecl}

theorem propertyOffset?_ofDecl (module : String) (hnames : (decl.properties.map (·.name)).Nodup)
    {i : Nat} {q : PropertyDecl} (hq : decl.properties[i]? = some q) :
    (StructType.ofDecl module decl).propertyOffset? q.name = some i := by
  have hget : (decl.properties.map (·.name))[i]? = some q.name := by
    rw [List.getElem?_map, hq, Option.map_some]
  obtain ⟨hlt, hname⟩ := List.getElem?_eq_some_iff.mp hget
  refine List.findIdx?_eq_some_iff_getElem.mpr ⟨hlt, beq_iff_eq.mpr hname, fun j hj he => ?_⟩
  have hsame := hname.trans (eq_of_beq he).symm
  exact absurd ((hnames.getElem_inj_iff).mp hsame) (Nat.ne_of_gt hj)

theorem exists_propertyOffset (module : String) (hnames : (decl.properties.map (·.name)).Nodup)
    (hcount : decl.properties.length ≤ 256) {q : PropertyDecl} (hq : q ∈ decl.properties) :
    ∃ i < 256, decl.properties[i]? = some q ∧
      (StructType.ofDecl module decl).propertyOffset? q.name = some i := by
  obtain ⟨i, hi⟩ := List.mem_iff_getElem?.mp hq
  have hlt := (List.getElem?_eq_some_iff.mp hi).1
  exact ⟨i, by omega, hi, propertyOffset?_ofDecl module hnames hi⟩

theorem mem_initParams (hinit : decl.init = none) {x : Param} :
    x ∈ decl.initParams ↔ ∃ q ∈ decl.properties, q.default = none ∧ ⟨q.name, q.ty⟩ = x := by
  simp [StructDecl.initParams, hinit, and_assoc]

/-- A property has a default, or there is a parameter for it. -/
theorem mem_defaults_or_initParams (hinit : decl.init = none) {q : PropertyDecl}
    (hq : q ∈ decl.properties) : q.name ∈
      (decl.properties.filter (·.default.isSome)).map (·.name) ++
      decl.initParams.map (·.name) := by
  cases hdefault : q.default with
  | some e =>
    exact List.mem_append_left _
      (List.mem_map_of_mem (List.mem_filter.mpr ⟨hq, by simp [hdefault]⟩))
  | none =>
    exact List.mem_append_right _
      (List.mem_map.mpr ⟨_, (mem_initParams hinit).mpr ⟨q, hq, hdefault, rfl⟩, rfl⟩)

/-- The code by which a struct without an initializer of its own fills instances stores a value in
every property. -/
theorem initializerBody_code {path name : String} {symbol : Symbol} {code : Code}
    (hrun : initializerBody (.ofDecl module decl) decl ctx
      { body := Body.empty .initializer name symbol path } = (code, s))
    (hr : ¬ code.Refused) (hinit : decl.init = none)
    (hnames : (decl.properties.map (·.name)).Nodup) (hcount : decl.properties.length ≤ 256)
    (hdefaults : ∀ q ∈ decl.properties, ∀ e, q.default = some e → e.literal?.isSome)
    (val : String → Value) {c : Chunk Value} (hc : c = code.layout s.body.cells s.body.chunk) :
    decl.initParams.length = c.arity.toNat ∧ c.hasReceiver = true ∧
      ∃ code, Contains c s.body.cells {} 0 (code ++ .instr decl.loc.line ⟨.getSelf, ()⟩ ++
          .instr decl.loc.line ⟨.ret, ()⟩) ∧
        ∀ (f : Machine.Frame) p ref, f.slot 0 = .value (.object ref) →
          ∃ writes, Stores p c (f.setSlots 1 (decl.initParams.map (val ·.name))).locals ref code
            writes ∧ (∀ x ∈ writes, decl.initial? val x.1 = some x.2) ∧
          ∀ i < decl.properties.length, i ∈ writes.map Prod.fst := by
  have hparts : initializerBody (.ofDecl module decl) decl ctx
        { body := Body.empty .initializer name symbol path } =
      let a := declareParams decl.initParams decl.loc ctx
        { body := Body.empty .initializer name symbol path }
      let b := storeDefaults (.ofDecl module decl) decl.properties ctx a.2
      let c := storeParams (.ofDecl module decl) decl.loc decl.initParams ctx b.2
      (a.1 ++ b.1 ++ c.1 ++ .instr decl.loc.line ⟨.getSelf, ()⟩ ++
        .instr decl.loc.line ⟨.ret, ()⟩, c.2) := by
    rw [initializerBody, hinit]
    rfl
  obtain ⟨rfl, rfl⟩ := Prod.mk.inj (hparts.symm.trans hrun)
  obtain ⟨hblank, hfresh⟩ := declareParams_fresh fun h => hr (.inl (.inl (.inl (.inl h))))
  generalize declareParams decl.initParams decl.loc ctx _ = r at hblank hfresh hr hc ⊢
  obtain ⟨head, s₁⟩ := r
  have hoffset {q : PropertyDecl} := exists_propertyOffset (q := q) module hnames hcount
  obtain ⟨hrefills, hfills⟩ := storeDefaults_run ctx (s := s₁)
    (R := fun i v => decl.initial? val i = some v) decl.properties
    (fun q hq => by
      obtain ⟨i, hi, hget, ho⟩ := hoffset hq
      refine ⟨i, hi, ho, fun e he => ?_⟩
      obtain ⟨v, hv⟩ := Option.isSome_iff_exists.mp (hdefaults q hq e he)
      exact ⟨v, hv, by simp [StructDecl.initial?, hget, he, hv]⟩)
    (hfresh.constants.symm ▸ Nat.zero_le _) fun h => hr (.inl (.inl (.inl (.inr h))))
  generalize storeDefaults (.ofDecl module decl) decl.properties ctx s₁ = defaults at *
  obtain ⟨defaults, s₂⟩ := defaults
  obtain ⟨constants, rfl, -⟩ := hrefills.grown
  have hslot : ∀ (i : Nat) (x : Param), decl.initParams[i]? = some x →
      slotIn s₁.body.scope x.name = some (UInt8.ofNat (1 + i)) ∧
        (UInt8.ofNat (1 + i)).toNat = 1 + i := by
    intro i x hx
    have hparams : (decl.initParams.map (·.name)).Nodup :=
      decl.initParams_names hinit ▸ hnames.sublist (List.filter_sublist.map _)
    have hroom : (decl.initParams.map (·.name)).length + 1 ≤ maxLocals := hfresh.room
    have hi := (List.getElem?_eq_some_iff.mp hx).1
    rw [List.length_map] at hroom
    exact ⟨(congrArg (slotIn · _) hfresh.scope).trans
      (slotIn_paramScope hparams (by rw [List.getElem?_map, hx]; rfl) 1 [⟨"self", 0⟩]),
      toNat_slot (by omega)⟩
  obtain ⟨hsame, hstores⟩ := storeParams_run ctx
    (s := s₁.grown constants s₁.body.chunk.locals s₁.body.scope)
    (R := fun i v => decl.initial? val i = some v) decl.loc decl.initParams
    (fun x hx => by
      obtain ⟨q, hq, -, rfl⟩ := (mem_initParams hinit).mp hx
      obtain ⟨i, hi, -, ho⟩ := hoffset hq
      obtain ⟨k, hk⟩ := List.mem_iff_getElem?.mp hx
      exact ⟨i, _, hi, ho, (hslot k _ hk).1⟩)
  generalize storeParams (.ofDecl module decl) decl.loc decl.initParams ctx
    (s₁.grown constants s₁.body.chunk.locals s₁.body.scope) = params at *
  obtain ⟨params, s₃⟩ := params
  obtain rfl : s₃ = _ := hsame
  have hempty : (s₁.grown constants s₁.body.chunk.locals s₁.body.scope).body.chunk.code = #[] :=
    hfresh.code
  have hlay : Code.LaidOut (s₁.grown constants s₁.body.chunk.locals s₁.body.scope).body.chunk
      ((head ++ defaults ++ params ++ .instr decl.loc.line ⟨.getSelf, ()⟩ ++
        .instr decl.loc.line ⟨.ret, ()⟩ : Code).placed s₁.body.cells {} 0) c := by
    rw [hc]
    exact Code.laidOut_layout s₁.body.cells hempty _
  obtain ⟨lines, hout⟩ := hlay.adds
  have hreceiver : c.hasReceiver = true := (congrArg Chunk.hasReceiver hout).trans hfresh.receiver
  have htables : Tables (s₁.grown constants s₁.body.chunk.locals s₁.body.scope).body.chunk c := by
    rw [hout]
    exact ⟨fun _ _ => id, fun _ _ => id⟩
  refine ⟨((congrArg (·.arity.toNat) hout).trans hfresh.arity).symm, hreceiver,
    head ++ defaults ++ params, hlay.holds, fun f p ref hself => ?_⟩
  have hfirst := Machine.getElem?_of_slot
    ((Machine.slot_setSlots_of_lt (decl.initParams.map (val ·.name)) f Nat.one_pos).trans hself)
  have hparams := hstores c (f.setSlots 1 (decl.initParams.map (val ·.name))).locals
    fun x hx i slot ho hs => by
      obtain ⟨q, hq, hnone, rfl⟩ := (mem_initParams hinit).mp hx
      obtain ⟨j, -, hget, ho'⟩ := hoffset hq
      obtain ⟨k, hk⟩ := List.mem_iff_getElem?.mp hx
      obtain ⟨hslot, hnat⟩ := hslot k _ hk
      cases ho.symm.trans ho'
      cases hs.symm.trans hslot
      refine ⟨val q.name, Machine.getElem?_of_slot ?_, by simp [StructDecl.initial?, hget, hnone]⟩
      rw [hnat, Machine.slot_setSlots, List.getElem?_map, hk]
      rfl
  obtain ⟨writes, hw, hR, hall⟩ :=
    ((Fills.blank hblank).append (hfills c htables _)).append hparams hreceiver p ref hfirst
  refine ⟨writes, hw, hR, fun i hi => ?_⟩
  obtain ⟨j, hj, ho⟩ := hall _ (mem_defaults_or_initParams hinit (List.getElem_mem hi))
  cases ho.symm.trans (propertyOffset?_ofDecl module hnames (List.getElem?_eq_getElem hi))
  exact hj

end Properties

/-! ## Code of construction calls -/

theorem findCapture_of_unbound {name : String} (enclosing : List Body) (b : Body)
    (h : (b :: enclosing).any (·.binds name) = false) :
    b.findCapture name enclosing = (.unbound, b, enclosing) := by
  induction enclosing generalizing b with
  | nil =>
    simp only [List.any_cons, Body.binds, Bool.or_eq_false_iff, Option.isSome_eq_false_iff,
      Option.isNone_iff_eq_none] at h
    simp [Body.findCapture, h.1.2]
  | cons outer enclosing ih =>
    obtain ⟨hb, hrest⟩ := Bool.or_eq_false_iff.mp h
    have hrun := ih outer hrest
    simp only [List.any_cons, Body.binds, Bool.or_eq_false_iff, Option.isSome_eq_false_iff,
      Option.isNone_iff_eq_none] at hb hrest
    simp [Body.findCapture, hb.2, hrest.1.1, hrun]

theorem storage?_of_unbound {name : String} (loc : Location)
    (hlexical : (s.body :: s.enclosing).any (·.binds name) = false) :
    storage? name loc ctx s = ((.skip, none), s) := by
  have hslot : s.body.slot? name = none := by
    simp only [List.any_cons, Body.binds, Bool.or_eq_false_iff, Option.isSome_eq_false_iff,
      Option.isNone_iff_eq_none] at hlexical
    exact hlexical.1.1
  rw [storage?_run, hslot, findCapture_of_unbound _ _ hlexical]

theorem load_struct {name : String} {symbol : Symbol} {loc : Location}
    (hlexical : (s.body :: s.enclosing).any (·.binds name) = false)
    (hresolve : ctx.space.resolve? name = some (.struct symbol)) :
    load name loc ctx s = (.skip ++ (refer symbol loc (⟨.getStruct, ·⟩) ctx s).1,
      (refer symbol loc (⟨.getStruct, ·⟩) ctx s).2) := by
  rw [load, bind_run, storage?_of_unbound loc hlexical]
  simp only [bind_run, read_run, hresolve]
  rfl

theorem namedEnum?_state (e : Expr) : (namedEnum? e ctx s).2 = s := by
  unfold namedEnum?
  cases e.kind with
  | var name =>
    simp only [bind_run, global?_run]
    rcases ite ((s.body :: s.enclosing).any (·.binds name)) none (ctx.space.resolve? name) with
      _ | _ | _ | _ | _ <;> rfl
  | _ => rfl

theorem calleeParams?_struct {name : String} {symbol : Symbol} {type : StructType} {ty : Ty}
    {loc : Location} (hlexical : (s.body :: s.enclosing).any (·.binds name) = false)
    (hresolve : ctx.space.resolve? name = some (.struct symbol))
    (htype : ctx.space.structType? symbol = some type) :
    calleeParams? ⟨.var name, ty, loc⟩ ctx s = (some type.initParams, s) := by
  simp only [calleeParams?, bind_run, read_run, global?_run, hlexical, hresolve, htype,
    Bool.false_eq_true, if_false]
  rfl

/-- A call of what a name stands for loads it and passes the arguments. -/
theorem call_var_run {name : String} {params : Option (List String)} {ty ty' : Ty}
    {loc loc' : Location} {args : List Argument} {code : Code}
    (hparams : calleeParams? ⟨.var name, ty, loc⟩ ctx s = (params, s))
    (hrun : expr ⟨.call ⟨.var name, ty, loc⟩ args, ty', loc'⟩ ctx s = (code, r))
    (hr : ¬ code.Refused) :
    let order := (Labelled.arrange "" params (labelled args)).2
    let f := load name loc ctx s
    let q := sequence [] (order.map expr) ctx f.2
    (Labelled.arrange name params (arguments args)).1 = [] ∧ order.length ≤ maxArguments ∧
      code = f.1 ++ (.skip ++ .skip ++ Code.joinReversed q.1) ++
        .instr loc'.line ⟨.call, UInt8.ofNat order.length⟩ ∧ r = q.2 := by
  have hstart : expr ⟨.call ⟨.var name, ty, loc⟩ args, ty', loc'⟩ ctx s =
    callValue ⟨.var name, ty, loc⟩ (load name loc) (arguments args) loc' ctx s := rfl
  rw [hstart, callValue, bind_run, hparams] at hrun
  simp only [bind_run] at hrun
  obtain ⟨rfl, rfl⟩ := Prod.mk.inj hrun
  obtain ⟨hproblems, hle, hpass⟩ := pass_run fun h => hr (.inl (.inr h))
  refine ⟨hproblems, hle, ?_, ?_⟩ <;> simp only [hpass]

/-- The code of a call of a struct pushes the struct and what is given for each parameter. -/
theorem construction_code {name : String} {symbol : Symbol} {type : StructType} {ty ty' : Ty}
    {loc loc' : Location} {args : List Argument} (hok : s.body.Ok)
    (hlexical : (s.body :: s.enclosing).any (·.binds name) = false)
    (hresolve : ctx.space.resolve? name = some (.struct symbol))
    (htype : ctx.space.structType? symbol = some type) (hparams : type.initParams.Nodup)
    (hlength : args.length = type.initParams.length)
    (hliteral : ∀ arg ∈ args, arg.value.literal?.isSome)
    {code : Code} (hrun : expr ⟨.call ⟨.var name, ty, loc⟩ args, ty', loc'⟩ ctx s = (code, r))
    (hr : ¬ code.Refused) :
    ∃ given, Argument.Given type.initParams args given ∧
      (∀ label ∈ type.initParams, (given label).literal?.isSome) ∧
      ∃ front, code = front ++ .instr loc'.line ⟨.call, UInt8.ofNat type.initParams.length⟩ ∧
        ∀ c, Tables r.body.chunk c → ∀ (p : Machine.Program) locals,
          p.structType? symbol = some type → Puts p c locals front
            (.struct type :: (type.initParams.map given).filterMap Expr.literal?) := by
  obtain ⟨hproblems, -, rfl, rfl⟩ :=
    call_var_run (calleeParams?_struct hlexical hresolve htype) hrun hr
  obtain ⟨given, hgives, horder⟩ := arrange_arguments hparams hlength hproblems
  have hliterals : ∀ label ∈ type.initParams, (given label).literal?.isSome := by
    intro label hl
    by_cases hm : label ∈ args.filterMap Argument.label
    · obtain ⟨arg, harg, hlabel⟩ := List.mem_filterMap.mp hm
      rw [hgives.labelled arg harg label hlabel]
      exact hliteral arg harg
    · have hfree : given label ∈ (args.filter (·.label.isNone)).map (·.value) := by
        rw [← hgives.unlabelled]
        exact List.mem_map_of_mem (List.mem_filter.mpr ⟨hl, by simpa using hm⟩)
      obtain ⟨arg, harg, he⟩ := List.mem_map.mp hfree
      exact he ▸ hliteral arg (List.mem_of_mem_filter harg)
  rw [load_struct hlexical hresolve, horder, List.length_map] at hr ⊢
  rcases refer_eq symbol loc (⟨.getStruct, ·⟩) hok with href | ⟨n, symbols, hrefer, hn, -⟩
  · exact absurd (.inl (.inl (.inr href))) hr
  rw [hrefer] at hr ⊢
  obtain ⟨hrefills, hputs⟩ := sequence_literals ctx
    (type.initParams.map given) (by simpa using hliterals) (by exact hok.constants)
    fun code hm h => hr (.inl (.inr (.inr (Code.refused_joinReversed.mpr ⟨code, hm, h⟩))))
  refine ⟨given, hgives, hliterals, _, rfl, fun c ht p locals hp => ?_⟩
  have hstruct : Puts p c locals (.instr loc.line ⟨.getStruct, n⟩) [.struct type] :=
    .getStruct (ht.symbols n symbol (hrefills.tables.symbols n symbol hn)) hp
  exact (Puts.skip.append hstruct).append ((Puts.skip.append .skip).append
    (List.reverse_reverse (sequence _ _ _ _).1 ▸ .join (hputs c ht p [] .nil)))

end Lowering

namespace Linking

open Machine (Comes Contains)
open Lowering (expr exprKind namedEnum?)

/-- The statement is the last one that declares the name of the struct. -/
structure Wins (module : String) (files : List SourceFile) (decl : StructDecl) (t : TopLevel) :
    Prop where
  last : TopLevel.last? module (TopLevel.ofFiles files) decl.name = some t
  struct : t.stmt.kind = .struct decl

namespace Wins

variable {module : String} {files : List SourceFile} {imports : List Linked} {decl : StructDecl}
  {t : TopLevel}

theorem declared? (h : Wins module files decl t) :
    t.declared? module = some (decl.name, .struct (.struct module decl.name)) ∧
      decl.properties.length ≤ 256 := by
  obtain ⟨-, g, hg⟩ := TopLevel.last?_spec h.last
  rw [TopLevel.declared?, h.struct] at hg ⊢
  dsimp only at hg ⊢
  by_cases hcount : decl.properties.length > maxProperties
  · rw [if_pos hcount] at hg
    cases hg
  · rw [if_neg hcount]
    exact ⟨rfl, Nat.not_lt.mp hcount⟩

variable (h : Wins module files decl t)
include h

theorem resolve? : (declarations module files imports).space.resolve? decl.name =
    some (.struct (.struct module decl.name)) := by
  rw [Space.resolve?, collects_declarations.globals, TopLevel.global?, h.last, Option.bind_some,
    h.declared?.1]
  rfl

theorem structs_get? : (declarations module files imports).space.structs.get?
    (.struct module decl.name) = some (.ofDecl module decl) :=
  collects_declarations.struct _ t _ h.last (by rw [TopLevel.struct?, h.struct])

theorem structType? : (declarations module files imports).space.structType?
    (.struct module decl.name) = some (.ofDecl module decl) := by
  rw [Space.structType?, h.structs_get?]

theorem member_offset (hnames : (decl.properties.map (·.name)).Nodup) {i : Nat} {q : PropertyDecl}
    (hq : decl.properties[i]? = some q) {receiver : Expr} (hty : receiver.ty = .struct decl.name)
    {ctx : Lowering.Context} (hctx : ctx.space = (declarations module files imports).space)
    (s : Lowering.State) :
    ∃ operand : UInt8, operand.toNat = i ∧
      ((namedEnum? receiver ctx s).1 = none → ∀ ty loc,
        expr ⟨.member receiver q.name, ty, loc⟩ ctx s =
          let r := expr receiver ctx s
          (r.1 ++ .instr loc.line ⟨.getProperty, operand⟩, r.2)) ∧
      ∀ value ty loc ty' loc',
        expr ⟨.assign ⟨.member receiver q.name, ty, loc⟩ value, ty', loc'⟩ ctx s =
          let v := expr value ctx s
          let r := expr receiver ctx v.2
          (v.1 ++ r.1 ++ .instr loc'.line ⟨.setProperty, operand⟩, r.2) := by
  have hoffset := Lowering.propertyOffset?_ofDecl module hnames hq
  have hstruct : ctx.space.structOf? receiver.ty = some (.ofDecl module decl) := by
    rw [hctx, hty, Space.structOf?, h.resolve?]
    exact h.structType?
  have hlt : i < 256 := Nat.lt_of_lt_of_le (List.getElem?_eq_some_iff.mp hq).1 h.declared?.2
  refine ⟨Lowering.propertyOperand i, Lowering.toNat_propertyOperand hlt, fun hnone ty loc => ?_,
    fun value ty loc ty' loc' => ?_⟩
  · have hrun : expr ⟨.member receiver q.name, ty, loc⟩ ctx s =
      exprKind loc (.member receiver q.name) ctx s := rfl
    rw [hrun, exprKind, Lowering.bind_run,
      show namedEnum? receiver _ s = (none, s) from Prod.ext hnone (Lowering.namedEnum?_state _)]
    simp only [Lowering.readMember, Lowering.bind_run, Lowering.read_run, hstruct, hoffset]
    rfl
  · have hrun : expr ⟨.assign ⟨.member receiver q.name, ty, loc⟩ value, ty', loc'⟩ ctx s =
      exprKind loc' (.assign ⟨.member receiver q.name, ty, loc⟩ value) ctx s := rfl
    rw [hrun, exprKind]
    simp only [Lowering.bind_run, Lowering.read_run, hstruct, Option.bind_some, hoffset]
    rfl

theorem pieces_eq : Piece.ofTopLevel (declarations module files imports) t =
    Piece.ofStruct t.path (.ofDecl module decl) decl := by
  rw [Piece.ofTopLevel, h.struct]
  dsimp only
  rw [if_pos ((collects_declarations.isLast_iff (TopLevel.last?_spec h.last).1).mpr h.last),
    collects_declarations.named, h.structType?]

/-- A method of the struct that is kept is one of its declaration. -/
theorem method_of_origin {b : Piece} (hb : b ∈ pieces module files imports) {name : String}
    {params : List String} (ho : b.origin? = some (.method decl.name name params)) :
    ∃ method ∈ decl.methods, method.name = some name := by
  obtain ⟨file, hf, hb⟩ := List.mem_flatMap.mp hb
  rcases List.mem_cons.mp hb with rfl | hb
  · cases ho
  · obtain ⟨u, hu, hb⟩ := List.mem_flatMap.mp hb
    have hu' : u ∈ TopLevel.ofFiles files := List.mem_flatMap.mpr ⟨file, hf, hu⟩
    obtain ⟨owner, hlast, hdeclares⟩ :=
      Piece.declares_of_mem_ofTopLevel collects_declarations hu' hb
    have howner : owner = decl.name := by
      rcases (hdeclares.origin ho).2 with ⟨_, he⟩ | ⟨_, he⟩ | ⟨_, _, he⟩ <;> cases he
      rfl
    subst howner
    cases ((collects_declarations.isLast_iff hu').mp hlast).symm.trans h.last
    rw [h.pieces_eq] at hb
    rcases Piece.mem_ofStruct.mp hb with rfl | ⟨method, hm, n, s, hn, hs, rfl⟩
    · cases ho
    · obtain ⟨_, -, -, rfl⟩ := StructType.method?_ofDecl hs
      cases ho
      exact ⟨method, hm, hn⟩

/-- Without a method that is named like it, the initializer is found under its symbol. -/
theorem initializer (hmethods : ∀ method ∈ decl.methods, method.name ≠ some "init")
    (hd : (link module files imports).module.diagnostics = []) :
    ∃ r, Piece.compile (declarations module files imports).space
        ⟨t.path, .initializer (.ofDecl module decl) decl⟩ = .ok r ∧
      (link module files imports).module.chunks.get?
        (.method module decl.name "init" (decl.initParams.map (·.ty.text))) = some r.chunk := by
  have hb : ⟨t.path, .initializer (.ofDecl module decl) decl⟩ ∈ pieces module files imports := by
    refine mem_pieces (TopLevel.last?_spec h.last).1 ?_
    rw [h.pieces_eq]
    exact List.mem_cons_self
  obtain ⟨r, hr⟩ := (compiles_of_diagnostics hd).1 _ hb
  obtain ⟨literals, hl⟩ := exists_areLiterals module files imports
  have hmem : (.initializer decl.name (decl.initParams.map (·.ty.text)), r.chunk) ∈
      registrations module files imports literals := by
    refine List.mem_append_left _ (List.mem_flatMap.mpr ⟨_, hb, ?_⟩)
    rw [Piece.registrations_eq_ok hr]
    exact List.mem_append_right _ List.mem_cons_self
  obtain ⟨before, after, he⟩ := List.append_of_mem hmem
  obtain ⟨c, hc, hleaves⟩ := chunks_get?_registration hl he
  obtain ⟨symbol, _, hs, hof⟩ := Lowering.Source.compile_eq_ok hr
  cases hs
  rw [show r.chunk.symbol = _ from hof.symbol] at hc
  rcases hleaves with ⟨-, rfl⟩ | ⟨between, y, rest, rfl, hclash, -, -⟩
  · exact ⟨r, hr, hc⟩
  · have hy : y ∈ registrations module files imports literals := by
      rw [he]
      simp
    obtain ⟨o, chunk⟩ := y
    rcases List.mem_append.mp hy with hy | hy
    · obtain ⟨b, hb, hy⟩ := List.mem_flatMap.mp hy
      rcases Piece.mem_registrations collects_declarations hb (hl b hb) hy with hy | ⟨ho, -⟩
      · obtain ⟨_, _, _, ho⟩ := hy.literal
        cases ho
        exact hclash.elim
      · cases o with
        | method owner name params =>
          obtain ⟨rfl, rfl, -⟩ := hclash
          obtain ⟨method, hm, hn⟩ := h.method_of_origin hb ho
          exact absurd hn (hmethods method hm)
        | _ => exact hclash.elim
    · obtain ⟨_, -, he⟩ := List.mem_map.mp hy
      cases he
      exact hclash.elim

/-- What the code of an initializer without a body of its own leaves, where it is called. -/
theorem constructs_run {p : Machine.Program} {σ : Machine.State} {a current : Nat}
    {below : Array Value} {locals : Array Machine.Slot} (val : String → Value)
    (hd : (link module files imports).module.diagnostics = [])
    (hname : module ≠ Symbol.standardModule) (hinit : decl.init = none)
    (hmethods : ∀ method ∈ decl.methods, method.name ≠ some "init")
    (hnames : (decl.properties.map (·.name)).Nodup)
    (hdefaults : ∀ q ∈ decl.properties, ∀ e, q.default = some e → e.literal?.isSome)
    (hp : p.find? module = some (link module files imports).module)
    (hi : Instruction.decode? σ.frame.chunk.code a =
      some ⟨.call, UInt8.ofNat decl.initParams.length⟩) (hs : σ.heap.Sound)
    (hobjects : σ.heap.objects.size < 2 ^ 32) (hstack : below.size + 3 ≤ p.limits.maxStack)
    (hframes : σ.callers.size + 2 ≤ p.limits.maxFrames) :
    Comes p (σ.moved a (below.push (.struct (.ofDecl module decl)) ++
        (decl.initParams.map (val ·.name)).toArray) locals current) fun u =>
      ∃ ref, σ.heap.objects.get? ref = none ∧ u.stack = below.push (.object ref) ∧
        u.frame = (σ.moved (a + 2) below locals a).frame ∧ u.callers = σ.callers ∧
        u.heap.width? ref = some decl.properties.length ∧
        ∀ i q, decl.properties[i]? = some q →
          u.heap.field? ref i = some ((q.default.bind Expr.literal?).getD (val q.name)) := by
  obtain ⟨r, hr, hchunk⟩ := h.initializer hmethods hd
  obtain ⟨hproblems, hlayout⟩ := Lowering.Body.compile_layout
    (show Lowering.Body.compile (.empty .initializer _ _ t.path) _
      (Lowering.initializerBody (.ofDecl module decl) decl) = .ok r from hr)
  generalize hrun : Lowering.initializerBody _ _ _ _ = run at hproblems hlayout
  obtain ⟨whole, s⟩ := run
  obtain ⟨harity, hreceiver, code, hstands, hstores⟩ := Lowering.initializerBody_code
    hrun (Code.fits_of_problems_eq_nil hproblems).not_refused hinit hnames h.declared?.2 hdefaults
    val (congrArg Lowering.Compiled.chunk hlayout)
  have harity : (decl.initParams.map (val ·.name)).length = r.chunk.arity.toNat :=
    (List.length_map _).trans harity
  rw [← List.length_map (val ·.name)] at hi
  obtain ⟨ref, heap, hnew, hcall⟩ := Machine.call_struct (p := p)
    (s := σ.moved (a + 2) (below.push (.struct (.ofDecl module decl)) ++ _) locals a) rfl
    (harity ▸ r.chunk.arity.toNat_lt) (beq_eq_false_iff_ne.mpr hname) rfl
    ((congrArg (Option.bind · fun m : Module => m.chunks.get? _) hp).trans hchunk)
  have hins : Heap.Instantiates ref (.ofDecl module decl) σ.heap heap := by
    obtain ⟨ref', heap', hnew', hins⟩ :=
      Collection.exists_newObject hs hobjects (.ofDecl module decl)
    cases hnew.symm.trans hnew'
    exact hins
  refine .step ((Machine.step_of_enter hi (by simp) hcall harity hreceiver).trans
    (if_neg (Nat.not_le.mpr hframes))) ?_
  generalize hc : Machine.plainClosure _ _ = closure
  have hbody : closure.chunk = r.chunk := hc ▸ rfl
  have hself := Machine.rebinds_setSlot (.enter closure below.size) 0 (.value (.object ref))
  obtain ⟨writes, hw, hR, hall⟩ := hstores _ p ref hself.slot
  have hfirst : (Machine.Frame.starting closure below.size
      (decl.initParams.map (val ·.name)) (some ref)).locals[0]? = some (.value (.object ref)) :=
    Machine.getElem?_of_slot
      ((Machine.slot_setSlots_of_lt _ _ Nat.one_pos).trans hself.slot)
  have hbound : ∀ x ∈ writes, x.1 < decl.properties.length := by
    intro x hx
    obtain ⟨q, hq, -⟩ := Option.map_eq_some_iff.mp (hR x hx)
    exact (List.getElem?_eq_some_iff.mp hq).1
  have hwidth : heap.width? ref = some decl.properties.length := by
    rw [hins.width_eq, StructType.propertyCount]
    exact congrArg some (List.length_map _)
  rw [Machine.Frame.starting_eq]
  let inside : Machine.State :=
    { σ with heap, frame := { closure, base := below.size, locals }
             callers := σ.callers.push (σ.moved (a + 2) below locals a).frame }
  change Comes p (inside.moved 0 (below.push _) _ a) _
  have hroom : (below.push (.struct (.ofDecl module decl))).size + 2 ≤ p.limits.maxStack := by
    simpa using hstack
  refine hw.comes hbody hwidth hbound hstands.left.left hroom fun _ => ?_
  refine (Machine.Puts.getSelf hreceiver hfirst).comes hbody hstands.left.right
    (Nat.le_of_lt hroom) fun _ => ?_
  have hret := (congrArg (Instruction.decode? ·.code _) hbody).trans hstands.right.instr
  rw [Array.append_singleton, Nat.add_assoc]
  have hback : ((below.push (.struct (.ofDecl module decl))).shrink below.size).size <
      p.limits.maxStack := by
    simp only [Array.size_shrink, Array.size_push]
    omega
  refine .returns Array.back?_push hret hback ?_
  refine .done ⟨ref, hins.fresh, ?_, rfl, Array.pop_push .., ?_, fun i q hq => ?_⟩
  · change ((below.push _).shrink below.size).push _ = _
    simp
  · exact (heap.width?_assignedAll ref writes).trans hwidth
  · obtain ⟨v, hv, he⟩ := Heap.field?_assignedAll (i := i)
      (R := fun i v => decl.initial? val i = some v) (fun x hx => ⟨hbound x hx, hR x hx⟩) hwidth
      (.inl (hall i (List.getElem?_eq_some_iff.mp hq).1))
    rw [StructDecl.initial?, hq] at he
    cases he
    exact hv

end Wins

/-- A struct without an initializer of its own keeps what a call gives, and its defaults, at the
offsets by which its members are read and written. -/
theorem properties_keep_offsets {module : String} {files : List SourceFile} {imports : List Linked}
    {decl : StructDecl} {t : TopLevel} (h : Wins module files decl t)
    (hd : (link module files imports).module.diagnostics = [])
    (hname : module ≠ Symbol.standardModule) (hinit : decl.init = none)
    (hmethods : ∀ method ∈ decl.methods, method.name ≠ some "init")
    (hnames : (decl.properties.map (·.name)).Nodup)
    (hdefaults : ∀ q ∈ decl.properties, ∀ e, q.default = some e → e.literal?.isSome)
    (path : String) (s : Lowering.State) :
    let ctx : Lowering.Context := ⟨(declarations module files imports).space, path⟩
    (∀ args ty ty' loc loc' code r, s.body.Ok →
      (s.body :: s.enclosing).any (·.binds decl.name) = false →
      args.length = decl.required.length → (∀ arg ∈ args, arg.value.literal?.isSome) →
      expr ⟨.call ⟨.var decl.name, ty, loc⟩ args, ty', loc'⟩ ctx s = (code, r) → ¬ code.Refused →
      ∃ given, Argument.Given decl.required args given ∧
        ∀ (p : Machine.Program) (σ : Machine.State) cells targets a stack locals current,
          p.find? module = some (link module files imports).module →
          Lowering.Tables r.body.chunk σ.frame.chunk →
          Contains σ.frame.chunk cells targets a code →
          σ.heap.Sound → σ.heap.objects.size < 2 ^ 32 →
          stack.size + decl.required.length + 3 ≤ p.limits.maxStack →
          σ.callers.size + 2 ≤ p.limits.maxFrames →
          Comes p (σ.moved a stack locals current) fun u => ∃ ref,
            σ.heap.objects.get? ref = none ∧ u.stack = stack.push (.object ref) ∧
            u.frame = { σ.frame with next := a + code.width, locals } ∧ u.callers = σ.callers ∧
            u.heap.width? ref = some decl.properties.length ∧
            ∀ i q, decl.properties[i]? = some q →
              ∃ v, u.heap.field? ref i = some v ∧ (q.initial given).literal? = some v) ∧
    ∀ i q, decl.properties[i]? = some q → ∀ receiver : Expr, receiver.ty = .struct decl.name →
      ∃ operand : UInt8, operand.toNat = i ∧
        ((namedEnum? receiver ctx s).1 = none → ∀ ty loc,
          expr ⟨.member receiver q.name, ty, loc⟩ ctx s =
            let r := expr receiver ctx s
            (r.1 ++ .instr loc.line ⟨.getProperty, operand⟩, r.2)) ∧
        ∀ value ty loc ty' loc',
          expr ⟨.assign ⟨.member receiver q.name, ty, loc⟩ value, ty', loc'⟩ ctx s =
            let v := expr value ctx s
            let r := expr receiver ctx v.2
            (v.1 ++ r.1 ++ .instr loc'.line ⟨.setProperty, operand⟩, r.2) := by
  intro ctx
  refine ⟨?_, fun i q hq receiver hty => h.member_offset hnames hq hty rfl s⟩
  intro args ty ty' loc loc' code r hok hlexical hlength hliteral hrun hr
  have hparams := decl.initParams_names hinit
  rw [← hparams] at hlength ⊢
  have hdistinct : (decl.initParams.map (·.name)).Nodup :=
    hparams ▸ hnames.sublist (List.filter_sublist.map _)
  obtain ⟨given, hgiven, hliterals, front, rfl, hputs⟩ := Lowering.construction_code hok hlexical
    h.resolve? h.structType? hdistinct hlength hliteral hrun hr
  refine ⟨given, hgiven, fun p σ cells targets a stack locals current hp ht hstands hs hobjects
    hroom hframes => ?_⟩
  have htype : p.structType? (.struct module decl.name) = some (.ofDecl module decl) := by
    refine (congrArg (Option.bind · fun m : Module => m.structs.get? _) hp).trans ?_
    change (link module files imports).module.structs.get? _ = _
    rw [link_structs]
    exact h.structs_get?
  have hvalues : ((StructType.ofDecl module decl).initParams.map given).filterMap Expr.literal? =
      decl.initParams.map fun x => (given x.name).literal?.getD .none := by
    have hvalue : ∀ name ∈ (StructType.ofDecl module decl).initParams,
        (Expr.literal? ∘ given) name = some ((given name).literal?.getD .none) := by
      intro name hn
      obtain ⟨v, hv⟩ := Option.isSome_iff_exists.mp (hliterals name hn)
      simp [hv]
    rw [List.filterMap_map, List.filterMap_congr hvalue, List.filterMap_eq_map']
    exact List.map_map
  have hstack : stack ++ (.struct (.ofDecl module decl) ::
      ((StructType.ofDecl module decl).initParams.map given).filterMap Expr.literal?).toArray =
      stack.push (.struct (.ofDecl module decl)) ++
        (decl.initParams.map fun x => (given x.name).literal?.getD .none).toArray := by
    rw [hvalues]
    simp
  have hi : Instruction.decode? σ.frame.chunk.code (a + front.width) =
      some ⟨.call, UInt8.ofNat decl.initParams.length⟩ := by
    rw [hstands.right.instr, show (StructType.ofDecl module decl).initParams.length = _ from
      List.length_map _]
  rw [List.length_map] at hroom
  have hthree : stack.size + 3 ≤ p.limits.maxStack := by omega
  refine (hputs _ ht p locals htype).comes rfl hstands.left ?_ fun current => ?_
  · rw [hvalues, List.length_cons, List.length_map]
    omega
  rw [hstack]
  obtain ⟨u, hrun, ref, hfresh, hu, hframe, hcallers, hwidth, hfields⟩ :
      Comes p (σ.moved (a + front.width) _ locals current) _ :=
    h.constructs_run (fun name => (given name).literal?.getD .none) hd hname hinit hmethods hnames
      hdefaults hp hi hs hobjects hthree hframes
  refine ⟨u, hrun, ref, hfresh, hu, hframe, hcallers, hwidth,
    fun i q hq => ⟨_, hfields i q hq, ?_⟩⟩
  have hmem := List.mem_of_getElem? hq
  rw [PropertyDecl.initial]
  cases hdefault : q.default with
  | some e =>
    obtain ⟨v, hv⟩ := Option.isSome_iff_exists.mp (hdefaults q hmem e hdefault)
    simp [hv]
  | none =>
    obtain ⟨v, hv⟩ := Option.isSome_iff_exists.mp (hliterals q.name (List.mem_map.mpr
      ⟨_, (Lowering.mem_initParams hinit).mpr ⟨q, hmem, hdefault, rfl⟩, rfl⟩))
    simp [hv]

def pointDecl : StructDecl where
  name := "Point"
  properties := [⟨"x", .int, true, none⟩,
    ⟨"tag", .string, true, some ⟨.literal (.string "p"), .string, .synthesized⟩⟩,
    ⟨"y", .int, true, none⟩]
  init := none
  methods := []
  loc := .synthesized

def pointFile : SourceFile := { path := "main.pl", stmts := [⟨.struct pointDecl, .synthesized⟩] }

def pointArguments : List Argument :=
  [⟨some "y", ⟨.literal (.int 2), .int, .synthesized⟩⟩,
    ⟨none, ⟨.literal (.int 1), .int, .synthesized⟩⟩]

def pointCall : Code × Lowering.State :=
  expr ⟨.call ⟨.var pointDecl.name, .none, .synthesized⟩ pointArguments, .none, .synthesized⟩
    ⟨(declarations "main" [pointFile] []).space, "main.pl"⟩
    { body := .empty .function "make" ⟨"main", .function "make" []⟩ "main.pl" }

def pointClosure : Closure Value :=
  let chunk := pointCall.1.layout [] pointCall.2.body.chunk
  Machine.plainClosure chunk chunk.symbol

def pointProgram (types : Collection.Types) : Machine.Program :=
  ⟨"main", pointClosure.chunk, [(link "main" [pointFile] []).module], types, {}⟩

def pointStart : Machine.State where
  frame := .enter pointClosure 0
  heap := { maxBlockSlots := Heap.defaultMaxBlockSlots }

theorem point_wins : Wins "main" [pointFile] pointDecl
    ⟨"main.pl", ⟨0, 0⟩, ⟨.struct pointDecl, .synthesized⟩⟩ := ⟨rfl, rfl⟩

theorem point_diagnostics : (link "main" [pointFile] []).module.diagnostics = [] :=
  List.isEmpty_iff.mp (by decide +kernel)

theorem pointClosure_holds : ¬ pointCall.1.Refused ∧
    Lowering.Tables pointCall.2.body.chunk pointClosure.chunk ∧
    Contains pointClosure.chunk [] {} 0 pointCall.1 := by
  have hproblems : pointCall.1.problems "main.pl" = [] := List.isEmpty_iff.mp (by decide +kernel)
  have hempty : pointCall.2.body.chunk.code = #[] := by decide +kernel
  have hlay := Code.laidOut_layout [] hempty pointCall.1
  obtain ⟨lines, hout⟩ := hlay.adds
  refine ⟨(Code.fits_of_problems_eq_nil hproblems).not_refused, ?_, hlay.holds⟩
  change Lowering.Tables _ (Code.layout _ _ _)
  rw [hout]
  exact ⟨fun _ _ => id, fun _ _ => id⟩

theorem properties_keep_offsets_point :
    Wins "main" [pointFile] pointDecl ⟨"main.pl", ⟨0, 0⟩, ⟨.struct pointDecl, .synthesized⟩⟩ ∧
      (link "main" [pointFile] []).module.diagnostics = [] ∧
      ∀ types, Comes (pointProgram types) pointStart fun u =>
        ∃ ref, u.stack = #[.object ref] ∧ u.heap.width? ref = some 3 ∧
          u.heap.field? ref 0 = some (.int 1) ∧ u.heap.field? ref 1 = some (.string "p") ∧
          u.heap.field? ref 2 = some (.int 2) := by
  refine ⟨point_wins, point_diagnostics, fun types => ?_⟩
  obtain ⟨hmake, -⟩ := properties_keep_offsets point_wins point_diagnostics (by decide) rfl
    (by simp [pointDecl]) (by decide) (by simp [pointDecl, Expr.literal?]) "main.pl"
    { body := .empty .function "make" ⟨"main", .function "make" []⟩ "main.pl" }
  obtain ⟨hr, htables, hcode⟩ := pointClosure_holds
  obtain ⟨given, hgiven, hcomes⟩ := hmake pointArguments .none .none .synthesized .synthesized
    pointCall.1 pointCall.2 ⟨rfl, by simp [Lowering.Body.empty], Nat.zero_le _, Nat.zero_le _⟩
    (by decide +kernel) rfl (by decide) rfl hr
  have hy := hgiven.labelled _ List.mem_cons_self "y" rfl
  have hx : given "x" = ⟨.literal (.int 1), .int, .synthesized⟩ :=
    (List.cons.inj hgiven.unlabelled).1
  obtain ⟨u, hrun, ref, -, hstack, -, -, hwidth, hfields⟩ := hcomes (pointProgram types)
    pointStart [] {} 0 #[] _ 0 rfl htables hcode ⟨Arena.sound_empty, Arena.sound_empty⟩
    (Nat.two_pow_pos 32) (show 5 ≤ 65536 by decide) (show 2 ≤ 256 by decide)
  obtain ⟨v₀, h₀, he₀⟩ := hfields 0 _ rfl
  obtain ⟨v₁, h₁, he₁⟩ := hfields 1 _ rfl
  obtain ⟨v₂, h₂, he₂⟩ := hfields 2 _ rfl
  rw [show PropertyDecl.initial given _ = given "x" from rfl, hx] at he₀
  rw [show PropertyDecl.initial given _ = given "y" from rfl, hy] at he₂
  cases he₀
  cases he₁
  cases he₂
  exact ⟨u, hrun, ref, hstack, hwidth, h₀, h₁, h₂⟩

end Linking

end StackCode
