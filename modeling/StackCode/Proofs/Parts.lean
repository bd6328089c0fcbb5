import StackCode.Proofs.Interning
import StackCode.Proofs.Captures

/-! # Parts of bodies

What the pieces emit from which statements and expressions are compiled: references to the tables,
locals and captures, the receiver, and parts in a scope or in a loop of their own.
-/

namespace StackCode.Lowering

open Code (Knowledge Fact Flows bindings Extended Exits)

/-- Compiling a part in a state emits what it yields, up to the given point. -/
abbrev Lowers (v : View) (m : Mode) (part : Build Code) (s : State) (p p' : Point) (d e : Int) :
    Prop :=
  Emits v m ⟨s, p, d⟩ (part v.ctx s).1 ⟨(part v.ctx s).2, p', e⟩

/-- The part leaves one value more on the stack, wherever it stands. -/
def Pushes (v : View) (part : Build Code) (walk : Point → Point) : Prop :=
  ∀ (m : Mode) (s : State) (p : Point) (d : Int), 0 ≤ d → Lowers v m part s p (walk p) d (d + 1)

variable {v : View} {m : Mode} {s : State} {p p' : Point} {d e : Int} {loc : Location}
  {name : String} {symbol : Symbol} {slot : UInt8} {line : UInt32}

/-! ## Tables -/

theorem Extends.of_tables {constants : Array Value} {symbols : Array Symbol} (h : Stands v s p)
    (hok : Body.Ok { s.body with chunk := { s.body.chunk with constants, symbols } })
    (ht : Tables s.body.chunk { s.body.chunk with constants, symbols })
    (hd : Declares v.strict v.space { s.body.chunk with constants, symbols }) :
    Extends v s p { s with body := { s.body with
      chunk := { s.body.chunk with constants, symbols } } } p [] :=
  { Extends.refl h with
    toAdds := .none rfl rfl rfl rfl
    stands := { h with placed := ⟨{ h.placed.1 with toOk := hok, declares := hd }, h.placed.2⟩ }
    tables := ht
    extended := ⟨rfl, fun _ _ => id, Nat.le_refl _, ht.symbols⟩ }

theorem refer_run {ctx : Context} (symbol : Symbol) (loc : Location)
    (make : UInt16 → Instruction) :
    refer symbol loc make ctx s = match s.body.chunk.addSymbol symbol with
      | (some n, chunk) => (.instr loc.line (make n), { s with body := { s.body with chunk } })
      | (none, chunk) =>
        (.report ⟨.tooManySymbols, ctx.path, loc, none⟩ ++ .instr loc.line (make 0),
          { s with body := { s.body with chunk } }) := by
  rw [refer, bind_run, updateChunk_run]
  rcases s.body.chunk.addSymbol symbol with ⟨_ | n, chunk⟩ <;> rfl

/-- A reference to a symbol refuses the body, or its index leads to the symbol. -/
theorem refer_eq {ctx : Context} (symbol : Symbol) (loc : Location) (make : UInt16 → Instruction)
    (hok : s.body.Ok) : (refer symbol loc make ctx s).1.Refused ∨ ∃ n symbols,
      refer symbol loc make ctx s = (.instr loc.line (make n),
        { s with body := { s.body with chunk := { s.body.chunk with symbols } } }) ∧
      symbols[n.toNat]? = some symbol ∧
      Chunk.Interned (· == ·) s.body.chunk.symbols symbol n symbols := by
  rw [refer_run]
  rcases h : s.body.chunk.addSymbol symbol with ⟨_ | n, chunk⟩
  · exact .inl (.inl trivial)
  · obtain ⟨symbols, rfl, hn⟩ := Chunk.addSymbol_eq_some h hok.symbols
    exact .inr ⟨n, symbols, rfl, hn⟩

theorem refer_cases (symbol : Symbol) (loc : Location) (make : UInt16 → Instruction)
    (h : Stands v s p) :
    (refer symbol loc make v.ctx s).1.Refused ∨ ∃ n, (refer symbol loc make v.ctx s).1 =
      .instr loc.line (make n) ∧ Extends v s p (refer symbol loc make v.ctx s).2 p [] ∧
      (refer symbol loc make v.ctx s).2.body.scope = s.body.scope ∧
      (refer symbol loc make v.ctx s).2.body.chunk.symbol? n = some symbol := by
  have hok := h.placed.1.toOk
  rcases refer_eq symbol loc make hok with href | ⟨n, symbols, hrun, hn, hi⟩
  · exact .inl href
  · rw [hrun]
    exact .inr ⟨n, rfl, .of_tables h { hok with symbols := hi.size }
      ⟨fun _ _ => id, fun n => hi.keeps n.toNat⟩ h.placed.1.declares, rfl, hn⟩

/-- The instruction may be marked by what its symbol stands for. -/
theorem refer_lowers {make : UInt16 → Instruction} (mark : Option (Symbol → Mark))
    (hm : ∀ c n, c.symbol? n = some symbol → Means v.space c [] (make n))
    (hi : ∀ n, Code.isFree (make n) = true)
    (hn : ∀ n cs symbol?, (make n).named? cs symbol? = mark.map fun f => (symbol? n).map f)
    (hd : ∀ n, (make n).inputs ≤ d) (hr : ∀ n, (make n).opcode ≠ .ret)
    (he : ∀ n, d + (make n).effect = e) :
    Lowers v m (refer symbol loc make) s p (p.note (mark.map (· symbol))) d e := by
  refine Assures.intro fun hs => ?_
  rcases refer_cases symbol loc make hs with href | ⟨n, hcode, hext, hscope, hsymbol⟩
  · exact .refused href
  obtain ⟨hj, hneeds, ha⟩ := Code.runs_of_isFree (hi n)
  have hb : (make n).isBinder = false :=
    (make n).isBinder_eq_false fun _ => by rw [hn]; cases mark <;> simp
  rw [hcode]
  refine .after hext hscope rfl (Emits.instr _ (hm _ n hsymbol) hj (hd n) (fun h => absurd h (hr n))
    (he n) hb (fun _ cs symbol? _ hsyms => ?_) (fun _ _ => hneeds ..) fun c k f hf => ha c k ▸ hf)
  rw [hn, hsyms n symbol hsymbol]
  cases mark <;> rfl

theorem constant_run {ctx : Context} (x : Value) (loc : Location) :
    constant x loc ctx s = match s.body.chunk.addConstant x with
      | (some n, chunk) =>
        (.instr loc.line ⟨.constant, n⟩, { s with body := { s.body with chunk } })
      | (none, chunk) =>
        (.report ⟨.tooManyConstants, ctx.path, loc, none⟩,
          { s with body := { s.body with chunk } }) := by
  rw [constant, bind_run, updateChunk_run]
  rcases s.body.chunk.addConstant x with ⟨_ | n, chunk⟩ <;> rfl

theorem constant_pushes {x : Value} (hx : x.Plain)
    (hd : v.strict → ∀ c, x = .enumCase c → c.Of v.space.enumType?) :
    Pushes v (constant x loc) id := by
  refine fun m s p d hnn => Assures.intro fun hs => ?_
  rw [constant_run]
  rcases hadd : s.body.chunk.addConstant x with ⟨_ | n, chunk⟩
  · exact .refused trivial
  · have hok := hs.placed.1.toOk
    obtain ⟨constants, rfl, hi⟩ := Chunk.addConstant_eq_some hadd hok.constants
    have hext : Extends v s p { s with body := { s.body with
        chunk := { s.body.chunk with constants } } } p [] := by
      refine .of_tables hs { hok with constants := hi.size, plain := fun y hy => ?_ }
        ⟨fun n => hi.keeps n.toNat, fun _ _ => id⟩ fun hstrict y hy => ?_
      · rcases hi.old y hy with hy | rfl
        · exact hok.plain y hy
        · exact hx
      · rcases hi.old _ hy with hy | hy
        · exact hs.placed.1.declares hstrict y hy
        · exact hd hstrict y hy.symm
    obtain ⟨y, hn, -⟩ := hi.denotes
    exact .after hext rfl rfl (Emits.instr none ⟨y, hn⟩ rfl hnn (fun h => by cases h) rfl rfl
      (fun _ _ _ _ _ => rfl) (fun _ _ => trivial) fun _ _ _ => id)

theorem report_lowers (problem : Problem) (loc : Location) :
    Lowers v m (report problem loc) s p p' d e := .refused trivial

theorem substitute_lowers (problem : Problem) (loc : Location) :
    Lowers v m (substitute problem loc) s p p' d e := .refused (.inl trivial)

/-! ## Locals -/

def State.declared (s : State) (name : String) : State :=
  { s with body := { s.body with
    chunk := { s.body.chunk with locals := s.body.chunk.locals.push name }
    scope := ⟨name, UInt8.ofNat s.body.chunk.locals.size⟩ :: s.body.scope } }

theorem reserve?_run {ctx : Context} (name : String) : reserve? name ctx s =
    if s.body.chunk.locals.size < maxLocals then
      (some (UInt8.ofNat s.body.chunk.locals.size), s.declared name)
    else (none, s) := rfl

theorem extended_declared (s : State) (name : String) :
    Extended s.body.chunk (s.declared name).body.chunk where
  receiver := rfl
  locals n x hx := by
    have hn := (Array.getElem?_eq_some_iff.mp hx).1
    rw [State.declared, Array.getElem?_push_lt hn, ← hx, Array.getElem?_eq_getElem hn]
  captures := Nat.le_refl _
  symbols _ _ := id

theorem Agrees.declared (h : Agrees v s p) (hs : s.body.chunk.locals.size < maxLocals)
    (name : String) : Agrees v (s.declared name) (p.declare name) where
  placed := by
    refine ⟨{ h.placed.1 with size := ?_, scope := fun x hx => ?_, cells := fun n hn => ?_ },
      h.placed.2⟩
    · rw [State.declared, Array.size_push]
      exact hs
    · rcases List.mem_cons.mp hx with rfl | hx
      · rw [toNat_slot hs]
        exact Array.getElem?_push_size
      · exact (extended_declared s name).locals _ _ (h.placed.1.scope x hx)
    · exact (extended_declared s name).isOpen (h.placed.1.cells n hn)
  kind := h.kind
  scope := by
    rw [State.declared, Point.declare, h.scope, h.slots]
  slots := by
    rw [State.declared, Point.declare, Array.size_push, h.slots]
  depth := h.depth
  outer := h.outer

theorem Extends.declared (h : Stands v s p) (hs : s.body.chunk.locals.size < maxLocals)
    (name : String) : Extends v s p (s.declared name) (p.declare name) [] :=
  { Extends.refl h with
    toAdds := .none rfl rfl rfl rfl
    stands := { h.toAgrees.declared hs name with
      self := fun hr => by
        obtain ⟨x, hx, h0⟩ := h.self hr
        exact ⟨x, List.mem_cons_of_mem _ hx, h0⟩ }
    scope := List.suffix_cons _ _
    tables := ⟨fun _ _ => id, fun _ _ => id⟩
    extended := extended_declared s name }

def Untested (slot : UInt8) (k : Knowledge) : Prop :=
  ∀ path owner number, ¬ k (.passed slot path owner number)

/-- No test has found out anything about a slot that is yet to be reserved. -/
theorem Still.untested {strict : Prop} {k : Knowledge} (hk : Still strict s.body.chunk k)
    (hs : s.body.chunk.locals.size < maxLocals) :
    Untested (UInt8.ofNat s.body.chunk.locals.size) k := by
  intro path owner number hf
  rcases hk _ hf with ⟨n, hn⟩ | ⟨-, n, path', owner', number', he, hn⟩
  · cases hn
  · cases he
    rw [toNat_slot hs] at hn
    have := (Array.getElem?_eq_some_iff.mp hn).1
    omega

/-- Binding a slot keeps what is known, unless tests were made on its value. -/
theorem Still.binding {strict : Prop} {c : Chunk Value} {k : Knowledge} (hk : Still strict c k)
    (hn : Untested slot k) (scope : List Local) :
    ((known scope k).binding slot).Covers (known scope k) := by
  intro f hf
  refine .inr ⟨hk.lasting scope f hf, ?_⟩
  rintro path owner number rfl
  rcases hf with hf | ⟨x, -, hx⟩
  · exact hn path owner number hf
  · cases hx

/-- There is no slot left, or the name is bound to the next slot. -/
theorem define_cases (name : String) (loc : Location) (h : Stands v s p) :
    (define name loc v.ctx s).1.1.Refused ∧ (define name loc v.ctx s).1.2 = none ∨
      s.body.chunk.locals.size < maxLocals ∧ define name loc v.ctx s =
        ((.bind loc.line (UInt8.ofNat p.slots), some (UInt8.ofNat p.slots)), s.declared name) := by
  rw [define, bind_run, reserve?_run, ← h.slots]
  by_cases hs : s.body.chunk.locals.size < maxLocals
  · rw [if_pos hs]
    exact .inr ⟨hs, rfl⟩
  · rw [if_neg hs]
    exact .inl ⟨.inl trivial, rfl⟩

theorem bind_assures (hs : s.body.chunk.locals.size < maxLocals) (hd : 1 ≤ d) (hq : ¬ m.quiet)
    (name : String) : Assures v m (fun _ => True) (Untested (UInt8.ofNat p.slots)) ⟨s, p, d⟩
      (.bind line (UInt8.ofNat p.slots)) ⟨s.declared name, p.bind name, d - 1⟩ := by
  intro h
  have he := Extends.declared h hs name
  refine .inr ⟨[], { he with stands := { he.stands with } },
    ⟨[.bind (UInt8.ofNat p.slots)], rfl, fun _ _ _ _ => ⟨rfl, rfl⟩⟩, .bind hd, fun h => absurd h hq,
    fun ex k hk _ _ => ?_⟩
  have hslots : s.body.chunk.locals.size = p.slots := h.slots
  have huntested := hk.untested hs
  refine ⟨k, fun _ => id, hk.mono he.extended, hslots ▸ huntested, .bind ?_⟩
  rw [← hslots]
  rintro f (hf | ⟨x, hx, rfl⟩)
  · exact hk.binding huntested _ f (.inl hf)
  · rcases List.mem_cons.mp hx with rfl | hx
    · exact .inl rfl
    · exact hk.binding huntested _ _ (.inr ⟨x, hx, rfl⟩)

theorem define_emits (name : String) (loc : Location) (hd : 1 ≤ d) (hq : ¬ m.quiet) :
    Emits v m ⟨s, p, d⟩ (define name loc v.ctx s).1.1
      ⟨(define name loc v.ctx s).2, p.bind name, d - 1⟩ := by
  refine Assures.intro fun h => ?_
  rcases define_cases name loc h with ⟨href, -⟩ | ⟨hs, hrun⟩
  · exact .refused href
  · rw [hrun]
    intro h
    rcases bind_assures hs hd hq name h with href | ⟨ts, he, hn, hm, hquiet, hf⟩
    · exact .inl href
    refine .inr ⟨ts, he, hn, hm, hquiet, fun ex k hk hnear _ => ?_⟩
    obtain ⟨k', hcov, hstill, -, hflows⟩ := hf ex k hk hnear trivial
    exact ⟨k', hcov, hstill, trivial, hflows⟩

/-! ## Names -/

theorem getLocal_emits {x : Local} (hd : 0 ≤ d) (hx : x ∈ s.body.scope) :
    Emits v m ⟨s, p, d⟩ (.instr line ⟨.getLocal, x.slot⟩)
      ⟨s, p.mark (.read (.slot 0 x.slot)), d + 1⟩ :=
  .instr (some (.read (.slot 0 x.slot))) trivial rfl hd (fun h => by cases h) rfl rfl
    (fun _ _ _ _ _ => rfl) (fun _ _ => .inr ⟨x, hx, rfl⟩) fun _ _ _ => .inl

theorem getSelf_emits (hd : 0 ≤ d) (hr : s.body.kind.hasReceiver = true) :
    Emits v m ⟨s, p, d⟩ (.instr line ⟨.getSelf, ()⟩) ⟨s, p, d + 1⟩ := by
  refine .instr none trivial rfl hd (fun h => by cases h) rfl rfl (fun _ _ _ _ _ => rfl)
    (fun h _ => ?_) fun _ _ _ => id
  obtain ⟨x, hx, h0⟩ := h.self hr
  exact ⟨h.placed.1.receiver.trans hr, .inr ⟨x, hx, by rw [h0]⟩⟩

theorem getCapture_emits {i n : UInt8} {out : Nat} (hd : 0 ≤ d)
    (hc : captured? (captures (s.body :: s.enclosing)) i.toNat = some (out + 1, n)) :
    Emits v m ⟨s, p, d⟩ (.instr line ⟨.getCapture, i⟩)
      ⟨s, p.mark (.read (.slot (out + 1) n)), d + 1⟩ := by
  refine .instr (some (.read (.slot (out + 1) n))) trivial rfl hd (fun h => by cases h) rfl rfl
    (fun _ cs _ hcs _ => ?_) (fun _ _ => captured?_lt hc) fun _ _ _ => id
  simp [Instruction.named?, captured?_grown hcs hc]

/-- Loads a global of the module or of an import, or a builtin. -/
theorem refer_pushes {op : UInt16 → Instruction} (f : Symbol → Mark)
    (hm : ∀ c n, c.symbol? n = some symbol → Means v.space c [] (op n))
    (hi : ∀ n, Code.isFree (op n) = true)
    (hn : ∀ n cs symbol?, (op n).named? cs symbol? = some ((symbol? n).map f))
    (hp : ∀ n, (op n).inputs = 0 ∧ (op n).opcode ≠ .ret ∧ (op n).effect = 1) (hd : 0 ≤ d) :
    Lowers v m (refer symbol loc op) s p (p.mark (f symbol)) d (d + 1) :=
  refer_lowers (some f) hm hi hn (fun n => by rw [(hp n).1]; exact hd) (fun n => (hp n).2.1)
    fun n => by rw [(hp n).2.2]

theorem load_pushes (hname : v.strict → name ≠ subjectName) (loc : Location) :
    Pushes v (load name loc) (Point.read v.space name) := by
  refine fun m s p d hd => Assures.intro fun hs => ?_
  rw [load, bind_run]
  rcases storage?_cases hname loc hs with ⟨problem, s', hrun, href⟩ | ⟨n, hrun, hmem, hb⟩ |
    ⟨i, s', out, n, hrun, hext, hscope, hb, hc⟩ | ⟨hrun, hb⟩
  · rw [hrun]
    simp only [bind_run, read_run]
    rcases v.ctx.space.resolve? name with _ | symbol | symbol | symbol | symbol
    · cases Builtin.ofName? name <;> exact .refused (.inl href)
    all_goals exact .refused (.inl href)
  · rw [hrun, Point.read, Point.place?_of_bound hb]
    exact Emits.skip.seq (getLocal_emits hd hmem)
  · rw [hrun, Point.read, Point.place?_of_bound hb]
    exact .after hext hscope rfl (Emits.skip.seq (getCapture_emits hd hc))
  · rw [hrun, Point.read, Point.place?_of_unbound hb]
    simp only [bind_run, read_run]
    rcases hres : v.ctx.space.resolve? name with _ | symbol | symbol | symbol | symbol
    · cases Builtin.ofName? name with
      | none => exact Emits.skip.seq (substitute_lowers _ loc)
      | some b =>
        exact Emits.skip.seq (refer_pushes (.read <| .builtin ·) (fun _ _ h => ⟨_, h, b, rfl⟩)
          (fun _ => rfl) (fun _ _ _ => rfl) (fun _ => ⟨rfl, by simp, rfl⟩) hd)
    · exact Emits.skip.seq (refer_pushes (.read <| .global <| .function ·)
        (fun _ _ h => ⟨_, h, name, hres⟩) (fun _ => rfl) (fun _ _ _ => rfl)
        (fun _ => ⟨rfl, by simp, rfl⟩) hd)
    · exact Emits.skip.seq (refer_pushes (.read <| .global <| .value ·)
        (fun _ _ h => ⟨_, h, name, hres⟩) (fun _ => rfl) (fun _ _ _ => rfl)
        (fun _ => ⟨rfl, by simp, rfl⟩) hd)
    · exact Emits.skip.seq (refer_pushes (.read <| .global <| .struct ·)
        (fun _ _ h => ⟨_, h, name, hres⟩) (fun _ => rfl) (fun _ _ _ => rfl)
        (fun _ => ⟨rfl, by simp, rfl⟩) hd)
    · exact Emits.skip.seq (substitute_lowers _ loc)

theorem setLocal_assures {pre : Knowledge → Prop} (hd : 1 ≤ d)
    (hn : ∀ k, Still v.strict s.body.chunk k → pre k → Untested slot k) :
    Assures v m pre pre ⟨s, p, d⟩ (.instr line ⟨.setLocal, slot⟩)
      ⟨s, p.mark (.write (.slot 0 slot)), d⟩ := by
  have hm : Code.Moves (Means v.space s.body.chunk []) m.inLoop m.inArm
      (.instr line ⟨.setLocal, slot⟩) d (d + 0) := .instr trivial rfl hd (by simp)
  rw [Int.add_zero] at hm
  exact .steady (some (.write (.slot 0 slot))) (fun _ _ _ _ _ => rfl) hm
    fun _ _ k hk _ hpre => .instr ⟨trivial, hk.binding (hn k hk hpre) _⟩ rfl

theorem setModuleValue_lowers (hd : 1 ≤ d) (symbol : Symbol) (loc : Location) :
    Lowers v m (refer symbol loc (⟨.setModuleValue, ·⟩)) s p
      (p.mark (.write (.global (.value symbol)))) d d :=
  refer_lowers (some (.write <| .global <| .value ·)) (fun _ _ h => ⟨_, h⟩) (fun _ => rfl)
    (fun _ _ _ => rfl) (fun _ => hd) (fun _ => by simp) fun _ => Int.add_zero d

theorem store_lowers (hname : v.strict → name ≠ subjectName) (loc : Location) (hd : 1 ≤ d) :
    Lowers v m (store name loc) s p (p.write v.space name) d d := by
  refine Assures.intro fun hs => ?_
  rw [store, bind_run]
  rcases storage?_cases hname loc hs with ⟨problem, s', hrun, href⟩ | ⟨n, hrun, hmem, hb⟩ |
    ⟨i, s', out, n, hrun, hext, hscope, hb, hc⟩ | ⟨hrun, hb⟩
  · rw [hrun]
    simp only [bind_run, read_run]
    rcases v.ctx.space.resolve? name with _ | symbol | symbol | symbol | symbol
    all_goals exact .refused (.inl href)
  · rw [hrun, Point.write, Point.place?_of_bound hb]
    refine Emits.skip.seq (setLocal_assures hd fun k hk _ path owner number hf => ?_)
    rcases hk _ hf with ⟨x, hx⟩ | ⟨hstrict, x, path', owner', number', hx, hsubject⟩
    · cases hx
    · cases hx
      exact hname hstrict (Option.some.inj ((hs.placed.1.scope _ hmem).symm.trans hsubject))
  · rw [hrun, Point.write, Point.place?_of_bound hb]
    refine .after hext hscope rfl (Emits.skip.seq (Emits.instr (some (.write (.slot (out + 1) n)))
      trivial rfl hd (fun h => by cases h) (Int.add_zero d) rfl (fun _ cs _ hcs _ => ?_)
      (fun _ _ => captured?_lt hc) fun _ _ _ => id))
    simp [Instruction.named?, captured?_grown hcs hc]
  · rw [hrun, Point.write, Point.place?_of_unbound hb]
    simp only [bind_run, read_run]
    rcases v.ctx.space.resolve? name with _ | symbol | symbol | symbol | symbol
    case some.value => exact Emits.skip.seq (setModuleValue_lowers hd symbol loc)
    all_goals exact Emits.skip.seq (report_lowers _ loc)

theorem receiver_pushes (loc : Location) : Pushes v (receiver loc) Point.receiver := by
  refine fun m s p d hd => Assures.intro fun hs => ?_
  rw [receiver, bind_run, get_run, Point.receiver, ← hs.kind]
  cases hr : s.body.kind.hasReceiver with
  | true => exact getSelf_emits hd hr
  | false =>
    simp only [Bool.false_eq_true, if_false, bind_run]
    rcases storage?_cases (fun _ => (by decide : "self" ≠ subjectName)) loc hs with
      ⟨problem, s', hrun, href⟩ | ⟨n, hrun, hmem, hb⟩ |
        ⟨i, s', out, n, hrun, hext, hscope, hb, hc⟩ | ⟨hrun, hb⟩
    · rw [hrun]
      exact .refused (.inl href)
    · rw [hrun]
      exact Emits.skip.seq (substitute_lowers _ loc)
    · rw [hrun, hb]
      simp only
      cases s.enclosing.any (·.kind.hasReceiver) with
      | true => exact .after hext hscope rfl (Emits.skip.seq (getCapture_emits hd hc))
      | false => exact .after hext hscope rfl (Emits.skip.seq (substitute_lowers _ loc))
    · rw [hrun]
      exact Emits.skip.seq (substitute_lowers _ loc)

/-! ## Scopes and loops -/

theorem inScope_assures {q r : Prop} {inLoop inArm : Bool} {pre post : Knowledge → Prop}
    {part : Build Code} {walk : Point → Point}
    (h : ∀ s₀ p₀, s₀.body.inLoop = s.body.inLoop → s₀.body.scope = s.body.scope →
      Assures v ⟨r, inLoop, inArm⟩ pre post ⟨s₀, p₀, d⟩ (part v.ctx s₀).1
        ⟨(part v.ctx s₀).2, walk p₀, e⟩) :
    Assures v ⟨q, inLoop, inArm⟩ pre post ⟨s, p, d⟩ (inScope part v.ctx s).1
      ⟨(inScope part v.ctx s).2, p.inScope walk, e⟩ := by
  intro hs
  have hin : Stands v { s with body := { s.body with depth := s.body.depth + 1 } }
      { p with depth := p.depth + 1 } :=
    { hs with
      placed := ⟨{ hs.placed.1 with }, hs.placed.2⟩
      depth := congrArg (· + 1) hs.depth }
  rcases h { s with body := { s.body with depth := s.body.depth + 1 } } _ rfl rfl hin with
    href | ⟨ts, he, hn, hm, -, hf⟩
  · exact .inl href
  refine .inr ⟨ts, { he with
    stands := { he.stands with
      placed := ⟨{ he.stands.placed.1 with
        scope := fun x hx => he.stands.placed.1.scope x (he.scope.subset hx) }, he.stands.placed.2⟩
      scope := hs.scope
      depth := congrArg (· - 1) he.stands.depth
      self := fun hr => hs.self (he.kind ▸ hr) }
    depth := (congrArg (· - 1) he.depth).trans (Nat.add_sub_cancel _ _)
    scope := List.suffix_rfl }, hn, hm, fun _ => rfl, fun ex k hk hnear hpre => ?_⟩
  obtain ⟨k', hcov, hstill, hpost, hflows⟩ := hf ex k hk hnear hpre
  exact ⟨k', hcov, hstill, hpost, .weaken (fun _ => id) hflows (known_covers he.scope fun _ => id)⟩

theorem inLoop_lowers {q : Prop} {inArm : Bool} {part : Build Code} {walk : Point → Point}
    (h : ∀ s₀ p₀, s₀.body.inLoop = true → Lowers v ⟨q, true, inArm⟩ part s₀ p₀ (walk p₀) d e) :
    Lowers v ⟨q, true, inArm⟩ (inLoop part) s p (walk p) d e := by
  intro hs
  have hin : Stands v { s with body := { s.body with inLoop := true } } p :=
    { hs with placed := ⟨{ hs.placed.1 with }, hs.placed.2⟩ }
  rcases h { s with body := { s.body with inLoop := true } } p rfl hin with
    href | ⟨ts, he, hn, hm, hq, hf⟩
  · exact .inl href
  · exact .inr ⟨ts, { he with
      stands := { he.stands with placed := ⟨{ he.stands.placed.1 with }, he.stands.placed.2⟩ }
      inLoop := rfl }, hn, hm, hq, hf⟩

/-! ## Checks -/

theorem mapM_report_run {α : Type} {ctx : Context} (problem : α → Problem × Location)
    (l : List α) :
    (l.mapM fun x => report (problem x).1 (problem x).2 : Build (List Code)) ctx s =
      (l.map fun x => .report ⟨(problem x).1, ctx.path, (problem x).2, none⟩, s) := by
  induction l generalizing s with
  | nil => rfl
  | cons x l ih =>
    rw [List.mapM_cons, bind_run, bind_run, ih]
    rfl

theorem refused_join_reports {problems : List Diagnostic} (h : problems ≠ []) :
    (Code.join (problems.map .report)).Refused := by
  obtain ⟨p, hp⟩ := List.exists_mem_of_ne_nil _ h
  rw [Code.join, Code.refused_joinReversed]
  exact ⟨.report p, List.mem_reverse.mpr (List.mem_map_of_mem hp), trivial⟩

def Checked (s : State) (run : Code × State) : Prop :=
  run.2 = s ∧ (run.1 = .skip ∨ run.1.Refused)

theorem checked_skip : Checked s (.skip, s) := ⟨rfl, .inl rfl⟩

theorem checked_report {x : Diagnostic} : Checked s (.report x, s) := ⟨rfl, .inr trivial⟩

theorem checked_reports {α : Type} (make : α → Diagnostic) (l : List α) :
    Checked s (Code.join (l.map fun x => .report (make x)), s) := by
  cases l with
  | nil => exact checked_skip
  | cons x l =>
    rw [show ((x :: l).map fun x => Code.report (make x)) = ((x :: l).map make).map .report by simp]
    exact ⟨rfl, .inr (refused_join_reports (List.cons_ne_nil _ _))⟩

theorem Checked.emits {run : Code × State} (h : Checked s run) :
    Emits v m ⟨s, p, d⟩ run.1 ⟨run.2, p, d⟩ := by
  obtain ⟨hs, hc | hc⟩ := h
  · rw [hs, hc]
    exact .skip
  · exact .refused hc

end StackCode.Lowering
