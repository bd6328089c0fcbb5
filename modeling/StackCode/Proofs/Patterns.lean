import Mathlib.Data.List.Induction
import StackCode.Proofs.Calls

/-! # Patterns

The subject of a choice is bound to a slot of its own. The tests of a pattern let the values that
its names stand for be reached along paths from there, since a case is tested before its values are
read.
-/

namespace StackCode.Lowering

open Code (Knowledge Fact Flows bindings Extended Exits)

variable {strict : Prop} {space : Space} {k : Knowledge} {v : View} {m : Mode} {s s₁ : State}
  {p p₁ : Point} {d : Int} {loc : Location} {name : String} {line : UInt32} {slot : UInt8}
  {path : Path} {symbol : Symbol} {t : EnumType} {index : Nat} {case : CaseType} {inLoop : Bool}

/-! ## Paths -/

/-- Along the path, every value but the last one was found to be a case that has the next one. -/
def Walks (strict : Prop) (space : Space) (slot : UInt8) (path : Path) (k : Knowledge) : Prop :=
  strict → ∀ before n after, path = before ++ n :: after → ∃ owner number t case,
    k (.passed slot before owner number) ∧ space.enumType? owner = some t ∧
      t.cases[number.toNat]? = some case ∧ n.toNat < case.values.length

theorem Walks.nil : Walks strict space slot [] k := by
  intro _ before n after h
  cases before <;> cases h

theorem Walks.mono {k' : Knowledge} (h : Walks strict space slot path k) (hk : k'.Covers k) :
    Walks strict space slot path k' := by
  intro hs before n after hpath
  obtain ⟨owner, number, t, case, hf, hrest⟩ := h hs before n after hpath
  exact ⟨owner, number, t, case, hk _ hf, hrest⟩

/-- A path goes on where a case was found. -/
theorem Walks.snoc {n : UInt8} (h : Walks strict space slot path k)
    (hf : strict → ∃ owner number t case, k (.passed slot path owner number) ∧
      space.enumType? owner = some t ∧ t.cases[number.toNat]? = some case ∧
      n.toNat < case.values.length) : Walks strict space slot (path ++ [n]) k := by
  intro hs before m after hpath
  rcases List.eq_nil_or_concat after with rfl | ⟨init, last, rfl⟩
  · obtain ⟨rfl, hm⟩ := List.append_inj' hpath rfl
    cases hm
    exact hf hs
  · have hsplit : path ++ [n] = (before ++ m :: init) ++ [last] := by
      rw [hpath, List.concat_eq_append, List.append_assoc, List.cons_append]
    exact h hs before m init (List.append_inj' hsplit rfl).1

theorem Walks.init {n : UInt8} (h : Walks strict space slot (path ++ [n]) k) :
    Walks strict space slot path k := by
  intro hs before m after hpath
  exact h hs before m (after ++ [n]) (by rw [hpath, List.append_assoc, List.cons_append])

/-- What is known when the value at a path is on top of the stack. -/
def holding (k : Knowledge) (slot : UInt8) (path : Path) : Knowledge := fun f =>
  k f ∨ f = .loaded slot path

theorem loadPath_flows {c : Chunk Value} {ex : Exits Knowledge} {scope : List Local}
    {literals : List Nest} (hk : Still strict c k) (hslot : ⟨subjectName, slot⟩ ∈ scope)
    (hc : c.locals[slot.toNat]? = some subjectName) (hw : Walks strict space slot path k) :
    Flows (bindings strict space c literals) ex (loadPath slot path line) (known scope k)
      (holding (known scope k) slot path) := by
  let read (n : UInt8) : Code := .instr line ⟨.getAssociated, n⟩
  have hwalk : Flows (bindings strict space c literals) ex (Code.join (path.map read))
      (holding (known scope k) slot []) (holding (known scope k) slot path) := by
    induction path using List.reverseRecOn with
    | nil => exact .skip
    | append_singleton path n ih =>
      rw [List.map_append, Code.join, List.reverse_append]
      refine (Code.sequential_flows _ ex).snoc (ih hw.init) (.instr ⟨fun hs => ?_, ?_⟩ rfl)
      · obtain ⟨owner, number, t, case, hf, ht, hcase, hn⟩ := hw hs path n [] rfl
        exact ⟨slot, path, owner, number, t, case, hc, .inr rfl, .inl (.inl hf), ht, hcase, hn⟩
      · rintro f (hf | rfl)
        · exact .inl ⟨(hk.lasting scope f hf).1, .inl hf⟩
        · exact .inr ⟨slot, path, .inr rfl, rfl⟩
  refine .seq (.instr ⟨.inr ⟨_, hslot, rfl⟩, ?_⟩ rfl) hwalk
  rintro f (hf | rfl)
  · exact .inl (hk.lasting scope f hf)
  · exact .inr rfl

theorem loadPath_moves {V : Instruction → Prop} {inArm : Bool} (hl : V ⟨.getLocal, slot⟩)
    (ha : ∀ n, V ⟨.getAssociated, n⟩) (hd : 0 ≤ d) :
    (loadPath slot path line).Moves V inLoop inArm d (d + 1) := by
  refine .seq (.instr hl rfl hd fun h => by cases h) (Code.sequential_moves.join fun c hc => ?_)
  obtain ⟨n, -, rfl⟩ := List.mem_map.mp hc
  have hread : Code.Moves V inLoop inArm (.instr line ⟨.getAssociated, n⟩) (d + 1) (d + 1 + 0) :=
    .instr (ha n) rfl (Int.add_le_add_right hd 1) fun h => by cases h
  rw [Int.add_zero] at hread
  exact hread

theorem loadPath_named (cs : List (Array Capture)) (symbol? : UInt16 → Option Symbol) :
    (loadPath slot path line).named cs symbol? = [some (.read (.slot 0 slot))] := by
  have hpath : [] = [] ++ (Code.join (path.map fun n =>
      .instr line ⟨.getAssociated, n⟩)).named cs symbol? := by
    refine Code.sequential_gather.join fun c hc => ?_
    obtain ⟨n, -, rfl⟩ := List.mem_map.mp hc
    rfl
  exact congrArg (some (Mark.read (.slot 0 slot)) :: ·) hpath.symm

theorem loadPath_assures (hslot : ⟨subjectName, slot⟩ ∈ s.body.scope) (hd : 0 ≤ d) :
    Assures v m (Walks v.strict v.space slot path) (Walks v.strict v.space slot path) ⟨s, p, d⟩
      (loadPath slot path line) ⟨s, p.mark (.read (.slot 0 slot)), d + 1⟩ :=
  .steady (some (.read (.slot 0 slot))) (fun _ cs symbol? _ _ => loadPath_named cs symbol?)
    (loadPath_moves trivial (fun _ => trivial) hd) fun hs _ _ hk _ hw =>
      .weaken (fun _ => id) (loadPath_flows hk hslot (hs.placed.1.scope _ hslot) hw) fun _ => .inl

/-! ## Names of patterns -/

/-- The values that names stand for can be reached from the slot. -/
def Reaches (v : View) (slot : UInt8) (names : List (String × Path)) (k : Knowledge) : Prop :=
  ∀ x ∈ names, Walks v.strict v.space slot x.2 k

def Point.bindParts (subject : UInt8) (names : List String) (p : Point) : Point :=
  names.foldl (fun p name => (p.mark (.read (.slot 0 subject))).bind name) p

theorem bindAll_assures (names : List (String × Path)) {inArm : Bool}
    (hslot : ⟨subjectName, slot⟩ ∈ s.body.scope) :
    Assures v ⟨False, inLoop, inArm⟩ (Reaches v slot names) (fun _ => True) ⟨s, p, 0⟩
      (bindAll slot loc names v.ctx s).1
      ⟨(bindAll slot loc names v.ctx s).2, p.bindParts slot (names.map (·.1)), 0⟩ := by
  induction names generalizing s p with
  | nil => exact .skip fun _ _ => trivial
  | cons entry names ih =>
    obtain ⟨name, path⟩ := entry
    have hload : Assures v ⟨False, inLoop, inArm⟩ (Reaches v slot ((name, path) :: names))
        (Reaches v slot ((name, path) :: names)) ⟨s, p, 0⟩ (loadPath slot path loc.line)
        ⟨s, p.mark (.read (.slot 0 slot)), 1⟩ :=
      (loadPath_assures hslot (Int.le_refl 0)).frame fun k hw => hw _ List.mem_cons_self
    refine (hload.seq ((define_emits name loc (Int.le_refl 1) id).frame fun _ _ => trivial)).seqWith
      fun _ he => ?_
    exact (ih (he.scope.subset hslot)).mono (fun k hw x hx => hw x (List.mem_cons_of_mem _ hx))
      (fun _ => id) id

theorem checked_checkBindings {ctx : Context} (pat : Pattern) (loc : Location) :
    Checked s (checkBindings pat loc ctx s) := by
  rw [checkBindings, bind_run]
  rw [mapM_report_run fun name =>
    (.invalidPattern ("'" ++ name ++ "' is bound more than once"), loc)]
  exact checked_reports _ _

/-! ## Tests -/

def found (strict : Prop) (k : Knowledge) (slot : UInt8) (path : Path) (owner : Symbol)
    (number : UInt8) : Knowledge := fun f =>
  k f ∨ strict ∧ f = .passed slot path owner number

theorem test_flows {c : Chunk Value} {ex : Exits Knowledge} {fail : Knowledge} {scope : List Local}
    {literals : List Nest} {n : UInt16} {number : UInt8} {owner : Symbol} (hk : Still strict c k)
    (hslot : ⟨subjectName, slot⟩ ∈ scope) (hc : c.locals[slot.toNat]? = some subjectName)
    (hw : Walks strict space slot path k) (hn : c.symbol? n = some owner)
    (hex : ex.fail = some fail) (hfail : (known scope k).Covers fail) :
    Flows (bindings strict space c literals) ex
      (loadPath slot path line ++ .instr line ⟨.matchCase, ⟨n, number⟩⟩ ++ .require line)
      (known scope k) (known scope (found strict k slot path owner number)) := by
  let tested : Knowledge := fun f => known scope k f ∨ f = .tested slot path owner number
  have hlast : tested.lasting.Covers (known scope k) :=
    fun f hf => ⟨(hk.lasting scope f hf).1, .inl hf⟩
  refine .seq (.seq (loadPath_flows hk hslot hc hw) (.instr (m := tested) ⟨trivial, ?_⟩ rfl))
    (.weaken (fun _ => id) (.require ⟨?_, fun f hf => hlast f (hfail f hf)⟩ hex) fun _ => id)
  · rintro f (hf | rfl)
    · exact .inl ⟨(hk.lasting scope f hf).1, .inl hf⟩
    · exact .inr ⟨slot, path, owner, .inr rfl, hn, rfl⟩
  · rintro f ((hf | ⟨-, rfl⟩) | hf)
    · exact .inl (hlast f (.inl hf))
    · exact .inr ⟨slot, path, owner, number, .inr rfl, rfl⟩
    · exact .inl (hlast f (.inr hf))

theorem EnumType.getElem?_of_case? (h : t.case? name = some (index, case)) :
    t.cases[index]? = some case := by
  obtain ⟨i, -, hget⟩ := Option.bind_eq_some_iff.mp h
  obtain ⟨x, hx, hpair⟩ := Option.bind_eq_some_iff.mp hget
  cases hpair
  exact hx

theorem walks_found (hreg : RegularEnums strict space) (ht : space.enumType? symbol = some t)
    (hcase : t.case? name = some (index, case)) (hw : Walks strict space slot path k) {j : Nat}
    (hj : j < case.values.length) : Walks strict space slot (path ++ [UInt8.ofNat j])
      (found strict k slot path t.symbol (UInt8.ofNat index)) := by
  have hget := EnumType.getElem?_of_case? hcase
  refine (hw.mono fun _ => .inl).snoc fun hs => ?_
  have hr := hreg hs symbol t ht
  have hindex : (UInt8.ofNat index).toNat = index := toNat_slot
    (Nat.lt_of_lt_of_le (List.getElem?_eq_some_iff.mp hget).1 hr.cases)
  refine ⟨t.symbol, UInt8.ofNat index, t, case, .inr ⟨hs, rfl⟩, hr.symbol.symm ▸ ht,
    hindex.symm ▸ hget, Nat.lt_of_le_of_lt ?_ hj⟩
  rw [UInt8.toNat_ofNat']
  exact Nat.mod_le _ _

/-- The test for a case lets its values be reached. -/
theorem test_assures {q : Prop} (hreg : RegularEnums v.strict v.space)
    (hslot : ⟨subjectName, slot⟩ ∈ s.body.scope) (ht : v.space.enumType? symbol = some t)
    (hcase : t.case? name = some (index, case)) :
    Assures v ⟨q, inLoop, true⟩ (Walks v.strict v.space slot path)
      (fun k => ∀ j < case.values.length,
        Walks v.strict v.space slot (path ++ [UInt8.ofNat j]) k) ⟨s, p, 0⟩
      (loadPath slot path loc.line ++
        (refer t.symbol loc (⟨.matchCase, ⟨·, UInt8.ofNat index⟩⟩) v.ctx s).1 ++ .require loc.line)
      ⟨(refer t.symbol loc (⟨.matchCase, ⟨·, UInt8.ofNat index⟩⟩) v.ctx s).2,
        p.mark (.read (.slot 0 slot)), 0⟩ := by
  intro hs
  let s₁ := (refer t.symbol loc (⟨.matchCase, ⟨·, UInt8.ofNat index⟩⟩) v.ctx s).2
  rcases refer_cases t.symbol loc (⟨.matchCase, ⟨·, UInt8.ofNat index⟩⟩) hs with
    href | ⟨n, hcode, he, hscope, hn⟩
  · exact .inl (.inl (.inr href))
  rw [hcode]
  have hlocals := he.extended.locals _ _ (hs.placed.1.scope _ hslot)
  have hmoves : Code.Moves (Means v.space s₁.body.chunk []) inLoop true
      (loadPath slot path loc.line ++ .instr loc.line ⟨.matchCase, ⟨n, UInt8.ofNat index⟩⟩ ++
        .require loc.line) 0 0 :=
    .seq (.seq (loadPath_moves trivial (fun _ => trivial) (Int.le_refl 0))
      (.instr ⟨_, hn⟩ rfl (Int.le_refl 1) fun h => by cases h)) .require
  refine .inr ⟨[], { he with stands := { he.stands with } },
    ⟨[.read (.slot 0 slot)], rfl, fun cs symbol? _ _ => ⟨?_, hmoves.closures_eq_nil⟩⟩, hmoves,
    fun _ => hscope, fun ex k hk hnear hw => ?_⟩
  · rw [Code.named_append, Code.named_append, loadPath_named]
    rfl
  obtain ⟨fail, hex, hfail⟩ := hnear.arm rfl
  refine ⟨found v.strict k slot path t.symbol (UInt8.ofNat index), fun _ => .inl, ?_,
    fun j => walks_found hreg ht hcase hw, ?_⟩
  · rintro f (hf | ⟨hs, rfl⟩)
    · exact hk.mono he.extended f hf
    · exact .inr ⟨hs, slot, path, _, _, rfl, hlocals⟩
  · rw [hscope]
    exact test_flows (hk.mono he.extended) hslot hlocals hw hn hex hfail

def Known (space : Space) (type : Option EnumType) : Prop :=
  ∀ t, type = some t → ∃ symbol, space.enumType? symbol = some t

theorem known_enumOf? (space : Space) (type : Ty) : Known space (space.enumOf? type) := by
  intro t h
  cases type with
  | enum name =>
    simp only [Space.enumOf?] at h
    split at h
    · exact ⟨_, h⟩
    · cases h
  | _ => cases h

/-- The tests come with the names that patterns bind and let the values be reached that the names
stand for, if `pre` is known before. -/
structure Tests (v : View) (pre : Knowledge → Prop) (slot : UInt8)
    (part : Build (Code × List (String × Path))) (bindings : List String) (walk : Point → Point) :
    Prop where
  names : ∀ s, (part v.ctx s).1.1.Refused ∨ (part v.ctx s).1.2.map (·.1) = bindings
  assures : ∀ (s : State) (p : Point) (inLoop : Bool), ⟨subjectName, slot⟩ ∈ s.body.scope →
    Assures v ⟨True, inLoop, true⟩ pre (Reaches v slot (part v.ctx s).1.2) ⟨s, p, 0⟩
      (part v.ctx s).1.1 ⟨(part v.ctx s).2, walk p, 0⟩

/-- The second tests may be made where the first ones have been passed. -/
theorem Tests.both {P first rest : Knowledge → Prop}
    {part part' : Build (Code × List (String × Path))} {names more : List String}
    {walk walk' : Point → Point} (h : Tests v first slot part names walk)
    (h' : Tests v rest slot part' more walk') (hfirst : ∀ k, P k → first k)
    (hrest : ∀ k, P k → rest k) (hP : ∀ k k' : Knowledge, k'.Covers k → P k → P k') :
    Tests v P slot (do
      let (first, names) ← part
      let (rest, more) ← part'
      return (first ++ rest, names ++ more)) (names ++ more) fun p => walk' (walk p) := by
  refine ⟨fun s => ?_, fun s p inLoop hslot => ?_⟩
  · rcases h.names s with href | hnames
    · exact .inl (.inl href)
    rcases h'.names (part v.ctx s).2 with href | hmore
    · exact .inl (.inr href)
    · rw [← hnames, ← hmore]
      exact .inr List.map_append
  · let known : Knowledge → Prop := fun k => P k ∧ Reaches v slot (part v.ctx s).1.2 k
    have hknown : ∀ k k' : Knowledge, k'.Covers k → known k → known k' := fun k k' hk hw =>
      ⟨hP k k' hk hw.1, fun x hx => (hw.2 x hx).mono hk⟩
    have hassures := (h.assures s p inLoop hslot).mono hfirst (fun _ => id) id
    refine (hassures.keep hP).seqWith fun _ he => ?_
    have hassures' := (h'.assures _ (walk p) inLoop (he.scope.subset hslot)).mono (P := known)
      (fun k hw => hrest k hw.1) (fun _ => id) id
    refine (hassures'.keep hknown).mono (fun _ => id) (fun k hw x hx => ?_) id
    rcases List.mem_append.mp hx with hx | hx
    · exact hw.1.2 x hx
    · exact hw.2 x hx

/-- An arm is left for the next one while no name of its pattern is bound. -/
theorem arm_lowers {q : Prop} {inArm : Bool} {type : Option EnumType} {armLoc : Location}
    {pat : Pattern} {body : List Stmt} {rest : Build Code} {walk : Point → Point}
    (hslot : ⟨subjectName, slot⟩ ∈ s.body.scope) (hin : s.body.inLoop = inLoop)
    (hp : Tests v (Walks v.strict v.space slot []) slot (pattern slot armLoc type [] pat)
      pat.bindings (Point.pattern v.space slot pat))
    (hb : ∀ s₀ p₀, s₀.body.inLoop = inLoop → Lowers v ⟨False, inLoop, true⟩ (joined (stmts [] body))
      s₀ p₀ (Point.stmts v.space body p₀) 0 0)
    (hr : ∀ s₀ p₀, ⟨subjectName, slot⟩ ∈ s₀.body.scope → s₀.body.inLoop = inLoop →
      Lowers v ⟨True, inLoop, inArm⟩ rest s₀ p₀ (walk p₀) 0 0) :
    Lowers v ⟨q, inLoop, inArm⟩ (do
      let problems ← checkBindings pat armLoc
      let (tests, names) ← pattern slot armLoc type [] pat
      let body ← inScope do
        let binds ← bindAll slot armLoc names
        return binds ++ (← joined (stmts [] body))
      let rest ← rest
      return .arm loc armLoc (problems ++ tests ++ body) rest) s p
      (walk ((Point.pattern v.space slot pat p).inScope fun p =>
        Point.stmts v.space body (p.bindParts slot pat.bindings))) 0 0 := by
  have hchecked : Checked s (checkBindings pat armLoc v.ctx s) := checked_checkBindings pat armLoc
  have htests := hp.assures (checkBindings pat armLoc v.ctx s).2 p inLoop (by rwa [hchecked.1])
  rcases hp.names (checkBindings pat armLoc v.ctx s).2 with href | hnames
  · exact .refused (.inl (.inl (.inr href)))
  rw [← hnames]
  let bound (names : List (String × Path)) : Build Code := inScope do
    let binds ← bindAll slot armLoc names
    return binds ++ (← joined (stmts [] body))
  have hbody : ∀ (names : List (String × Path)) (s₀ : State) (p₀ : Point),
      ⟨subjectName, slot⟩ ∈ s₀.body.scope → s₀.body.inLoop = inLoop →
      Assures v ⟨True, inLoop, true⟩ (Reaches v slot names) (fun _ => True) ⟨s₀, p₀, 0⟩
        (bound names v.ctx s₀).1 ⟨(bound names v.ctx s₀).2,
          p₀.inScope fun p => Point.stmts v.space body (p.bindParts slot (names.map (·.1))),
          0⟩ := by
    intro names s₀ p₀ hslot hin
    refine inScope_assures (r := False) fun s₁ p₁ hin' hscope => ?_
    exact (bindAll_assures names (hscope ▸ hslot)).seqWith fun _ he =>
      hb _ _ (he.inLoop.trans (hin'.trans hin))
  have hattempt := (hchecked.emits.seq (htests.mono (fun _ _ => .nil) (fun _ => id) id)).seqWith
    fun _ he => hbody _ _ _ (he.scope.subset hslot) (he.inLoop.trans hin)
  exact Emits.arm hattempt fun _ he => hr _ _ (he.scope.subset hslot) (he.inLoop.trans hin)

end StackCode.Lowering
