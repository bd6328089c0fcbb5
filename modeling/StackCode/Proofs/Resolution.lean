import StackCode.Proofs.Entry
import StackCode.Proofs.Exports
import StackCode.Proofs.Soundness

/-! # Closed programs

A name is resolved while a body is compiled in the module and in its direct imports, and its symbol
is looked up in the whole graph of imports when the body runs. If all modules of the graph were
compiled without problems and those of the same name are the same, every symbol in a chunk leads to
what its instruction looks for, and no run fails for want of it.
-/

namespace StackCode

namespace Linked

theorem module_mem_modules (l : Linked) : l.module ∈ l.modules := by
  cases l with
  | mk m is => exact List.mem_cons_self

theorem mem_modulesOf {ls : List Linked} {m : Module} :
    m ∈ modulesOf ls ↔ ∃ l ∈ ls, m ∈ l.modules := by
  induction ls with
  | nil => simp [modulesOf]
  | cons l ls ih => simp [modulesOf, ih]

theorem mem_modules {l : Linked} {m : Module} :
    m ∈ l.modules ↔ m = l.module ∨ ∃ i ∈ l.imports, m ∈ i.modules := by
  cases l with
  | mk m' is => simp [modules, mem_modulesOf, module, imports]

theorem Keeps.exists_module {l : Linked} {c : Chunk Value} (h : l.Keeps c) :
    ∃ m ∈ l.modules, ∃ s,
      m.main = some c ∨ m.chunks.get? s = some c ∨ m.initializers.get? s = some c := by
  rcases h with hc | ⟨m, hm, s, hc⟩
  · exact ⟨_, l.module_mem_modules, c.symbol, .inl hc⟩
  · exact ⟨m, hm, s, .inr hc⟩

end Linked

def Agree (ms : List Module) : Prop := ∀ m ∈ ms, ∀ m' ∈ ms, m.name = m'.name → m = m'

theorem Agree.find? {ms : List Module} (h : Agree ms) {m : Module} (hm : m ∈ ms) {name : String}
    (hn : m.name = name) : ms.find? (·.name == name) = some m := by
  cases hf : ms.find? (·.name == name) with
  | none =>
    have := List.find?_eq_none.mp hf m hm
    exact absurd (beq_iff_eq.mpr hn) this
  | some m' =>
    have hn' := List.find?_some hf
    rw [h m' (List.mem_of_find?_eq_some hf) m hm ((eq_of_beq hn').trans hn.symm)]

namespace Linking

/-- Modules that are compiled without problems, all the way down to the standard module. -/
inductive Clean : Linked → Prop where
  | standard : Clean Standard.linked
  | link {module : String} {files : List SourceFile} {imports : List Linked}
      (name : module ≠ Symbol.standardModule)
      (diagnostics : (link module files imports).module.diagnostics = [])
      (clean : ∀ i ∈ imports, Clean i) : Clean (link module files imports)

variable {module : String} {files : List SourceFile} {imports : List Linked} {l : Linked}

theorem Clean.eq_standard (h : Clean l) (hn : l.name = Symbol.standardModule) :
    l = Standard.linked := by
  cases h with
  | standard => rfl
  | link hname _ _ => exact absurd (link_name.symm.trans hn) hname

theorem Clean.complete (h : Clean l) : l.module.Complete := by
  cases h with
  | standard => exact Standard.complete_module
  | link hname hd _ => exact complete_link hname hd

/-- The standard module comes first, and there is no other one. -/
theorem withStandard_eq (hname : module ≠ Symbol.standardModule) (h : ∀ i ∈ imports, Clean i) :
    withStandard module imports =
      Standard.linked :: imports.filter (fun i => !(i.name == Symbol.standardModule)) := by
  have hhead : ((imports.filter (·.name == Symbol.standardModule)).head?).getD Standard.linked =
      Standard.linked := by
    cases hf : (imports.filter (·.name == Symbol.standardModule)).head? with
    | none => rfl
    | some l =>
      obtain ⟨hl, hn⟩ := List.mem_filter.mp (List.mem_of_head? hf)
      exact (h l hl).eq_standard (eq_of_beq hn)
  simp only [withStandard, beq_eq_false_iff_ne.mpr hname, Bool.false_eq_true, if_false,
    List.partition_eq_filter_filter, hhead]
  rfl

theorem modules_subset_of_mem {i : Linked} (hi : i ∈ withStandard module imports) :
    i.modules ⊆ (link module files imports).modules := by
  intro m hm
  exact Linked.mem_modules.mpr (.inr ⟨i, link_imports ▸ hi, hm⟩)

theorem Clean.standard_mem (h : Clean l) : Standard.module ∈ l.modules := by
  cases h with
  | standard => exact Linked.module_mem_modules _
  | @link module files imports hname _ himports =>
    have hi : Standard.linked ∈ withStandard module imports := by
      rw [withStandard_eq hname himports]
      exact List.mem_cons_self
    exact modules_subset_of_mem hi (Linked.module_mem_modules _)

theorem eq_or_mem_of_mem_withStandard {i : Linked} (h : i ∈ withStandard module imports) :
    i = Standard.linked ∨ i ∈ imports := by
  unfold withStandard at h
  split at h
  · exact .inr h
  simp only [List.partition_eq_filter_filter] at h
  rcases List.mem_cons.mp h with rfl | h
  · cases hf : (imports.filter (·.name == Symbol.standardModule)).head? with
    | none => exact .inl rfl
    | some l => exact .inr (List.mem_filter.mp (List.mem_of_head? hf)).1
  · exact .inr (List.mem_filter.mp h).1

theorem forall_mem_withStandard {P : Linked → Prop} (hs : P Standard.linked)
    (h : ∀ i ∈ imports, P i) : ∀ i ∈ withStandard module imports, P i := by
  intro i hi
  rcases eq_or_mem_of_mem_withStandard hi with rfl | hi
  · exact hs
  · exact h i hi

/-- Every module of the graph was compiled with modules of the graph. -/
theorem exists_of_mem_modules {P : Linked → Prop} (h : ∀ l, P l → ∀ i ∈ l.imports, P i)
    {m : Module} :
    {l : Linked} → P l → m ∈ l.modules → ∃ k, P k ∧ k.module = m ∧ k.modules ⊆ l.modules
  | .mk module imports, hl, hm => by
    rcases Linked.mem_modules.mp hm with rfl | ⟨i, hi, hm⟩
    · exact ⟨_, hl, rfl, fun _ => id⟩
    · have hi : i ∈ imports := hi
      obtain ⟨k, hk, hkm, hks⟩ := exists_of_mem_modules h (h _ hl i hi) hm
      exact ⟨k, hk, hkm, fun n hn => Linked.mem_modules.mpr (.inr ⟨i, hi, hks hn⟩)⟩

theorem Clean.of_imports (h : Clean l) : ∀ i ∈ l.imports, Clean i := by
  cases h with
  | standard => exact fun i hi => absurd hi List.not_mem_nil
  | link _ _ himports =>
    rw [link_imports]
    exact forall_mem_withStandard .standard himports

/-! ## Names in a module -/

section Names

variable {ms : List Module}

/-- A name stands for what a module of the graph exports. -/
theorem exists_export (hsub : (link module files imports).modules ⊆ ms) {name : String} {g : Global}
    (h : (declarations module files imports).space.resolve? name = some g) :
    ∃ m ∈ ms, m.exports.get? name = some g := by
  rw [Space.resolve?] at h
  cases hg : (declarations module files imports).space.globals.get? name with
  | some g' =>
    rw [hg] at h
    cases h
    refine ⟨_, hsub (Linked.module_mem_modules _), ?_⟩
    rw [link_exports]
    exact hg
  | none =>
    rw [hg] at h
    obtain ⟨i, hi, he⟩ := List.exists_of_findSome?_eq_some h
    rw [collects_declarations.importing, List.mem_reverse] at hi
    exact ⟨i.module, hsub (modules_subset_of_mem hi i.module_mem_modules), he⟩

/-- The descriptor of a struct is the one in the module that owns the struct. -/
theorem structs_get?_of_structType? (hagree : Agree ms)
    (hsub : (link module files imports).modules ⊆ ms) {s : Symbol} {type : StructType}
    (h : (declarations module files imports).space.structType? s = some type) {m : Module}
    (hm : m ∈ ms) (hn : m.name = s.module) : m.structs.get? s = some type := by
  rw [Space.structType?] at h
  cases hs : (declarations module files imports).space.structs.get? s with
  | some type' =>
    rw [hs] at h
    cases h
    have hown : m = (link module files imports).module := by
      refine hagree m hm _ (hsub (Linked.module_mem_modules _)) ?_
      exact hn.trans ((collects_declarations.owned s type hs).trans link_name.symm)
    rw [hown, link_structs]
    exact hs
  | none =>
    rw [hs] at h
    obtain ⟨i, hi, he⟩ := List.exists_of_findSome?_eq_some h
    rw [collects_declarations.importing] at hi
    obtain ⟨m', hf, hget⟩ := Option.bind_eq_some_iff.mp he
    have hm' : m' ∈ ms := hsub (modules_subset_of_mem hi (List.mem_of_find?_eq_some hf))
    have hn' := List.find?_some hf
    rw [hagree m hm m' hm' (hn.trans (eq_of_beq hn').symm)]
    exact hget

theorem offers_of_structOf? (hagree : Agree ms) (hcomplete : ∀ m ∈ ms, m.Complete)
    (hstandard : Standard.module ∈ ms) (hsub : (link module files imports).modules ⊆ ms) {ty : Ty}
    {type : StructType}
    (h : (declarations module files imports).space.structOf? ty = some type) :
    ∃ m ∈ ms, m.Offers type := by
  have hget : ∀ s, (declarations module files imports).space.structType? s = some type →
      ∀ m ∈ ms, m.name = s.module → m.structs.get? s = some type :=
    fun s hs m hm hn => structs_get?_of_structType? hagree hsub hs hm hn
  cases ty with
  | struct name =>
    rw [Space.structOf?] at h
    cases hr : (declarations module files imports).space.resolve? name with
    | none =>
      rw [hr] at h
      cases h
    | some g =>
      rw [hr] at h
      cases g with
      | struct s =>
        obtain ⟨m, hm, he⟩ := exists_export hsub hr
        obtain ⟨hn, type', ht, ho⟩ := (hcomplete m hm).struct name s he
        cases ht.symm.trans (hget s h m hm hn.symm)
        exact ⟨m, hm, ho⟩
      | _ => cases h
  | array _ | dictionary _ _ =>
    exact ⟨_, hstandard, Standard.offers_of_get? (hget _ h _ hstandard rfl)⟩
  | _ => cases h

end Names

end Linking

namespace Machine

open Linking Lowering

/-- The modules of the program hold what they export, and those of the same name are the same. -/
structure Program.Consistent (p : Program) : Prop where
  agree : Agree p.modules
  complete : ∀ m ∈ p.modules, m.Complete
  standard : Standard.module ∈ p.modules

variable {p : Program}

namespace Program.Consistent

variable {m : Module} {s : Symbol}

theorem find? (h : p.Consistent) (hm : m ∈ p.modules) (hs : s.module = m.name) :
    p.find? s.module = some m := h.agree.find? hm hs.symm

theorem chunk? (h : p.Consistent) (hm : m ∈ p.modules) (ho : m.Owns s) :
    (p.chunk? s).isSome := by
  rw [Program.chunk?, h.find? hm ho.1]
  exact ho.2

theorem initializer? (h : p.Consistent) (hm : m ∈ p.modules) (hs : s.module = m.name)
    (hi : (m.initializers.get? s).isSome) : (p.initializer? s).isSome := by
  rw [Program.initializer?, h.find? hm hs]
  exact hi

theorem structType? (h : p.Consistent) (hm : m ∈ p.modules) (hs : s.module = m.name) :
    p.structType? s = m.structs.get? s := by
  rw [Program.structType?, h.find? hm hs]
  rfl

theorem constructs (h : p.Consistent) (hm : m ∈ p.modules) {type : StructType}
    (ho : m.Offers type) :
    Constructs p type := by
  have hi := ho.initializer
  unfold Constructs
  split
  · rwa [if_pos (by assumption)] at hi
  · rw [if_neg (by assumption)] at hi
    exact fun s hs => h.chunk? hm (hi s hs)

theorem invokes (h : p.Consistent) (hm : m ∈ p.modules) {type : StructType} (ho : m.Offers type)
    {name : String} (hs : type.method? name = some s) :
    Invokes p s := by
  have hi := ho.method name s hs
  unfold Invokes
  split
  · rwa [if_pos (by assumption)] at hi
  · rw [if_neg (by assumption)] at hi
    exact h.chunk? hm hi

end Program.Consistent

variable {c : Chunk Value}

/-- What an instruction of a compiled body means is there when the body runs. -/
theorem resolves_of_means (h : p.Consistent) {module : String} {files : List SourceFile}
    {imports : List Linked} (hsub : (link module files imports).modules ⊆ p.modules)
    {literals : List Nest} {i : Instruction}
    (hliterals : ∀ t ∈ literals, (p.chunk? t.chunk.symbol).isSome)
    (hm : Means (declarations module files imports).space c literals i) : Resolves p c i := by
  obtain ⟨op, operand⟩ := i
  cases op
  case getModuleFunction =>
    obtain ⟨s, hs, name, hr⟩ := hm
    obtain ⟨m, hmem, he⟩ := exists_export hsub hr
    exact ⟨s, hs, h.chunk? hmem ((h.complete m hmem).function name s he)⟩
  case getModuleValue =>
    obtain ⟨s, hs, name, hr⟩ := hm
    obtain ⟨m, hmem, he⟩ := exists_export hsub hr
    obtain ⟨hn, hi⟩ := (h.complete m hmem).value name s he
    exact ⟨s, hs, h.initializer? hmem hn hi⟩
  case getStruct =>
    obtain ⟨s, hs, name, hr⟩ := hm
    obtain ⟨m, hmem, he⟩ := exists_export hsub hr
    obtain ⟨hn, type, ht, ho⟩ := (h.complete m hmem).struct name s he
    exact ⟨s, hs, type, (h.structType? hmem hn).trans ht, h.constructs hmem ho⟩
  case getBuiltin =>
    obtain ⟨s, hs, b, rfl⟩ := hm
    exact ⟨_, hs, by cases b <;> rfl⟩
  case makeClosure =>
    obtain ⟨s, hs, t, ht, rfl⟩ := hm
    exact ⟨_, hs, hliterals t ht⟩
  case getMethod | invokeMethod =>
    obtain ⟨s, hs, ty, type, name, ht, hmethod⟩ := hm
    obtain ⟨m, hmem, ho⟩ := offers_of_structOf? h.agree h.complete h.standard hsub ht
    exact ⟨s, hs, h.invokes hmem ho hmethod⟩
  case callChunk => exact hm.elim
  all_goals trivial

/-- A chunk of the program whose symbols lead to what its instructions look for. -/
structure Ready (p : Program) (c : Chunk Value) : Prop where
  depths : ∃ r, c.depths = .ok r
  constants : ∀ v ∈ c.constants, v.Plain
  reached : ∀ o, c.Reaches o → ∃ i, (o, i) ∈ c.instructions ∧ c.instruction? o = some i
  resolves : ∀ o i, (o, i) ∈ c.instructions → Resolves p c i

theorem throughout_of_plain {Q : Value → Prop} (hQ : ∀ v, v.Plain → Q v) {v : Value}
    (h : v.Plain) : v.Throughout Q := by
  cases v with
  | enumCase c =>
    refine Value.throughout_enumCase.mpr fun w hw => ?_
    rw [show c.values = [] from h] at hw
    cases hw
  | _ => exact hQ _ h

theorem inert_of_plain {closed : Prop} {v : Value} (h : v.Plain) :
    v.Throughout (Inert closed p) := by
  refine throughout_of_plain (fun w hw => ?_) h
  cases w with
  | none | int _ | bool _ | string _ | enumCase _ => trivial
  | _ => exact hw.elim

theorem Ready.runnable (h : Ready p c) : Runnable True p c where
  depths := h.depths
  constants v hv := inert_of_plain (h.constants v hv)
  resolves _ o i ho hi := by
    obtain ⟨j, hj, hat⟩ := h.reached o ho
    cases hi.symm.trans hat
    exact h.resolves o i hj

/-- Instructions that jump look nothing up. -/
theorem ready_of_holds {V : Instruction → Prop} (hd : ∃ r, c.depths = .ok r)
    (hc : ∀ v ∈ c.constants, v.Plain) (h : c.Holds V) (hV : ∀ i, V i → Resolves p c i) :
    Ready p c where
  depths := hd
  constants := hc
  reached o ho := by
    obtain ⟨i, hi⟩ := h.reached o ho
    exact ⟨i, hi, (h.listed o i hi).1⟩
  resolves o i hi := by
    cases hj : i.distance? with
    | none => exact hV i ((h.listed o i hi).2 hj)
    | some x =>
      obtain ⟨op, operand⟩ := i
      cases op
      case jump | jumpIfFalse | loop => trivial
      all_goals cases hj

section Link

variable {module : String} {files : List SourceFile} {imports : List Linked}

theorem ready_of_sound (h : p.Consistent) (hsub : (link module files imports).modules ⊆ p.modules)
    {body : Nest} (hs : body.Sound (declarations module files imports).space)
    (hliterals : ∀ t ∈ body.literals, (p.chunk? t.chunk.symbol).isSome) : Ready p body.chunk :=
  ready_of_holds hs.assembled.wellFormed.depths hs.assembled.constants hs.assembled.holds
    fun _ => resolves_of_means h hsub hliterals

variable {c : Chunk Value}

theorem ready_of_piece (h : p.Consistent) (hsub : (link module files imports).modules ⊆ p.modules)
    {b : Piece} (hb : b ∈ pieces module files imports) {r : Compiled}
    (hr : b.compile (declarations module files imports).space = .ok r)
    (hc : c ∈ r.chunk :: r.nested) : Ready p c := by
  obtain ⟨symbol, literals, -, hof⟩ := Source.compile_eq_ok hr
  obtain ⟨body, hbody, rfl⟩ := hof.exists_holds hc
  have hsound := hof.sound.of_holds hbody
  refine ready_of_sound h hsub hsound fun t ht => ?_
  have hmem : t.chunk ∈ registered module files imports := by
    refine List.mem_append_left _ (List.mem_flatMap.mpr ⟨b, hb, ?_⟩)
    have : t.chunk ∈ r.nested := hof.nested ▸ hbody.chunk_mem ht
    simp [Piece.chunks, hr, this]
  have hmodule : t.chunk.symbol.module = (link module files imports).module.name := by
    obtain ⟨number, hbuilt⟩ := hsound.built.mem ht
    cases hbuilt with
    | node _ hsymbol _ _ =>
      exact (congrArg Symbol.module hsymbol).trans
        (collects_declarations.named.trans link_name.symm)
  exact h.chunk? (hsub (Linked.module_mem_modules _)) ⟨hmodule, isSome_of_mem_registered hmem⟩

theorem ready_of_start (h : p.Consistent) (hsub : (link module files imports).modules ⊆ p.modules)
    (hd : (link module files imports).module.diagnostics = [])
    (hc : startChunk? module files imports = some c) : Ready p c := by
  have hstart := mainChunk?_eq_some hc
  have hown : (link module files imports).module ∈ p.modules := hsub (Linked.module_mem_modules _)
  refine ready_of_holds hstart.wellFormed.depths (fun v hv => ?_) hstart.holds fun i hi => ?_
  · rw [hstart.constants] at hv
    exact absurd hv (Array.not_mem_empty v)
  · obtain ⟨op, operand⟩ := i
    cases op
    case callChunk =>
      obtain ⟨file, hfile, hs⟩ := hi
      exact ⟨_, hs, h.chunk? hown (owns_fileSymbol hd hfile)⟩
    case getModuleFunction =>
      obtain ⟨s, hmain, hs⟩ := hi
      exact ⟨s, hs, h.chunk? hown ((h.complete _ hown).function _ s (exports_main hmain))⟩
    case pushNone | defineLocal | defineCell | getLocal | setLocal | notEqual | pop | call | ret =>
      trivial
    all_goals exact hi.elim

theorem ready_of_link (h : p.Consistent) (hsub : (link module files imports).modules ⊆ p.modules)
    (hd : (link module files imports).module.diagnostics = [])
    (hc : IsBody module files imports c) :
    Ready p c := by
  rcases hc with hc | ⟨b, hb, r, hr, hc⟩
  · exact ready_of_start h hsub hd hc
  · exact ready_of_piece h hsub hb hr hc

end Link

theorem consistent_of_clean {l : Linked} (hl : Clean l) (hagree : Agree l.modules)
    (hp : p.modules = l.modules) : p.Consistent where
  agree := hp ▸ hagree
  complete m hm := by
    obtain ⟨k, hk, rfl, -⟩ := exists_of_mem_modules (fun _ => Clean.of_imports) hl (hp ▸ hm)
    exact hk.complete
  standard := hp ▸ hl.standard_mem

theorem ready_of_clean {l : Linked} (hl : Clean l) (h : p.Consistent) (hp : p.modules = l.modules)
    (hc : l.Keeps c) : Ready p c := by
  obtain ⟨m, hm, s, hc⟩ := hc.exists_module
  obtain ⟨k, hk, rfl, hsub⟩ := exists_of_mem_modules (fun _ => Clean.of_imports) hl hm
  cases hk with
  | standard => rcases hc with hc | hc | hc <;> cases hc
  | link _ hd _ => exact ready_of_link h (hp ▸ hsub) hd (isBody_of_module hc)

/-- A module that was compiled without problems, like all modules in its graph of imports, gives a
program, provided that modules of the same name are the same. In all chunks of the program every
symbol leads from there to what its instruction looks for, and no run fails for want of it. -/
theorem closed_runs_resolve {module : String} {files : List SourceFile} {imports : List Linked}
    {limits : Limits} (hname : module ≠ Symbol.standardModule)
    (hd : (link module files imports).module.diagnostics = []) (himports : ∀ i ∈ imports, Clean i)
    (hagree : Agree (link module files imports).modules) :
    ∃ p, Program.ofLinked? (link module files imports) limits = some p ∧
      (∀ c, (link module files imports).Keeps c →
        ∀ o i, (o, i) ∈ c.instructions → Resolves p c i) ∧
      (∀ s heights, Reaches p s heights →
        ∀ cause s', step p s = .error (.trap cause) s' → ¬ cause.Unresolved) ∧
      ∀ heap closures, Left p heap closures → ∀ fuel t,
        (run p heap closures fuel).1 = .trap t → ¬ t.cause.Unresolved := by
  have hclean : Clean (link module files imports) := .link hname hd himports
  obtain ⟨-, main, hmain⟩ := compiles_of_diagnostics hd
  obtain ⟨p, hp, -⟩ := Program.exists_ofLinked? (link_main.trans hmain) hd limits
  have hmodules := (Program.ofLinked?_eq_some hp).2.2
  have hready : ∀ c, (link module files imports).Keeps c → Ready p c := fun c hc =>
    ready_of_clean hclean (consistent_of_clean hclean hagree hmodules) hmodules hc
  have hgood : p.Good True := good_of_keeps hp fun c hc => (hready c hc).runnable
  refine ⟨p, hp, fun c hc => (hready c hc).resolves, fun s heights h cause s' hs => ?_,
    fun heap closures hl fuel t ht => ?_⟩
  · have hm := (h.invariant hgood).step hgood
    rw [hs] at hm
    exact hm.1.2 trivial
  · exact (((invariant_start hgood (hl.good hgood) closures).runFrom hgood fuel).2 t ht).2 trivial

/-! ## A module that uses two others -/

def sizesFile : SourceFile :=
  let loc := Location.synthesized
  let three : Expr := ⟨.literal (.int 3), .int, loc⟩
  let size : Expr := ⟨.var "size", .int, loc⟩
  { path := "sizes.pl"
    stmts := [⟨.bind "size" false .int (some three), loc⟩,
      ⟨.func ⟨some "current", [], .int, [⟨.ret (some size), loc⟩], loc⟩, loc⟩] }

/-- A file that calls this function, and a method of the standard module. -/
def searchingFile : SourceFile :=
  let loc := Location.synthesized
  let size : Expr := ⟨.call ⟨.var "current", .function [] .int, loc⟩ [], .int, loc⟩
  let list : Expr := ⟨.array [size], .array .int, loc⟩
  let contains : Expr := ⟨.member list "contains", .function [.int] .bool, loc⟩
  let search : Expr := ⟨.call contains [⟨none, size⟩], .bool, loc⟩
  { path := "main.pl"
    stmts := [⟨.func ⟨some "main", [], .bool, [⟨.ret (some search), loc⟩], loc⟩, loc⟩] }

def sizes : Linked := link "Sizes" [sizesFile] []

def searching : Linked := link "Main" [searchingFile] [sizes]

theorem agree_sizes (file : SourceFile) : Agree (link "Main" [file] [sizes]).modules := by
  have hmodules : (link "Main" [file] [sizes]).modules =
      [(link "Main" [file] [sizes]).module, Standard.module, sizes.module, Standard.module] := rfl
  have hnamed : ∀ m ∈ (link "Main" [file] [sizes]).modules,
      m.name = "Main" ∧ m = (link "Main" [file] [sizes]).module ∨
      m.name = "Standard" ∧ m = Standard.module ∨ m.name = "Sizes" ∧ m = sizes.module := by
    intro m hm
    simp only [hmodules, List.mem_cons, List.not_mem_nil, or_false] at hm
    rcases hm with rfl | rfl | rfl | rfl
    · exact .inl ⟨link_name, rfl⟩
    · exact .inr (.inl ⟨rfl, rfl⟩)
    · exact .inr (.inr ⟨link_name, rfl⟩)
    · exact .inr (.inl ⟨rfl, rfl⟩)
  intro m hm m' hm' h
  grind

theorem agree_searching : Agree searching.modules := agree_sizes searchingFile

theorem closed_runs_resolve_searching :
    sizes.module.diagnostics = [] ∧ searching.module.diagnostics = [] ∧ Agree searching.modules ∧
      ∃ p, Program.ofLinked? searching {} = some p ∧ ∀ fuel t,
        (run p p.heap 0 fuel).1 = .trap t → ¬ t.cause.Unresolved := by
  have hsizes : sizes.module.diagnostics = [] := List.isEmpty_iff.mp (by decide +kernel)
  have hsearching : searching.module.diagnostics = [] := List.isEmpty_iff.mp (by decide +kernel)
  have himports : ∀ i ∈ [sizes], Clean i := by
    intro i hi
    rw [List.mem_singleton.mp hi]
    exact .link (by decide) hsizes (fun _ h => nomatch h)
  obtain ⟨p, hp, -, -, hrun⟩ := @closed_runs_resolve "Main" [searchingFile] [sizes] {} (by decide)
    hsearching himports agree_searching
  exact ⟨hsizes, hsearching, agree_searching, p, hp, hrun p.heap 0 .first⟩

end Machine

end StackCode
