import Mathlib.Data.List.Pairwise
import StackCode.Proofs.FileCalls
import StackCode.Proofs.Methods

/-! # Runs of the files of a module

The calls of the main chunk are those of the chunks that were compiled from the files, and of the
main function. The symbols of the files and of the main chunk are set apart from those of all other
bodies, so nothing else enters them.
-/

namespace StackCode.Linking

open Lowering

def reserved (module : String) (files : List SourceFile) : List Symbol :=
  mainSymbol module :: files.map (fileSymbol module ·.path)

def mainDecl? (module : String) (files : List SourceFile) : Option (String × FuncDecl) :=
  (TopLevel.last? module (TopLevel.ofFiles files) "main").bind fun t =>
    match t.stmt.kind with
    | .func decl => if decl.params.isEmpty then some (t.path, decl) else none
    | _ => none

def IsFile (module : String) (files : List SourceFile) (imports : List Linked) (file : SourceFile)
    (c : Chunk Value) : Prop :=
  ∃ r, Compiled.ofFile (declarations module files imports).space file.path
    (fileSymbol module file.path) file.stmts = .ok r ∧ r.chunk = c

def IsMain (module : String) (files : List SourceFile) (imports : List Linked) (c : Chunk Value) :
    Prop :=
  ∃ path decl r, mainDecl? module files = some (path, decl) ∧
    Compiled.ofFunction (declarations module files imports).space path
      (.function module "main" []) decl = .ok r ∧ r.chunk = c

/-- No two bodies of the module share the symbol of a file or of the main chunk. -/
def Reserves (module : String) (files : List SourceFile) (imports : List Linked) : Prop :=
  (registered module files imports).Pairwise fun c d =>
    c.symbol = d.symbol → c.symbol ∉ reserved module files

variable {module : String} {files : List SourceFile} {imports : List Linked}
  {literals : Piece → List Nest}

theorem Reserves.eq (h : Reserves module files imports)
    (hl : AreLiterals module files imports literals) {x y : Registration}
    (hx : x ∈ registrations module files imports literals)
    (hy : y ∈ registrations module files imports literals) (hs : x.2.symbol = y.2.symbol)
    (hr : x.2.symbol ∈ reserved module files) : x = y := by
  rw [Reserves, ← registrations_chunks hl, List.pairwise_map] at h
  have hsymm : Std.Symm fun x y : Registration =>
      x.2.symbol = y.2.symbol → x.2.symbol ∉ reserved module files :=
    ⟨fun a b hab hba => hba ▸ hab hba.symm⟩
  by_contra hne
  exact h.forall hx hy hne hs hr

/-- The registration of a body, under the symbol that is made from its origin. -/
theorem exists_registration (hd : (link module files imports).module.diagnostics = [])
    (literals : Piece → List Nest) {b : Piece} (hb : b ∈ pieces module files imports) {o : Origin}
    (ho : b.origin? = some o) : ∃ r, b.compile (declarations module files imports).space = .ok r ∧
      (o, r.chunk) ∈ registrations module files imports literals ∧
      r.chunk.symbol = o.symbol module := by
  obtain ⟨r, hr⟩ := (compiles_of_diagnostics hd).1 b hb
  obtain ⟨symbol, _, hsymbol, hof⟩ := Source.compile_eq_ok hr
  have hs := (Piece.symbol?_of_mem_ofFiles collects_declarations hb ho).1
  cases hs.symm.trans hsymbol
  refine ⟨r, hr, List.mem_append_left _ (List.mem_flatMap.mpr ⟨b, hb, ?_⟩), hof.symbol⟩
  rw [Piece.registrations_eq_ok hr, ho]
  exact List.mem_append_right _ List.mem_cons_self

section Compiled

variable (hd : (link module files imports).module.diagnostics = [])

include hd

/-- A file is found under its symbol. -/
theorem Reserves.file (h : Reserves module files imports) {file : SourceFile} (hf : file ∈ files) :
    ∃ c, (link module files imports).module.chunks.get? (fileSymbol module file.path) = some c ∧
      IsFile module files imports file c := by
  obtain ⟨literals, hl⟩ := exists_areLiterals module files imports
  obtain ⟨r, hr, hmem, hsymbol⟩ := exists_registration hd literals (file_mem_pieces hf) rfl
  obtain ⟨c, hc⟩ := Option.isSome_iff_exists.mp (owns_fileSymbol hd hf).2
  refine ⟨c, hc, r, hr, ?_⟩
  rw [link_chunks_get?, ← registrations_chunks hl] at hc
  obtain ⟨x, hx, rfl⟩ := List.mem_map.mp (List.mem_reverse.mp (List.mem_of_find?_eq_some hc))
  have hs := List.find?_some hc
  exact congrArg Prod.snd (h.eq hl hmem hx (hsymbol.trans (eq_of_beq hs).symm)
    (List.mem_cons_of_mem _ (List.mem_map.mpr ⟨file, hf, hsymbol.symm⟩)))

/-- No function is exported under the symbol of a file or of the main chunk. -/
theorem Reserves.export (h : Reserves module files imports) {name : String} {s : Symbol}
    (he : (link module files imports).module.exports.get? name = some (.function s)) :
    s ∉ reserved module files := by
  obtain ⟨literals, hl⟩ := exists_areLiterals module files imports
  obtain ⟨t, decl, -, -, rfl, hb⟩ := function_mem_pieces he
  obtain ⟨r, -, hmem, hsymbol⟩ := exists_registration hd literals hb rfl
  intro hs
  rcases List.mem_cons.mp hs with hmain | hfile
  · obtain ⟨c, hc⟩ := (compiles_of_diagnostics hd).2
    have hstart : (Origin.main, c) ∈ registrations module files imports literals :=
      List.mem_append_right _ (by simp [hc])
    cases h.eq hl hmem hstart (hsymbol.trans (hmain.trans (mainChunk?_eq_some hc).symbol.symm))
      (hsymbol ▸ hs)
  · obtain ⟨file, hf, hfile⟩ := List.mem_map.mp hfile
    obtain ⟨r', -, hmem', hsymbol'⟩ := exists_registration hd literals
      (file_mem_pieces hf) rfl
    cases h.eq hl hmem hmem' (hsymbol.trans (hfile.symm.trans hsymbol'.symm)) (hsymbol ▸ hs)

omit hd in
theorem main_not_clashes (o : Origin) : ¬ (Origin.function "main" []).Clashes o := by
  cases o with
  | literal name number params =>
    rintro ⟨h, -⟩
    have := congrArg (fun s => '#' ∈ s.toList) h
    simp at this
  | file path =>
    rintro ⟨h, -⟩
    have := congrArg String.toList h
    simp at this
  | main =>
    rintro ⟨h, -⟩
    exact absurd h (by decide)
  | _ => exact id

omit hd in
/-- The main function is the last declaration of its name. -/
theorem userMain?_eq : userMain? (declarations module files imports).space =
    (mainDecl? module files).map fun _ => .function module "main" [] := by
  rw [userMain?, collects_declarations.globals, TopLevel.global?, mainDecl?]
  cases ht : TopLevel.last? module (TopLevel.ofFiles files) "main" with
  | none => rfl
  | some t =>
    obtain ⟨-, g, hg⟩ := TopLevel.last?_spec ht
    simp only [Option.bind_some, hg, Option.map_some]
    rcases TopLevel.declared?_cases hg with
      ⟨decl, hk, -, rfl⟩ | ⟨_, _, _, -, rfl⟩ | ⟨_, -, -, rfl⟩ | ⟨_, rfl⟩
    · simp only [hk, Symbol.function, FuncDecl.paramTypes]
      cases decl.params <;> rfl
    all_goals
      cases hk : t.stmt.kind with
      | func decl => simp [TopLevel.declared?, hk] at hg
      | _ => rfl

/-- The main function is found under its symbol. -/
theorem get?_main {path : String} {decl : FuncDecl}
    (h : mainDecl? module files = some (path, decl)) :
    ∃ c, (link module files imports).module.chunks.get? (.function module "main" []) = some c ∧
      IsMain module files imports c := by
  obtain ⟨literals, hl⟩ := exists_areLiterals module files imports
  obtain ⟨t, decl', ht, hk, -, hb⟩ := function_mem_pieces
    (@exports_main module files imports (.function module "main" []) (by rw [userMain?_eq, h]; rfl))
  have hmain : (t.path, decl') = (path, decl) := by
    simp only [mainDecl?, ht, Option.bind_some, hk] at h
    split at h
    · exact Option.some.inj h
    · cases h
  cases hmain
  obtain ⟨r, hr, hmem, hsymbol⟩ := exists_registration hd literals hb rfl
  refine ⟨r.chunk, ?_, _, _, r, h, hr, rfl⟩
  obtain ⟨before, after, he⟩ := List.append_of_mem hmem
  obtain ⟨c, hc, ⟨-, rfl⟩ | ⟨between, y, rest, -, hclash, -, -⟩⟩ := chunks_get?_registration hl he
  · rw [← hc, hsymbol]
    rfl
  · exact absurd hclash (main_not_clashes _)

end Compiled

end StackCode.Linking

namespace StackCode.Machine

open Linking Lowering

variable {module : String} {files : List SourceFile} {imports : List Linked} {limits : Limits}
  {p : Program} {fuel : Nat} {v : Value} {s : State}

/-- What is set apart is entered from the outermost frame only. -/
theorem Gives.enters_apart {R : Symbol → Prop} (hgood : p.Good False) (hb : p.Backed R)
    (hmain : R p.main.symbol) {es : List (Nat × Event)} (h : Gives p v s es) {d : Nat}
    {c : Chunk Value} (he : (d, .enters c) ∈ es) (hc : R c.symbol) : d = 1 := by
  induction h with
  | ends => cases he
  | @goes s t heights es hs hstep rest ih =>
    rcases List.mem_append.mp he with he | he
    · obtain ⟨i, hi⟩ := decode?_of_step hstep
      have ht := ((Reaches.step hs hi hstep).backed hgood hb).2.inFront hmain
      rw [eventOf] at he
      split at he
      · cases List.mem_singleton.mp he
        have htop := t.bodies_top
        by_contra hne
        refine ht.called (t.callers.size - 2) _ ?_ hc
        rwa [show t.callers.size - 2 + 2 = t.callers.size by omega]
      · split at he <;> simp at he
    · exact ih he

theorem chunk?_of_link (hp : Program.ofLinked? (link module files imports) limits = some p)
    {s : Symbol} (hs : s.module = module) :
    p.chunk? s = (link module files imports).module.chunks.get? s := by
  have hmodules := (Program.ofLinked?_eq_some hp).2.2
  have hfind : p.find? s.module = some (link module files imports).module := by
    rw [Program.find?, hmodules, hs, link_eq]
    exact List.find?_cons_of_pos (beq_self_eq_true module)
  rw [Program.chunk?, hfind]
  rfl

section Run

variable (himports : ∀ i ∈ imports, FromFiles i)
  (hp : Program.ofLinked? (link module files imports) limits = some p)
  (hown : Reserves module files imports)

include himports hp hown

theorem calls_of_gives {heap : Heap} {closures : Nat} {es : List (Nat × Event)}
    (h : Gives p v (start p heap closures) es) :
    ∃ calls, List.Forall₂ (fun file call => IsFile module files imports file call.1) files calls ∧
      ((∃ c, IsMain module files imports c ∧ direct es = callEvents (calls ++ [(c, v)])) ∨
        mainDecl? module files = none ∧ direct es = callEvents calls ∧
          v = lastGiven (calls.map (·.2))) := by
  have hgood := good_of_fromFiles hp (.link himports)
  obtain ⟨hmain, hd, -⟩ := Program.ofLinked?_eq_some hp
  obtain ⟨indices, finish, head, hparts, hc⟩ := exists_parts (link_main.symm.trans hmain)
  have hinstalled : Installed (start p heap closures) false {} 0 (startCode indices finish) := by
    refine ⟨fun o i hi => ?_, hparts.fits, nofun⟩
    have hcode := (Code.laidOut_layout [] hparts.code (startCode indices finish)).holds o i hi
    rwa [← hc] at hcode
  have hsymbols : ∀ n, p.main.symbol? n = head.symbol? n := by
    intro n
    obtain ⟨lines, hlayout⟩ := Code.adds_layout [] (startCode indices finish) head
    rw [hc, hlayout]
    rfl
  have hfile : ∀ file ∈ files, ∃ c, p.chunk? (fileSymbol module file.path) = some c ∧
      IsFile module files imports file c := by
    intro file hf
    rw [chunk?_of_link hp rfl]
    exact hown.file hd hf
  obtain ⟨calls, es', hcalls, hes, hbefore⟩ := (before_start h hinstalled).files hgood
    (hparts.calls.imp fun n file hn => (hsymbols n).trans hn) hfile
  refine ⟨calls, hcalls, ?_⟩
  rw [hes]
  have hfinish := hparts.finishes
  rw [userMain?_eq] at hfinish
  cases hdecl : mainDecl? module files with
  | none =>
    rw [hdecl] at hfinish
    cases hfinish
    obtain ⟨rfl, rfl⟩ := hbefore.gives
    exact .inr ⟨rfl, List.append_nil _, rfl⟩
  | some found =>
    rw [hdecl] at hfinish
    obtain ⟨n, hn, rfl⟩ := hfinish
    obtain ⟨c, hc, hmain⟩ := get?_main hd hdecl
    rw [← chunk?_of_link hp rfl] at hc
    rw [hbefore.calls hgood ((hsymbols n).trans hn) hc]
    exact .inl ⟨c, hmain, List.flatMap_append.symm⟩

theorem setApart_reserved (hothers : ∀ i ∈ (link module files imports).imports,
    ∀ m ∈ i.modules, m.name ≠ module) :
    SetApart (link module files imports) (· ∈ reserved module files) := by
  have hd := (Program.ofLinked?_eq_some hp).2.1
  have hl : FromFiles (link module files imports) := .link himports
  have hsymbol : ∀ s ∈ reserved module files, ∃ text, s = .function module (text ++ ">") [] := by
    intro s hs
    rcases List.mem_cons.mp hs with rfl | hs
    · exact ⟨"<main", rfl⟩
    · obtain ⟨file, -, rfl⟩ := List.mem_map.mp hs
      exact ⟨"<file " ++ file.path, rfl⟩
  have hmodule : ∀ m ∈ (link module files imports).modules, m.name = module →
      m = (link module files imports).module := by
    intro m hm hname
    rcases Linked.mem_modules.mp hm with rfl | ⟨i, hi, hm⟩
    · rfl
    · exact absurd hname (hothers i hi m hm)
  refine ⟨fun s hs => ⟨module, hsymbol s hs⟩, fun m hm name s he hs => ?_, fun m hm path hs => ?_⟩
  · obtain ⟨text, hs'⟩ := hsymbol s hs
    have hname : s.module = m.name := by
      rcases hl.of_mem_modules hm with rfl | ⟨_, _, _, rfl, -⟩
      · exact (Standard.complete_module.function name s he).1
      · obtain ⟨_, _, -, -, rfl, -⟩ := function_mem_pieces he
        exact link_name.symm
    rw [hmodule m hm (hname.symm.trans (congrArg Symbol.module hs'))] at he
    exact hown.export hd he hs
  · obtain ⟨text, hs'⟩ := hsymbol _ hs
    rw [hmodule m hm (congrArg Symbol.module hs')]

end Run

/-- A module that was linked without problems can be run under all limits, and a run that gives a
value calls the chunks of the files from the main chunk, each of them once and in their order, and
then the main function if there is one. Its result is that of the main function, or else the last
result of a file that is not `none`. If no other module has the name of the module, the chunks of
the files are entered nowhere else, and neither is the main chunk. -/
theorem runs_call_files (limits : Limits) (hd : (link module files imports).module.diagnostics = [])
    (himports : ∀ i ∈ imports, FromFiles i) (hown : Reserves module files imports) :
    ∃ p, Program.ofLinked? (link module files imports) limits = some p ∧
      ∀ heap closures, Left p heap closures → ∀ fuel v, (run p heap closures fuel).1 = .value v →
        (∃ calls,
          List.Forall₂ (fun file call => IsFile module files imports file call.1) files calls ∧
          ((∃ c, IsMain module files imports c ∧
              direct (events p fuel (start p heap closures)) = callEvents (calls ++ [(c, v)])) ∨
            mainDecl? module files = none ∧
              direct (events p fuel (start p heap closures)) = callEvents calls ∧
              v = lastGiven (calls.map (·.2)))) ∧
        ((∀ i ∈ (link module files imports).imports, ∀ m ∈ i.modules, m.name ≠ module) →
          ∀ d c, (d, .enters c) ∈ events p fuel (start p heap closures) →
            c.symbol ∈ reserved module files → d = 1) := by
  obtain ⟨-, main, hmain⟩ := compiles_of_diagnostics hd
  obtain ⟨p, hp, -⟩ := Program.exists_ofLinked? (link_main.trans hmain) hd limits
  refine ⟨p, hp, fun heap closures hleft fuel v hrun => ?_⟩
  have hgives := gives_of_runFrom (.start hleft) hrun
  refine ⟨calls_of_gives himports hp hown hgives, fun hothers d c he hc => ?_⟩
  have hbacked := backed_of_fromFiles hp (.link himports)
    (setApart_reserved himports hp hown hothers)
  have hstart := mainChunk?_eq_some (link_main.symm.trans (Program.ofLinked?_eq_some hp).1)
  exact hgives.enters_apart (good_of_fromFiles hp (.link himports)) hbacked
    (hstart.symbol ▸ List.mem_cons_self) he hc

def Ending.isInt (n : Int64) : Ending → Bool
  | .value (.int m) => m == n
  | _ => false

theorem Ending.eq_int {n : Int64} {e : Ending} (h : e.isInt n = true) : e = .value (.int n) := by
  unfold Ending.isInt at h
  split at h
  · rw [eq_of_beq h]
  · cases h

def givingFile (path : String) (value : Option Int64) : SourceFile :=
  let loc := Location.synthesized
  { path, stmts := [⟨.ret (value.map fun n => ⟨.literal (.int n), .int, loc⟩), loc⟩] }

def mainFile (path : String) (value : Int64) : SourceFile :=
  let loc := Location.synthesized
  let body := (givingFile path (some value)).stmts
  { path, stmts := [⟨.func ⟨some "main", [], .int, body, loc⟩, loc⟩] }

/-- A run of the files gives the number, and calls the files and then the function, if any. -/
def GivesBy (files : List SourceFile) (n : Int64) (main : Option (Chunk Value)) : Prop :=
  ∃ p calls, Program.ofLinked? (link "main" files []) {} = some p ∧
    (run p p.heap 0 80).1 = .value (.int n) ∧
    List.Forall₂ (fun file call => IsFile "main" files [] file call.1) files calls ∧
    direct (events p 80 (start p p.heap 0)) = callEvents (calls ++ main.toList.map (·, .int n))

theorem runs_call_files_giving :
    let given := [givingFile "a.pl" (some 5), givingFile "b.pl" (some 7), givingFile "c.pl" none]
    let files := mainFile "m.pl" 9 :: given
    ((link "main" given []).module.diagnostics = [] ∧ Reserves "main" given [] ∧
      GivesBy given 7 none) ∧
    (link "main" files []).module.diagnostics = [] ∧ Reserves "main" files [] ∧
      ∃ c, IsMain "main" files [] c ∧ GivesBy files 9 (some c) := by
  intro given files
  have hgives : ∀ fs n, (link "main" fs []).module.diagnostics = [] → Reserves "main" fs [] →
      ((Program.ofLinked? (link "main" fs []) {}).map fun p =>
        (run p p.heap 0 80).1.isInt n) = some true →
      (∃ c, IsMain "main" fs [] c ∧ GivesBy fs n (some c)) ∨
        mainDecl? "main" fs = none ∧ GivesBy fs n none := by
    intro fs n hd hown hrun
    obtain ⟨p, hp, hruns⟩ := runs_call_files {} hd (fun i hi => absurd hi List.not_mem_nil) hown
    rw [hp] at hrun
    have hend := Ending.eq_int (Option.some.inj hrun)
    obtain ⟨⟨calls, hcalls, ⟨c, hc, hes⟩ | ⟨hnone, hes, -⟩⟩, -⟩ := hruns p.heap 0 .first 80 _ hend
    · exact .inl ⟨c, hc, p, calls, hp, hend, hcalls, hes⟩
    · exact .inr ⟨hnone, p, calls, hp, hend, hcalls, (List.append_nil calls).symm ▸ hes⟩
  have hgiven : (link "main" given []).module.diagnostics = [] ∧ Reserves "main" given [] :=
    ⟨List.isEmpty_iff.mp (by decide +kernel), by unfold Reserves; decide +kernel⟩
  have hfiles : (link "main" files []).module.diagnostics = [] ∧ Reserves "main" files [] :=
    ⟨List.isEmpty_iff.mp (by decide +kernel), by unfold Reserves; decide +kernel⟩
  rcases hgives given 7 hgiven.1 hgiven.2 (by decide +kernel) with
    ⟨_, ⟨_, _, _, hmain, -⟩, -⟩ | ⟨-, hplain⟩
  · cases hmain
  rcases hgives files 9 hfiles.1 hfiles.2 (by decide +kernel) with hmain | ⟨hnone, -⟩
  · exact ⟨⟨hgiven.1, hgiven.2, hplain⟩, hfiles.1, hfiles.2, hmain⟩
  · cases hnone

end StackCode.Machine
