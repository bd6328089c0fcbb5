import StackCode.Proofs.Overridden

/-! # The last declaration of a name counts

A module is the same, up to the lines of its chunks, whether or not its files hold declarations that
later ones override. Only an earlier declaration of what is a value in the end is seen: it reads the
value.
-/

namespace StackCode

def Chunk.unlined (c : Chunk Value) : Chunk Value := { c with lines := #[] }

namespace Code

/-- The codes differ at most in lines and empty parts. -/
structure Like (c c' : Code) : Prop where
  width : c.width = c'.width
  placed : ∀ cells t a, c.placed cells t a = c'.placed cells t a
  check : ∀ path start s, c.check path start s = c'.check path start s

namespace Like

variable {c c' d d' : Code}

theorem refl (c : Code) : Like c c := ⟨rfl, fun _ _ _ => rfl, fun _ _ _ => rfl⟩

theorem symm (h : Like c c') : Like c' c :=
  ⟨h.width.symm, fun _ _ _ => (h.placed _ _ _).symm, fun _ _ _ => (h.check _ _ _).symm⟩

theorem trans (h : Like c c') (h' : Like c' d) : Like c d :=
  ⟨h.width.trans h'.width, fun _ _ _ => (h.placed _ _ _).trans (h'.placed _ _ _),
    fun _ _ _ => (h.check _ _ _).trans (h'.check _ _ _)⟩

theorem append (h : Like c c') (h' : Like d d') : Like (c ++ d) (c' ++ d') where
  width := by
    change c.width + d.width = c'.width + d'.width
    rw [h.width, h'.width]
  placed cells t a := by
    change c.placed cells t a ++ d.placed cells t (a + c.width) =
      c'.placed cells t a ++ d'.placed cells t (a + c'.width)
    rw [h.placed, h.width, h'.placed]
  check path start s := by
    change d.check path start (c.check path start s) = d'.check path start (c'.check path start s)
    rw [h.check, h'.check]

theorem skip_append (c : Code) : Like (skip ++ c) c where
  width := Nat.zero_add _
  placed cells t a := by
    change [] ++ c.placed cells t (a + 0) = _
    rw [List.nil_append, Nat.add_zero]
  check _ _ _ := rfl

theorem append_skip (c : Code) : Like (c ++ skip) c where
  width := Nat.add_zero _
  placed _ _ _ := List.append_nil _
  check _ _ _ := rfl

theorem assoc (c d e : Code) : Like (c ++ d ++ e) (c ++ (d ++ e)) where
  width := Nat.add_assoc _ _ _
  placed cells t a := by
    change c.placed cells t a ++ d.placed cells t (a + c.width) ++
      e.placed cells t (a + (c.width + d.width)) = c.placed cells t a ++
        (d.placed cells t (a + c.width) ++ e.placed cells t (a + c.width + d.width))
    rw [List.append_assoc, Nat.add_assoc]
  check _ _ _ := rfl

theorem joinOnto (rest : Code) (parts : List Code) :
    Like (Code.joinOnto rest parts) (joinReversed parts ++ rest) := by
  induction parts generalizing rest with
  | nil => exact (skip_append rest).symm
  | cons p ps ih =>
    have hlast : Like (joinReversed ps ++ p) (joinReversed (p :: ps)) :=
      ((refl _).append (append_skip p).symm).trans (ih (p ++ skip)).symm
    exact (ih (p ++ rest)).trans ((assoc _ p rest).symm.trans (hlast.append (refl rest)))

theorem joinReversed_cons (c : Code) (parts : List Code) :
    Like (joinReversed (c :: parts)) (joinReversed parts ++ c) :=
  (joinOnto (c ++ skip) parts).trans ((refl _).append (append_skip c))

theorem cons {parts parts' : List Code} (hp : Like (joinReversed parts) (joinReversed parts'))
    (hc : Like c c') : Like (joinReversed (c :: parts)) (joinReversed (c' :: parts')) :=
  (joinReversed_cons c parts).trans ((hp.append hc).trans (joinReversed_cons c' parts').symm)

theorem cons_skip {parts parts' : List Code}
    (hp : Like (joinReversed parts) (joinReversed parts')) :
    Like (joinReversed (skip :: parts)) (joinReversed parts') :=
  (joinReversed_cons skip parts).trans ((append_skip _).trans hp)

theorem problems (h : Like c c') (path : String) : c.problems path = c'.problems path := by
  rw [Code.problems, Code.problems, h.check]

theorem unlined_layout (h : Like c c') (cells : List UInt8) (head : Chunk Value) :
    (c.layout cells head).unlined = (c'.layout cells head).unlined := by
  obtain ⟨lines, hl⟩ := adds_layout cells c head
  obtain ⟨lines', hl'⟩ := adds_layout cells c' head
  rw [hl, hl', h.placed]
  rfl

end Like

end Code

namespace Lowering

structure AtTop (ctx : Context) (s : State) : Prop where
  stands : ∃ p, Stands ⟨False, ctx⟩ s p
  atFile : AtFile s
  scope : s.body.scope = []

namespace AtTop

variable {ctx : Context} {s : State}

theorem start (ctx : Context) (path : String) (symbol : Symbol) :
    AtTop ctx { body := Body.empty .file path symbol path } where
  stands := by
    have ho : Opened ⟨False, ctx⟩ { body := Body.empty .file path symbol path } _ _ [] :=
      opened_empty rfl rfl trivial
    exact ⟨_, ho.toStands⟩
  atFile := rfl
  scope := rfl

theorem next (h : AtTop ctx s) {st : Stmt} (hr : ¬ (stmt st ctx s).1.Refused) :
    AtTop ctx (stmt st ctx s).2 := by
  obtain ⟨p, hs⟩ := h.stands
  rcases stmt_keeps (v := ⟨False, ctx⟩) False.elim st False.elim ⟨True, s.body.inLoop, false⟩
    s p rfl
    (fun _ => h.atFile) hs with href | ⟨literals, he, -, -, hscope, -⟩
  · exact absurd href hr
  · exact ⟨⟨_, he.stands⟩, he.atFile h.atFile, (hscope trivial).trans h.scope⟩

/-- No name is bound at the top of a file. -/
theorem storage? (h : AtTop ctx s) (name : String) (loc : Location) :
    storage? name loc ctx s = ((.skip, none), s) := by
  have henclosing : s.enclosing = [] := by
    have hfile := h.atFile
    simp only [AtFile, Bool.and_eq_true, List.isEmpty_iff] at hfile
    exact hfile.1.1
  have hslot : s.body.slot? name = none := by
    simp [Body.slot?, h.scope]
  have hcaptures : s.body.chunk.captures = #[] := by
    refine Array.eq_empty_iff_forall_not_mem.mpr fun x hx => ?_
    obtain ⟨p, hs⟩ := h.stands
    obtain ⟨o, ho, -⟩ := hs.placed.1.offers x hx
    rw [henclosing] at ho
    cases ho
  have hcapture : s.body.capture? name = none := by
    simp [Body.capture?, hcaptures]
  have hfound : s.body.findCapture name s.enclosing = (.unbound, s.body, s.enclosing) := by
    rw [henclosing, Body.findCapture, hcapture]
  rw [storage?_run, hslot]
  simp only [hfound]

theorem atFileScope_run (h : AtTop ctx s) : atFileScope ctx s = (true, s) :=
  Prod.ext h.atFile rfl

theorem stmt_read (h : AtTop ctx s) {name : String} {symbol : Symbol}
    (hr : ctx.space.resolve? name = some (.value symbol)) (ty : Ty) (loc : Location) :
    stmt ⟨.expr ⟨.var name, ty, loc⟩, loc⟩ ctx s =
      (.skip ++ (refer symbol loc (⟨.getModuleValue, ·⟩) ctx s).1 ++ .instr loc.line ⟨.pop, ()⟩,
        (refer symbol loc (⟨.getModuleValue, ·⟩) ctx s).2) := by
  have hload : load name loc ctx s = (.skip ++ (refer symbol loc (⟨.getModuleValue, ·⟩) ctx s).1,
      (refer symbol loc (⟨.getModuleValue, ·⟩) ctx s).2) := by
    rw [load, bind_run, h.storage? name loc]
    dsimp only
    rw [bind_run, read_run, hr]
    rfl
  rw [stmt, stmtKind, bind_run, expr, exprKind, hload]
  rfl

/-- A declaration at the top of a file reads the value of its name, if the name has one. -/
theorem stmt_bind (h : AtTop ctx s) (name : String) (mutable : Bool) (ty : Ty)
    (value : Option Expr) (loc : Location) :
    stmt ⟨.bind name mutable ty value, loc⟩ ctx s =
      if ctx.space.resolve? name = some (.value (.value ctx.space.module name)) then
        ((refer (.value ctx.space.module name) loc (⟨.getModuleValue, ·⟩) ctx s).1 ++
            .instr loc.line ⟨.pop, ()⟩,
          (refer (.value ctx.space.module name) loc (⟨.getModuleValue, ·⟩) ctx s).2)
      else (.skip, s) := by
  rw [stmt, stmtKind, bind_run, h.atFileScope_run, if_pos rfl, force, bind_run, read_run]
  dsimp only
  split
  · rename_i hr
    rw [if_pos (eq_of_beq hr)]
    rfl
  · rename_i hr
    rw [if_neg (by simpa using hr)]
    rfl

end AtTop

theorem mem_stmts {c : Code} {codes : List Code} (h : c ∈ codes) (ss : List Stmt) (ctx : Context)
    (s : State) : c ∈ (stmts codes ss ctx s).1 := by
  induction ss generalizing codes s with
  | nil =>
    rw [stmts]
    exact h
  | cons st ss ih =>
    rw [stmts]
    exact ih (List.mem_cons_of_mem _ h) _

def fileRun (space : Space) (path : String) (symbol : Symbol) (body : List Stmt) : Code × State :=
  let run := stmts [] body ⟨space, path⟩ { body := Body.empty .file path symbol path }
  (Code.joinReversed run.1 ++ fallOff body 0, run.2)

theorem ofFile_eq_ok {space : Space} {path : String} {symbol : Symbol} {body : List Stmt}
    {r : Compiled} : Compiled.ofFile space path symbol body = .ok r ↔
      (fileRun space path symbol body).1.problems
        (fileRun space path symbol body).2.body.chunk.path = [] ∧
      r = ⟨(fileRun space path symbol body).1.layout (fileRun space path symbol body).2.body.cells
        (fileRun space path symbol body).2.body.chunk,
        (fileRun space path symbol body).2.finished.toList⟩ := by
  have hrun : Compiled.ofFile space path symbol body =
      ((fileRun space path symbol body).2.body.finish (fileRun space path symbol body).1).map
        (⟨·, (fileRun space path symbol body).2.finished.toList⟩) := rfl
  rw [hrun, Body.finish]
  generalize fileRun space path symbol body = run
  cases run.1.problems run.2.body.chunk.path with
  | nil => simp [Except.map, eq_comm]
  | cons p ps => simp [Except.map]

end Lowering

namespace Linking

open Lowering

open TopLevel (ofFiles effective? Effect last? last?_spec declares_eq_true)

section Files

variable {module : String} {files : List SourceFile} {imports : List Linked} {s : State}
  {t : TopLevel}

theorem resolve?_eq_global? (ht : t ∈ ofFiles files) {name : String} {g : Global}
    (hd : t.declared? module = some (name, g)) :
    (declarations module files imports).space.resolve? name =
      TopLevel.global? module (ofFiles files) name := by
  obtain ⟨u, hu⟩ : ∃ u, last? module (ofFiles files) name = some u :=
    Option.isSome_iff_exists.mp (List.find?_isSome.mpr
      ⟨t, List.mem_reverse.mpr ht, declares_eq_true.mpr ⟨g, hd⟩⟩)
  obtain ⟨-, g', hg'⟩ := last?_spec hu
  have hglobal : TopLevel.global? module (ofFiles files) name = some g' := by
    rw [TopLevel.global?, hu, Option.bind_some, hg']
    rfl
  rw [Space.resolve?, collects_declarations.globals, hglobal]

variable {ctx : Context} (hctx : ctx.space = (declarations module files imports).space)
include hctx

theorem stmt_dropped (hs : AtTop ctx s) (ht : t ∈ ofFiles files)
    (he : Effect module (ofFiles files) t none) : stmt t.stmt ctx s = (.skip, s) := by
  cases he with
  | @dropped declaredName g hd hl hg =>
    have hresolve : (declarations module files imports).space.resolve? declaredName =
        TopLevel.global? module (ofFiles files) declaredName := resolve?_eq_global? ht hd
    obtain ⟨path, place, kind, loc⟩ := t
    cases kind with
    | bind name mutable ty value =>
      cases hd
      rw [hs.stmt_bind, if_neg]
      rw [hctx, hresolve, collects_declarations.named]
      exact hg _ _ _ _ rfl
    | func decl =>
      rw [stmt, stmtKind, bind_run, hs.atFileScope_run]
      rfl
    | struct decl | enum decl =>
      rw [stmt, stmtKind, declaration, bind_run, hs.atFileScope_run]
      rfl
    | _ => cases hd

theorem stmt_effective (hs : AtTop ctx s) (ht : t ∈ ofFiles files) {st : Stmt}
    (he : Effect module (ofFiles files) t (some st)) :
    (stmt t.stmt ctx s).1.Like (stmt st ctx s).1 ∧ (stmt t.stmt ctx s).2 = (stmt st ctx s).2 := by
  cases he with
  | plain => exact ⟨.refl _, rfl⟩
  | last => exact ⟨.refl _, rfl⟩
  | @read name mutable ty value hk _ hg =>
    obtain ⟨path, place, kind, loc⟩ := t
    cases hk
    have hresolve : ctx.space.resolve? name = some (.value (.value ctx.space.module name)) := by
      rw [hctx, collects_declarations.named]
      exact (resolve?_eq_global? ht rfl).trans hg
    rw [hs.stmt_bind, if_pos hresolve, hs.stmt_read hresolve]
    exact ⟨(Code.Like.skip_append _).symm.append (.refl _), rfl⟩

/-- The statements that take effect have the same code as all statements. -/
theorem stmts_effective {l : List TopLevel} (hl : ∀ t ∈ l, t ∈ ofFiles files)
    (hs : AtTop ctx s) {codes codes' : List Code}
    (hcodes : (Code.joinReversed codes).Like (Code.joinReversed codes'))
    (hr : ∀ c ∈ (stmts codes (l.map (·.stmt)) ctx s).1, ¬ c.Refused) :
    (Code.joinReversed (stmts codes (l.map (·.stmt)) ctx s).1).Like (Code.joinReversed
      (stmts codes' (l.filterMap (effective? module (ofFiles files))) ctx s).1) ∧
    (stmts codes (l.map (·.stmt)) ctx s).2 =
      (stmts codes' (l.filterMap (effective? module (ofFiles files))) ctx s).2 := by
  induction l generalizing codes codes' s with
  | nil =>
    rw [List.map_nil, List.filterMap_nil, stmts, stmts]
    exact ⟨hcodes, rfl⟩
  | cons t l ih =>
    have ht := hl t List.mem_cons_self
    have hl := fun u hu => hl u (List.mem_cons_of_mem t hu)
    rw [List.map_cons, stmts, bind_run] at hr ⊢
    have hnext : AtTop ctx (stmt t.stmt ctx s).2 :=
      hs.next (hr _ (mem_stmts List.mem_cons_self _ _ _))
    have heffect := TopLevel.effect_effective? module (ofFiles files) t
    cases he : effective? module (ofFiles files) t with
    | none =>
      rw [he] at heffect
      rw [stmt_dropped hctx hs ht heffect] at hr ⊢
      rw [List.filterMap_cons_none he]
      exact ih hl hs hcodes.cons_skip hr
    | some st =>
      rw [he] at heffect
      obtain ⟨hlike, hstate⟩ := stmt_effective hctx hs ht heffect
      rw [List.filterMap_cons_some he, stmts, bind_run, ← hstate]
      exact ih hl hnext (hcodes.cons hlike) hr

omit hctx

theorem fallOff_like (ss ss' : List Stmt) (line : UInt32) :
    (fallOff ss line).Like (fallOff ss' line) where
  width := rfl
  placed _ _ _ := rfl
  check _ _ _ := rfl

theorem map_stmt_ofFile (file : SourceFile × Nat) :
    (TopLevel.ofFile file).map (·.stmt) = file.1.stmts := by
  rw [TopLevel.ofFile, List.map_map]
  exact List.zipIdx_map_fst 0 file.1.stmts

theorem ofFile_effective {file : SourceFile × Nat} (hf : file ∈ files.zipIdx) {path : String}
    {symbol : Symbol} {r : Compiled}
    (h : Compiled.ofFile (declarations module files imports).space path symbol file.1.stmts =
      .ok r) :
    ∃ r', Compiled.ofFile (declarations module files imports).space path symbol
        ((TopLevel.ofFile file).filterMap (effective? module (ofFiles files))) = .ok r' ∧
      r'.chunk.unlined = r.chunk.unlined ∧ r'.nested = r.nested := by
  obtain ⟨hp, rfl⟩ := ofFile_eq_ok.mp h
  have hstart : AtTop (Context.mk (declarations module files imports).space path)
      { body := Body.empty .file path symbol path } := .start _ path symbol
  have hmem : ∀ t ∈ TopLevel.ofFile file, t ∈ ofFiles files :=
    fun t ht => List.mem_flatMap.mpr ⟨file, hf, ht⟩
  have hstmts := stmts_effective rfl hmem hstart (.refl (Code.joinReversed []))
  rw [map_stmt_ofFile] at hstmts
  obtain ⟨hlike, hstate⟩ := hstmts fun c hc hr => by
    refine (Code.fits_of_problems_eq_nil hp).not_refused (.inl ?_)
    exact Code.refused_joinReversed.mpr ⟨c, hc, hr⟩
  have hcode := hlike.append (fallOff_like file.1.stmts
    ((TopLevel.ofFile file).filterMap (effective? module (ofFiles files))) 0)
  refine ⟨_, ofFile_eq_ok.mpr ⟨?_, rfl⟩, ?_, ?_⟩
  · rw [fileRun, ← hstate, ← hcode.problems]
    exact hp
  · rw [fileRun, ← hstate]
    exact (hcode.unlined_layout _ _).symm
  · rw [fileRun, ← hstate]
    rfl

end Files

section Module

variable {module : String} {files : List SourceFile} {imports : List Linked} {t : TopLevel}

/-! ## The bodies of a module -/

theorem ofTopLevel_eq_nil {name : String} {g : Global} (hd : t.declared? module = some (name, g))
    (hl : (last? module (ofFiles files) name).map (·.place) ≠ some t.place) :
    Piece.ofTopLevel (declarations module files imports) t = [] := by
  have hlast : (declarations module files imports).isLast name t.place = false := by
    rw [Declarations.isLast, collects_declarations.places]
    simpa using hl
  obtain ⟨path, place, kind, loc⟩ := t
  rw [TopLevel.declared?] at hd
  cases kind with
  | func decl =>
    obtain ⟨_, hn, he⟩ := Option.map_eq_some_iff.mp hd
    cases he
    simp only [Piece.ofTopLevel, hn, hlast]
    rfl
  | bind _ mutable ty value =>
    cases hd
    simp only [Piece.ofTopLevel, hlast]
    rfl
  | struct decl =>
    dsimp only at hd
    split at hd <;> cases hd
    simp only [Piece.ofTopLevel, hlast]
    rfl
  | _ => rfl

theorem ofTopLevel_effective (ht : t ∈ ofFiles files) :
    Piece.ofTopLevel (declarations module files imports) t =
      (effective? module (ofFiles files) t).toList.flatMap fun st =>
        Piece.ofSole (declarations module files imports).space ⟨t.path, ⟨0, 0⟩, st⟩ := by
  have hsole : ∀ h : ∀ name g, t.declared? module = some (name, g) →
      last? module (ofFiles files) name = some t,
      Piece.ofTopLevel (declarations module files imports) t =
        Piece.ofSole (declarations module files imports).space ⟨t.path, ⟨0, 0⟩, t.stmt⟩ :=
    ofTopLevel_eq_ofSole collects_declarations ht
  have heffect := TopLevel.effect_effective? module (ofFiles files) t
  generalize effective? module (ofFiles files) t = st at heffect ⊢
  cases heffect with
  | plain hd =>
    rw [hsole fun name g hg => by cases hd.symm.trans hg]
    simp
  | last hd hl =>
    obtain ⟨u, hu, hplace⟩ := Option.map_eq_some_iff.mp hl
    cases TopLevel.eq_of_place_eq (last?_spec hu).1 ht hplace
    rw [hsole fun name g hg => by cases hd.symm.trans hg; exact hu]
    simp
  | @read name mutable ty value hk hl hg =>
    have hd : t.declared? module = some (name, .value (.value module name)) := by
      rw [TopLevel.declared?, hk]
    rw [ofTopLevel_eq_nil hd hl]
    rfl
  | dropped hd hl hg =>
    rw [ofTopLevel_eq_nil hd hl]
    rfl

/-- The body of a file, with what takes effect of it. -/
def effectivePiece (module : String) (files : List SourceFile) (file : SourceFile × Nat) : Piece :=
  ⟨file.1.path, .file (fileSymbol module file.1.path)
    ((TopLevel.ofFile file).filterMap (effective? module (ofFiles files)))⟩

variable (hseen : (declarations module (effective module files) imports).space.Seen
  (declarations module files imports).space)
include hseen

theorem ofSole_effective (ht : t ∈ ofFiles files) {st : Stmt}
    (he : effective? module (ofFiles files) t = some st) :
    Piece.ofSole (declarations module (effective module files) imports).space
        ⟨t.path, ⟨0, 0⟩, st⟩ =
      Piece.ofSole (declarations module files imports).space ⟨t.path, ⟨0, 0⟩, st⟩ := by
  obtain ⟨kind, loc⟩ := st
  cases kind with
  | struct decl =>
    simp only [Piece.ofSole, hseen.module]
    split
    · rfl
    rename_i hp
    have hresolve : (declarations module files imports).space.resolve? decl.name = some (.struct
        (.struct (declarations module files imports).space.module decl.name)) := by
      rw [collects_declarations.named]
      have heffect := TopLevel.effect_effective? module (ofFiles files) t
      rw [he] at heffect
      obtain ⟨path, place, s⟩ := t
      cases heffect with
      | plain hd => cases hd.symm.trans (if_neg hp)
      | last hd hl =>
        cases hd.symm.trans (if_neg hp)
        obtain ⟨u, hu, hplace⟩ := Option.map_eq_some_iff.mp hl
        cases TopLevel.eq_of_place_eq (last?_spec hu).1 ht hplace
        rw [resolve?_eq_global? ht hd, TopLevel.global?, hu, Option.bind_some, hd]
        rfl
    rw [hseen.structType? hresolve]
  | _ => simp only [Piece.ofSole, hseen.module]

/-- The bodies of a module without overridden declarations are the same up to those of the files. -/
theorem pieces_effective : pieces module (effective module files) imports =
    files.zipIdx.flatMap fun file => effectivePiece module files file ::
      (TopLevel.ofFile file).flatMap (Piece.ofTopLevel (declarations module files imports)) := by
  have hfile : ∀ file ∈ files.zipIdx,
      Piece.ofSoleFile (declarations module (effective module files) imports).space
        { file.1 with stmts :=
          (TopLevel.ofFile file).filterMap (effective? module (ofFiles files)) } =
      effectivePiece module files file ::
        (TopLevel.ofFile file).flatMap (Piece.ofTopLevel (declarations module files imports)) := by
    intro file hf
    rw [Piece.ofSoleFile, collects_declarations.named, effectivePiece]
    congr 1
    dsimp only
    rw [List.filterMap_eq_flatMap_toList, List.flatMap_assoc]
    refine List.flatMap_congr fun t ht => ?_
    have hpath : t.path = file.1.path := by
      obtain ⟨x, -, rfl⟩ := List.mem_map.mp ht
      rfl
    have ht : t ∈ ofFiles files := List.mem_flatMap.mpr ⟨file, hf, ht⟩
    rw [ofTopLevel_effective ht, ← hpath]
    refine List.flatMap_congr fun st hst => ?_
    exact ofSole_effective hseen ht (Option.mem_toList.mp hst)
  have hfiles : ∀ f : SourceFile → List Piece, (effective module files).flatMap f =
      files.zipIdx.flatMap fun file => f { file.1 with
        stmts := (TopLevel.ofFile file).filterMap (effective? module (ofFiles files)) } := by
    intro f
    rw [effective, List.flatMap_map]
  rw [pieces_eq (TopLevel.distinct_effective module files), hfiles]
  exact List.flatMap_congr hfile

/-- What all bodies add is the same without overridden declarations, if it is for the files. -/
theorem flatMap_pieces_effective {β : Type} {f : Piece → List β}
    (hf : ∀ file ∈ files.zipIdx, f (effectivePiece module files file) =
      f ⟨file.1.path, .file (fileSymbol module file.1.path) file.1.stmts⟩) :
    (pieces module (effective module files) imports).flatMap f =
      (pieces module files imports).flatMap f := by
  rw [pieces_effective hseen, pieces, Piece.ofFiles, List.flatMap_assoc, List.flatMap_assoc]
  refine List.flatMap_congr fun file hfile => ?_
  rw [Piece.ofFile, collects_declarations.named, List.flatMap_cons, List.flatMap_cons,
    hf file hfile]

omit hseen

theorem compile_effectivePiece (h : (link module files imports).module.diagnostics = [])
    {file : SourceFile × Nat} (hf : file ∈ files.zipIdx) :
    ∃ r r', Piece.compile (declarations module files imports).space
        ⟨file.1.path, .file (fileSymbol module file.1.path) file.1.stmts⟩ = .ok r ∧
      (effectivePiece module files file).compile (declarations module files imports).space =
        .ok r' ∧
      r'.chunk.unlined = r.chunk.unlined ∧ r'.nested = r.nested := by
  have hmem : ⟨file.1.path, .file (fileSymbol module file.1.path) file.1.stmts⟩ ∈
      pieces module files imports := by
    refine List.mem_flatMap.mpr ⟨file, hf, ?_⟩
    rw [Piece.ofFile, collects_declarations.named]
    exact List.mem_cons_self
  obtain ⟨r, hr⟩ := (compiles_of_diagnostics h).1 _ hmem
  obtain ⟨r', hr', hchunk, hnested⟩ := ofFile_effective hf hr
  exact ⟨r, r', hr, hr', hchunk, hnested⟩

/-! ## The module -/

theorem map_path_effective (module : String) (files : List SourceFile) :
    (effective module files).map (·.path) = files.map (·.path) := by
  rw [effective, List.map_map]
  conv => rhs; rw [← List.zipIdx_map_fst 0 files]
  rw [List.map_map]
  rfl

theorem mainChunk?_congr {files' : List SourceFile} (h : files'.map (·.path) = files.map (·.path))
    (main : Option Symbol) : mainChunk? module files' main = mainChunk? module files main := by
  have hsymbols : files'.map (fileSymbol module ·.path) = files.map (fileSymbol module ·.path) := by
    have hmap := congrArg (List.map (fileSymbol module)) h
    rw [List.map_map, List.map_map] at hmap
    exact hmap
  rw [mainChunk?, mainChunk?, hsymbols]

theorem globals_effective (name : String) :
    (declarations module (effective module files) imports).space.globals.get? name =
      (declarations module files imports).space.globals.get? name := by
  rw [collects_declarations.globals, collects_declarations.globals, TopLevel.global?_effective]

theorem startChunk?_effective : startChunk? module (effective module files) imports =
    startChunk? module files imports := by
  rw [startChunk?, startChunk?, mainChunk?_congr (map_path_effective module files), userMain?,
    userMain?, globals_effective]

theorem nodup_effective : ((ofFiles (effective module files)).filterMap
    fun t => (t.declared? module).map Prod.fst).Nodup := by
  refine List.pairwise_filterMap.mpr ((TopLevel.distinct_effective module files).imp ?_)
  rintro t u hne name hn name' hn' rfl
  obtain ⟨⟨_, g⟩, ht, rfl⟩ := Option.map_eq_some_iff.mp hn
  obtain ⟨⟨_, g'⟩, hu, rfl⟩ := Option.map_eq_some_iff.mp hn'
  exact hne _ g g' ht hu

theorem refusals_effective (h : ∀ t ∈ ofFiles files, t.refusals = []) :
    (ofFiles (effective module files)).flatMap TopLevel.refusals = [] := by
  rw [TopLevel.flatMap_unplaced (fun _ => rfl), TopLevel.map_unplaced_effective,
    List.flatMap_eq_nil_iff]
  intro u hu
  obtain ⟨t, ht, hu⟩ := List.mem_filterMap.mp hu
  obtain ⟨st, hst, rfl⟩ := Option.map_eq_some_iff.mp hu
  have heffect := TopLevel.effect_effective? module (ofFiles files) t
  rw [hst] at heffect
  cases heffect with
  | plain => exact h t ht
  | last => exact h t ht
  | read => rfl

section Linked

variable (hseen : (declarations module (effective module files) imports).space.Seen
  (declarations module files imports).space)
  (hd : (link module files imports).module.diagnostics = [])
include hseen hd

theorem unlined_registered :
    (registered module (effective module files) imports).map Chunk.unlined =
    (registered module files imports).map Chunk.unlined := by
  have hfiles : ∀ file ∈ files.zipIdx,
      ((effectivePiece module files file).chunks (declarations module files imports).space).map
          Chunk.unlined =
        (Piece.chunks (declarations module files imports).space
          ⟨file.1.path, .file (fileSymbol module file.1.path) file.1.stmts⟩).map Chunk.unlined := by
    intro file hf
    obtain ⟨r, r', hr, hr', hchunk, hnested⟩ := compile_effectivePiece hd hf
    rw [Piece.chunks, Piece.chunks, hr, hr']
    simp [Piece.isValue, effectivePiece, hchunk, hnested]
  rw [registered, registered, startChunk?_effective, Piece.chunks_seen hseen, List.map_append,
    List.map_append, List.map_flatMap, List.map_flatMap, flatMap_pieces_effective hseen hfiles]

theorem diagnostics_effective :
    (link module (effective module files) imports).module.diagnostics = [] := by
  have hnil := link_diagnostics.symm.trans (List.perm_nil.mpr hd)
  simp only [List.perm_nil, List.append_eq_nil_iff, List.flatMap_eq_nil_iff] at hnil
  obtain ⟨⟨hrefused, hproblems⟩, hstart⟩ := hnil
  have hfiles : ∀ file ∈ files.zipIdx,
      (effectivePiece module files file).problems (declarations module files imports).space =
        Piece.problems (declarations module files imports).space
          ⟨file.1.path, .file (fileSymbol module file.1.path) file.1.stmts⟩ := by
    intro file hf
    obtain ⟨r, r', hr, hr', -, -⟩ := compile_effectivePiece hd hf
    rw [Piece.problems, Piece.problems, hr, hr']
  refine List.perm_nil.mp (link_diagnostics.trans (List.perm_nil.mpr ?_))
  rw [refusals_effective hrefused, startChunk?_effective, hstart, Piece.problems_seen hseen,
    flatMap_pieces_effective hseen hfiles, List.flatMap_eq_nil_iff.mpr hproblems]
  rfl

end Linked

/-- Declarations that are followed by another one of their name can be left out of a module that is
linked without problems. Where the name is a value in the end and the declaration is one of a value,
a read of the value takes its place. Then every name is declared once, and the module has the same
exports, the same start, the same initializers of values and, but for lines, the same chunks. -/
theorem link_effective (himports : ∀ i ∈ imports, FromFiles i)
    (hkeeps : KeepsCollections module files)
    (hd : (link module files imports).module.diagnostics = []) :
    ((ofFiles (effective module files)).filterMap
      fun t => (t.declared? module).map Prod.fst).Nodup ∧
    (link module (effective module files) imports).module.diagnostics = [] ∧
    (∀ name, (link module (effective module files) imports).module.exports.get? name =
      (link module files imports).module.exports.get? name) ∧
    (link module (effective module files) imports).module.main =
      (link module files imports).module.main ∧
    (∀ s, (link module (effective module files) imports).module.initializers.get? s =
      (link module files imports).module.initializers.get? s) ∧
    ∀ s, ((link module (effective module files) imports).module.chunks.get? s).map Chunk.unlined =
      ((link module files imports).module.chunks.get? s).map Chunk.unlined := by
  have hseen := seen_effective himports hkeeps
  refine ⟨nodup_effective, diagnostics_effective hseen hd, fun name => ?_, ?_, fun s => ?_,
    fun s => ?_⟩
  · rw [link_exports, link_exports, globals_effective]
  · rw [link_main, link_main, startChunk?_effective]
  · have hfiles : ∀ file ∈ files.zipIdx,
        (effectivePiece module files file).initializers (declarations module files imports).space =
          Piece.initializers (declarations module files imports).space
            ⟨file.1.path, .file (fileSymbol module file.1.path) file.1.stmts⟩ := by
      intro file hf
      rw [effectivePiece, initializers_file, initializers_file]
    rw [link_initializers_get?, link_initializers_get?, Piece.initializers_seen hseen,
      flatMap_pieces_effective hseen hfiles]
  · have hfind : ∀ cs : List (Chunk Value), (cs.reverse.find? (·.symbol == s)).map Chunk.unlined =
        (cs.map Chunk.unlined).reverse.find? (·.symbol == s) := by
      intro cs
      rw [← List.map_reverse, List.find?_map]
      rfl
    rw [link_chunks_get?, link_chunks_get?, hfind, hfind, unlined_registered hseen hd]

end Module

/-! ## A file that declares its names twice -/

/-- Declares a value twice, and a function where there was a struct. -/
def repeatingFile : SourceFile :=
  let loc := Location.synthesized
  let one : Expr := ⟨.literal (.int 1), .int, loc⟩
  let sum : Expr := ⟨.binary ⟨.var "n", .int, loc⟩ .add one, .int, loc⟩
  let call : Expr := ⟨.call ⟨.var "next", .none, loc⟩ [⟨none, one⟩], .int, loc⟩
  { path := "a.pl"
    stmts := [⟨.bind "x" false .int (some one), loc⟩,
      ⟨.struct ⟨"next", [], none, [], loc⟩, loc⟩,
      ⟨.bind "x" false .int (some call), loc⟩,
      ⟨.func ⟨some "next", [⟨"n", .int⟩], .int, [⟨.ret (some sum), loc⟩], loc⟩, loc⟩] }

-- Without its first two declarations the file has less code, since the first one reads the value.
theorem link_effective_repeatingFile :
    KeepsCollections "main" [repeatingFile] ∧
    (link "main" [repeatingFile] []).module.diagnostics = [] ∧
    (effective "main" [repeatingFile]).map (·.stmts.length) = [3] ∧
    ((link "main" (effective "main" [repeatingFile]) []).module.chunks.get?
      (fileSymbol "main" "a.pl")).map Chunk.unlined =
    ((link "main" [repeatingFile] []).module.chunks.get? (fileSymbol "main" "a.pl")).map
      Chunk.unlined ∧
    ((link "main" [{ repeatingFile with stmts := repeatingFile.stmts.drop 2 }]
      []).module.chunks.get? (fileSymbol "main" "a.pl")).map (·.code) ≠
    ((link "main" [repeatingFile] []).module.chunks.get? (fileSymbol "main" "a.pl")).map
      (·.code) := by
  have himports : ∀ i ∈ ([] : List Linked), FromFiles i := by simp
  have hkeeps : KeepsCollections "main" [repeatingFile] := fun h => absurd h (by decide)
  have hd : (link "main" [repeatingFile] []).module.diagnostics = [] := by decide +kernel
  obtain ⟨-, -, -, -, -, hchunks⟩ := link_effective himports hkeeps hd
  exact ⟨hkeeps, hd, by decide +kernel, hchunks _, by decide +kernel⟩

end Linking

end StackCode
