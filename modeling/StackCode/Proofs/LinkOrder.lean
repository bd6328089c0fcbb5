import StackCode.Proofs.Entry
import StackCode.Proofs.Lookups
import StackCode.Proofs.Registration

/-! # The order of files

The files of a module may be given in any order. Where no two declarations have the same name and no
two bodies the same symbol, every order gives the same names, descriptors and chunks and the same
problems. Only the chunk with which the module starts differs, since it runs the files in order.
-/

namespace StackCode

/-- Where at most one member of a list gives a result, the order does not matter. -/
theorem findSome?_perm {α β : Type} {g : α → Option β} {l l' : List α} (h : l.Perm l')
    (hg : l.Pairwise fun x y => g x = none ∨ g y = none) : l.findSome? g = l'.findSome? g := by
  induction h with
  | nil => rfl
  | cons x _ ih => rw [List.findSome?_cons, List.findSome?_cons, ih (List.pairwise_cons.mp hg).2]
  | swap x y l =>
    have hxy := (List.pairwise_cons.mp hg).1 x List.mem_cons_self
    simp only [List.findSome?_cons]
    rcases hxy with hn | hn
    · rw [hn]
    · rw [hn]
  | trans h₁ _ ih₁ ih₂ =>
    exact (ih₁ hg).trans (ih₂ (h₁.pairwise hg Or.symm))

namespace Table

variable {κ α β : Type} [BEq κ]

def insertAll (t : Table κ α) (entries : List (κ × α)) : Table κ α :=
  entries.foldl (fun t e => t.insert e.1 e.2) t

theorem insertAll_append (t : Table κ α) (es es' : List (κ × α)) :
    t.insertAll (es ++ es') = (t.insertAll es).insertAll es' := List.foldl_append

/-- The last block that has an entry for a key counts. -/
theorem get?_insertAll_flatMap [LawfulBEq κ] (f : β → List (κ × α)) (l : List β) (t : Table κ α)
    (k : κ) : (t.insertAll (l.flatMap f)).get? k =
      ((l.reverse.findSome? fun x => (f x).reverse.find? (·.1 == k)).map Prod.snd).or
        (t.get? k) := by
  rw [insertAll, get?_foldl_insert Prod.fst Prod.snd, List.reverse_flatMap, List.find?_flatMap]
  rfl

/-- Entries that come in blocks with keys of their own may be written block by block in any
order. -/
theorem get?_insertAll_perm [LawfulBEq κ] {f : β → List (κ × α)} {l l' : List β} (h : l.Perm l')
    (hf : l.Pairwise fun x y => ∀ e ∈ f x, ∀ e' ∈ f y, e.1 ≠ e'.1) (t : Table κ α) (k : κ) :
    (t.insertAll (l.flatMap f)).get? k = (t.insertAll (l'.flatMap f)).get? k := by
  have hperm : l.reverse.Perm l'.reverse :=
    l.reverse_perm.trans (h.trans l'.reverse_perm.symm)
  have hone : l.reverse.Pairwise fun x y => (f x).reverse.find? (·.1 == k) = none ∨
      (f y).reverse.find? (·.1 == k) = none := by
    refine List.pairwise_reverse.mpr (hf.imp fun {x y} hxy => ?_)
    by_cases hx : ∃ e ∈ f x, e.1 = k
    · obtain ⟨e, he, rfl⟩ := hx
      refine .inl (List.find?_eq_none.mpr fun e' he' heq => ?_)
      exact hxy e he e' (List.mem_reverse.mp he') (eq_of_beq heq).symm
    · refine .inr (List.find?_eq_none.mpr fun e he heq => hx ⟨e, List.mem_reverse.mp he, ?_⟩)
      exact eq_of_beq heq
  rw [get?_insertAll_flatMap, get?_insertAll_flatMap, findSome?_perm hperm hone]

end Table

namespace Linking

open Lowering

namespace TopLevel

variable (module : String)

/-! ## What a statement adds to the tables -/

def structs (t : TopLevel) : List (Symbol × StructType) :=
  match t.stmt.kind with
  | .struct decl =>
    if decl.properties.length > maxProperties then []
    else [(.struct module decl.name, .ofDecl module decl)]
  | _ => []

def enums (t : TopLevel) : List (Symbol × EnumType) :=
  match t.stmt.kind with
  | .enum decl =>
    if decl.cases.length > maxCases then []
    else if decl.cases.any (·.values.length > maxAssociated) then []
    else [(.enum module decl.name, .ofDecl module decl)]
  | _ => []

def memberParams (type : StructType) (decl : StructDecl) : List (Symbol × List String) :=
  type.initializer.toList.map (·, type.initParams) ++ decl.methods.filterMap fun method =>
    (method.name.bind type.method?).map (·, method.paramNames)

def params (t : TopLevel) : List (Symbol × List String) :=
  match t.stmt.kind with
  | .func decl =>
    decl.name.toList.map fun name => (.function module name decl.paramTypes, decl.paramNames)
  | .struct decl =>
    if decl.properties.length > maxProperties then []
    else memberParams (.ofDecl module decl) decl
  | _ => []

def refusals (t : TopLevel) : List Diagnostic :=
  match t.stmt.kind with
  | .func decl =>
    match decl.name with
    | some _ => []
    | none => [⟨.internal "function declaration without a name", t.path, t.stmt.loc, none⟩]
  | .struct decl =>
    if decl.properties.length > maxProperties then
      [⟨.tooManyProperties decl.name, t.path, decl.loc, none⟩]
    else []
  | .enum decl =>
    if decl.cases.length > maxCases then [⟨.tooManyCases decl.name, t.path, decl.loc, none⟩]
    else if decl.cases.any (·.values.length > maxAssociated) then
      [⟨.tooManyParameters, t.path, decl.loc, none⟩]
    else []
  | _ => []

def extend (space : Space) (t : TopLevel) : Space :=
  { space with
    globals := space.globals.insertAll (t.declared? space.module).toList
    structs := space.structs.insertAll (t.structs space.module)
    enums := space.enums.insertAll (t.enums space.module)
    params := space.params.insertAll (t.params space.module) }

end TopLevel

namespace Declarations

theorem foldl_setParams (es : List (Symbol × List String)) (space : Space) :
    es.foldl (fun space e => space.setParams e.1 e.2) space =
      { space with params := space.params.insertAll es } := by
  induction es generalizing space with
  | nil => rfl
  | cons e es ih =>
    rw [List.foldl_cons, ih]
    rfl

theorem structParams_insertAll (space : Space) (type : StructType) (decl : StructDecl) :
    structParams space type decl =
      { space with params := space.params.insertAll (TopLevel.memberParams type decl) } := by
  rw [← foldl_setParams, TopLevel.memberParams, List.foldl_append, List.foldl_filterMap,
    structParams]
  congr 1
  · funext space method
    cases method.name.bind type.method? <;> rfl
  · cases type.initializer <;> rfl

theorem declare_space (d : Declarations) (t : TopLevel) :
    (d.declare t.path t.place t.stmt).space = TopLevel.extend d.space t := by
  obtain ⟨path, place, kind, loc⟩ := t
  cases kind with
  | func decl =>
    obtain ⟨name, params, returns, body, dloc⟩ := decl
    cases name <;> rfl
  | struct decl =>
    by_cases hp : decl.properties.length > maxProperties
    · simp only [declare, TopLevel.extend, TopLevel.declared?, TopLevel.structs, TopLevel.enums,
        TopLevel.params, if_pos hp]
      rfl
    · simp only [declare, TopLevel.extend, TopLevel.declared?, TopLevel.structs, TopLevel.enums,
        TopLevel.params, if_neg hp, structParams_insertAll]
      rfl
  | enum decl =>
    by_cases hc : decl.cases.length > maxCases
    · simp only [declare, TopLevel.extend, TopLevel.declared?, TopLevel.structs, TopLevel.enums,
        TopLevel.params, if_pos hc]
      rfl
    · by_cases hv : decl.cases.any (·.values.length > maxAssociated)
      · simp only [declare, TopLevel.extend, TopLevel.declared?, TopLevel.structs, TopLevel.enums,
          TopLevel.params, if_neg hc, if_pos hv]
        rfl
      · simp only [declare, TopLevel.extend, TopLevel.declared?, TopLevel.structs, TopLevel.enums,
          TopLevel.params, if_neg hc, if_neg hv]
        rfl
  | _ => rfl

theorem declare_problems (d : Declarations) (t : TopLevel) :
    (d.declare t.path t.place t.stmt).problems = t.refusals ++ d.problems := by
  obtain ⟨path, place, kind, loc⟩ := t
  cases kind with
  | func decl =>
    obtain ⟨name, params, returns, body, dloc⟩ := decl
    cases name <;> rfl
  | struct decl =>
    simp only [declare, TopLevel.refusals]
    split <;> rfl
  | enum decl =>
    simp only [declare, TopLevel.refusals]
    split
    · rfl
    split <;> rfl
  | _ => rfl

theorem foldl_declare_space (ts : List TopLevel) (d : Declarations) :
    (ts.foldl (fun d t => d.declare t.path t.place t.stmt) d).space =
      ts.foldl TopLevel.extend d.space := by
  induction ts generalizing d with
  | nil => rfl
  | cons t ts ih => rw [List.foldl_cons, List.foldl_cons, ih, declare_space]

theorem foldl_declare_problems (ts : List TopLevel) (d : Declarations) :
    (ts.foldl (fun d t => d.declare t.path t.place t.stmt) d).problems.Perm
      (ts.flatMap TopLevel.refusals ++ d.problems) := by
  induction ts generalizing d with
  | nil => exact .refl _
  | cons t ts ih =>
    refine (ih _).trans ?_
    rw [declare_problems, List.flatMap_cons, List.append_assoc, ← List.append_assoc,
      ← List.append_assoc]
    exact List.perm_append_comm.append_right _

end Declarations

namespace TopLevel

theorem foldl_extend (ts : List TopLevel) (space : Space) :
    ts.foldl extend space =
      { space with
        globals := space.globals.insertAll (ts.flatMap fun t => (t.declared? space.module).toList)
        structs := space.structs.insertAll (ts.flatMap (structs space.module))
        enums := space.enums.insertAll (ts.flatMap (enums space.module))
        params := space.params.insertAll (ts.flatMap (params space.module)) } := by
  induction ts generalizing space with
  | nil => rfl
  | cons t ts ih =>
    rw [List.foldl_cons, ih]
    simp only [List.flatMap_cons, Table.insertAll_append]
    rfl

def Distinct (module : String) (ts : List TopLevel) : Prop :=
  ts.Pairwise fun t u => ∀ name g g', t.declared? module = some (name, g) →
    u.declared? module ≠ some (name, g')

variable {module : String}

theorem distinct_of_nodup {ts : List TopLevel}
    (h : (ts.filterMap fun t => (t.declared? module).map Prod.fst).Nodup) :
    Distinct module ts := by
  refine (List.pairwise_filterMap.mp h).imp fun hne name g g' ht hu => ?_
  exact hne name (by rw [ht]; rfl) name (by rw [hu]; rfl) rfl

/-- The statement without its place, on which nothing depends but which declaration is the last. -/
def unplaced (t : TopLevel) : TopLevel := { t with place := ⟨0, 0⟩ }

theorem map_unplaced_ofFile (file : SourceFile × Nat) :
    (ofFile file).map unplaced = file.1.stmts.map fun s => ⟨file.1.path, ⟨0, 0⟩, s⟩ := by
  conv => rhs; rw [← List.zipIdx_map_fst 0 file.1.stmts]
  rw [ofFile, List.map_map, List.map_map]
  rfl

theorem map_unplaced_ofFiles (files : List SourceFile) :
    (ofFiles files).map unplaced =
      files.flatMap fun file => file.stmts.map fun s => ⟨file.path, ⟨0, 0⟩, s⟩ := by
  conv => rhs; rw [← List.zipIdx_map_fst 0 files]
  rw [ofFiles, List.map_flatMap, List.flatMap_map]
  simp only [map_unplaced_ofFile]

theorem unplaced_perm {files files' : List SourceFile} (h : files.Perm files') :
    ((ofFiles files).map unplaced).Perm ((ofFiles files').map unplaced) := by
  rw [map_unplaced_ofFiles, map_unplaced_ofFiles]
  exact h.flatMap_right _

theorem flatMap_unplaced {α : Type} {f : TopLevel → List α} (hf : ∀ t, f t.unplaced = f t)
    (ts : List TopLevel) : ts.flatMap f = (ts.map unplaced).flatMap f := by
  rw [List.flatMap_map]
  simp only [hf]

/-- What statements add under keys that tell the declared name may be added in any order. -/
theorem get?_insertAll_ofFiles {κ α : Type} [BEq κ] [LawfulBEq κ] {files files' : List SourceFile}
    (h : files.Perm files') (hd : Distinct module (ofFiles files)) {f : TopLevel → List (κ × α)}
    (hf : ∀ t, f t.unplaced = f t) (owner : κ → Option String)
    (ho : ∀ t, ∀ e ∈ f t, ∃ name g, t.declared? module = some (name, g) ∧
      owner e.1 = some name) (k : κ) :
    (Table.empty.insertAll ((ofFiles files).flatMap f)).get? k =
      (Table.empty.insertAll ((ofFiles files').flatMap f)).get? k := by
  rw [flatMap_unplaced hf (ofFiles files), flatMap_unplaced hf (ofFiles files')]
  refine Table.get?_insertAll_perm (unplaced_perm h) (List.pairwise_map.mpr ?_) _ k
  refine hd.imp fun {t u} htu e he e' he' heq => ?_
  rw [hf] at he he'
  obtain ⟨name, g, ht, hn⟩ := ho t e he
  obtain ⟨name', g', hu, hn'⟩ := ho u e' he'
  rw [heq, hn'] at hn
  cases hn
  exact htu name g g' ht hu

theorem declared?_owner (t : TopLevel) :
    ∀ e ∈ (t.declared? module).toList, ∃ name g, t.declared? module = some (name, g) ∧
      some e.1 = some name :=
  fun e he => ⟨e.1, e.2, Option.mem_toList.mp he, rfl⟩

theorem structs_owner (t : TopLevel) :
    ∀ e ∈ t.structs module, ∃ name g, t.declared? module = some (name, g) ∧
      e.1.kind.names.head? = some name := by
  obtain ⟨path, place, kind, loc⟩ := t
  intro e he
  cases kind with
  | struct decl =>
    simp only [structs] at he
    split at he
    · cases he
    · rename_i hp
      cases List.mem_singleton.mp he
      exact ⟨decl.name, _, if_neg hp, rfl⟩
  | _ => cases he

theorem enums_owner (t : TopLevel) :
    ∀ e ∈ t.enums module, ∃ name g, t.declared? module = some (name, g) ∧
      e.1.kind.names.head? = some name := by
  obtain ⟨path, place, kind, loc⟩ := t
  intro e he
  cases kind with
  | enum decl =>
    simp only [enums] at he
    split at he
    · cases he
    rename_i hc
    split at he
    · cases he
    · rename_i hv
      cases List.mem_singleton.mp he
      exact ⟨decl.name, _, (if_neg hc).trans (if_neg hv), rfl⟩
  | _ => cases he

theorem mem_memberParams {decl : StructDecl} {e : Symbol × List String}
    (he : e ∈ memberParams (.ofDecl module decl) decl) :
    ∃ name params, e.1 = .method module decl.name name params := by
  rcases List.mem_append.mp he with he | he
  · cases List.mem_singleton.mp he
    exact ⟨_, _, rfl⟩
  · obtain ⟨method, -, he⟩ := List.mem_filterMap.mp he
    obtain ⟨s, hs, rfl⟩ := Option.map_eq_some_iff.mp he
    obtain ⟨name, -, hs⟩ := Option.bind_eq_some_iff.mp hs
    obtain ⟨_, -, -, rfl⟩ := StructType.method?_ofDecl hs
    exact ⟨_, _, rfl⟩

theorem params_owner (t : TopLevel) :
    ∀ e ∈ t.params module, ∃ name g, t.declared? module = some (name, g) ∧
      e.1.kind.names.head? = some name := by
  obtain ⟨path, place, kind, loc⟩ := t
  intro e he
  cases kind with
  | func decl =>
    obtain ⟨name, hn, rfl⟩ := List.mem_map.mp he
    rw [Option.mem_toList] at hn
    exact ⟨name, _, congrArg (Option.map _) hn, rfl⟩
  | struct decl =>
    simp only [params] at he
    split at he
    · cases he
    · rename_i hp
      obtain ⟨_, _, hs⟩ := mem_memberParams he
      exact ⟨decl.name, _, if_neg hp, by rw [hs]; rfl⟩
  | _ => cases he

theorem Distinct.last? {name : String} {ts : List TopLevel} (h : Distinct module ts) {t : TopLevel}
    (ht : t ∈ ts) {g : Global} (hn : t.declared? module = some (name, g)) :
    TopLevel.last? module ts name = some t := by
  induction ts with
  | nil => cases ht
  | cons u ts ih =>
    obtain ⟨hu, hts⟩ := List.pairwise_cons.mp h
    rw [TopLevel.last?, List.reverse_cons, List.find?_append]
    rcases List.mem_cons.mp ht with rfl | ht
    · have hnone : ts.reverse.find? (·.declares module name) = none := by
        refine List.find?_eq_none.mpr fun x hx hdeclares => ?_
        obtain ⟨g', hx'⟩ := declares_eq_true.mp hdeclares
        exact hu x (List.mem_reverse.mp hx) name g g' hn hx'
      have hfirst : t.declares module name = true := declares_eq_true.mpr ⟨g, hn⟩
      rw [hnone, List.find?_singleton, hfirst]
      rfl
    · rw [← TopLevel.last?, ih hts ht]
      rfl

end TopLevel

namespace Piece

/-- The bodies of the declaration that a statement makes, where no other one has its name. -/
def ofSole (space : Space) (t : TopLevel) : List Piece :=
  match t.stmt.kind with
  | .func decl => decl.name.toList.map fun name =>
      ⟨t.path, .function (.function space.module name decl.paramTypes) decl⟩
  | .bind name _ _ value => [⟨t.path, .value (.value space.module name) value t.stmt.loc⟩]
  | .struct decl =>
    if decl.properties.length > maxProperties then []
    else (space.structType? (.struct space.module decl.name)).toList.flatMap
      (ofStruct t.path · decl)
  | _ => []

def ofSoleFile (space : Space) (file : SourceFile) : List Piece :=
  ⟨file.path, .file (fileSymbol space.module file.path) file.stmts⟩ ::
    file.stmts.flatMap fun s => ofSole space ⟨file.path, ⟨0, 0⟩, s⟩

variable {a b : Space}

theorem ofSole_alike (h : a.Alike b) : ofSole a = ofSole b := by
  funext t
  simp only [ofSole, h.module, h.structType?]

theorem ofSoleFile_alike (h : a.Alike b) : ofSoleFile a = ofSoleFile b := by
  funext file
  rw [ofSoleFile, ofSoleFile, ofSole_alike h, h.module]

theorem compile_seen (h : a.Seen b) : Piece.compile a = Piece.compile b :=
  funext fun piece => piece.source.compile_same h

theorem chunks_seen (h : a.Seen b) : chunks a = chunks b := by
  funext piece
  rw [chunks, chunks, compile_seen h]

theorem initializers_seen (h : a.Seen b) : initializers a = initializers b := by
  funext piece
  rw [initializers, initializers, compile_seen h]

theorem problems_seen (h : a.Seen b) : problems a = problems b := by
  funext piece
  rw [problems, problems, compile_seen h]

theorem chunks_alike (h : a.Alike b) : chunks a = chunks b := chunks_seen h.seen

theorem problems_alike (h : a.Alike b) : problems a = problems b := problems_seen h.seen

end Piece

section Order

variable {module : String} {files files' : List SourceFile} {imports : List Linked}

theorem ofTopLevel_eq_ofSole {d : Declarations}
    (hc : d.Collects module (withStandard module imports) (TopLevel.ofFiles files)) {t : TopLevel}
    (ht : t ∈ TopLevel.ofFiles files)
    (hl : ∀ name g, t.declared? module = some (name, g) →
      TopLevel.last? module (TopLevel.ofFiles files) name = some t) :
    Piece.ofTopLevel d t = Piece.ofSole d.space t := by
  have hlast : ∀ {name g}, t.declared? module = some (name, g) → d.isLast name t.place = true :=
    fun hn => (hc.isLast_iff ht).mpr (hl _ _ hn)
  obtain ⟨path, place, kind, loc⟩ := t
  cases kind with
  | func decl =>
    obtain ⟨name, params, returns, body, dloc⟩ := decl
    cases name with
    | none => rfl
    | some name =>
      have hl : d.isLast name place = true := hlast rfl
      simp only [Piece.ofTopLevel, Piece.ofSole, hl, if_true]
      rfl
  | bind name mutable ty value =>
    have hl : d.isLast name place = true := hlast rfl
    simp only [Piece.ofTopLevel, Piece.ofSole, hl, if_true]
  | struct decl =>
    by_cases hp : decl.properties.length > maxProperties
    · have hn : TopLevel.declared? module ⟨path, place, .struct decl, loc⟩ = none := if_pos hp
      have hl : d.isLast decl.name place = false := by
        refine Bool.eq_false_iff.mpr fun h => ?_
        obtain ⟨g, hg⟩ := (TopLevel.last?_spec ((hc.isLast_iff ht).mp h)).2
        cases hn.symm.trans hg
      simp only [Piece.ofTopLevel, Piece.ofSole, hl, if_pos hp]
      rfl
    · have hl : d.isLast decl.name place = true := hlast (if_neg hp)
      simp only [Piece.ofTopLevel, Piece.ofSole, hl, if_true, if_neg hp]
      cases d.space.structType? (.struct d.space.module decl.name) <;> simp
  | _ => rfl

/-- Where no two declarations have the same name, every one of them has its bodies. -/
theorem pieces_eq (hd : TopLevel.Distinct module (TopLevel.ofFiles files)) :
    pieces module files imports =
      files.flatMap (Piece.ofSoleFile (declarations module files imports).space) := by
  have hfile : ∀ file ∈ files.zipIdx, Piece.ofFile (declarations module files imports) file =
      Piece.ofSoleFile (declarations module files imports).space file.1 := by
    intro file hf
    have hbodies : (TopLevel.ofFile file).flatMap
        (Piece.ofTopLevel (declarations module files imports)) =
        (TopLevel.ofFile file).flatMap
          (Piece.ofSole (declarations module files imports).space) := by
      rw [List.flatMap_def, List.flatMap_def, List.map_congr_left fun t ht =>
        ofTopLevel_eq_ofSole collects_declarations (List.mem_flatMap.mpr ⟨file, hf, ht⟩)
          fun _ _ => hd.last? (List.mem_flatMap.mpr ⟨file, hf, ht⟩)]
    rw [Piece.ofFile, Piece.ofSoleFile, hbodies,
      TopLevel.flatMap_unplaced (fun _ => rfl) (TopLevel.ofFile file),
      TopLevel.map_unplaced_ofFile, List.flatMap_map]
  rw [pieces, Piece.ofFiles]
  generalize declarations module files imports = d at hfile ⊢
  conv => rhs; rw [← List.zipIdx_map_fst 0 files]
  rw [List.flatMap_map, List.flatMap_def, List.flatMap_def, List.map_congr_left hfile]

theorem declarations_space : (declarations module files imports).space =
    (TopLevel.ofFiles files).foldl TopLevel.extend
      { module, imports := withStandard module imports } := by
  rw [declarations, Declarations.ofFiles_eq, Declarations.foldl_declare_space]

/-- In whatever order the files are taken up, all lookups give the same. -/
theorem alike_of_perm (h : files.Perm files')
    (hd : TopLevel.Distinct module (TopLevel.ofFiles files)) :
    (declarations module files imports).space.Alike (declarations module files' imports).space := by
  rw [declarations_space, declarations_space, TopLevel.foldl_extend, TopLevel.foldl_extend]
  exact {
    module := rfl
    imports := rfl
    globals := TopLevel.get?_insertAll_ofFiles h hd (fun _ => rfl) some TopLevel.declared?_owner
    structs := TopLevel.get?_insertAll_ofFiles h hd (fun _ => rfl) (·.kind.names.head?)
      TopLevel.structs_owner
    enums := TopLevel.get?_insertAll_ofFiles h hd (fun _ => rfl) (·.kind.names.head?)
      TopLevel.enums_owner
    params := TopLevel.get?_insertAll_ofFiles h hd (fun _ => rfl) (·.kind.names.head?)
      TopLevel.params_owner }

theorem pieces_perm (h : files.Perm files')
    (hd : TopLevel.Distinct module (TopLevel.ofFiles files))
    (hd' : TopLevel.Distinct module (TopLevel.ofFiles files')) :
    (pieces module files imports).Perm (pieces module files' imports) := by
  rw [pieces_eq hd, pieces_eq hd', Piece.ofSoleFile_alike (alike_of_perm h hd)]
  exact h.flatMap_right _

theorem distinct_perm (h : files.Perm files')
    (hd : TopLevel.Distinct module (TopLevel.ofFiles files)) :
    TopLevel.Distinct module (TopLevel.ofFiles files') := by
  have hplaced : ∀ ts : List TopLevel,
      TopLevel.Distinct module (ts.map TopLevel.unplaced) ↔ TopLevel.Distinct module ts :=
    fun ts => List.pairwise_map
  refine (hplaced _).mp ((TopLevel.unplaced_perm h).pairwise ((hplaced _).mpr hd) ?_)
  exact fun hne name g g' ht hu => hne name g' g hu ht

/-! ## What the bodies add to the module -/

theorem link_chunks_get?_of_ne {s : Symbol} (hs : s ≠ mainSymbol module) :
    (link module files imports).module.chunks.get? s =
      ((pieces module files imports).flatMap
        (·.chunks (declarations module files imports).space)).reverse.find? (·.symbol == s) := by
  have hstart : ((startChunk? module files imports).toList).reverse.find? (·.symbol == s) =
      none := by
    refine List.find?_eq_none.mpr fun c hc hsym => hs ?_
    have hmain := mainChunk?_eq_some (Option.mem_toList.mp (List.mem_reverse.mp hc))
    rw [← eq_of_beq hsym, hmain.symbol]
  rw [link_chunks_get?, registered, List.reverse_append, List.find?_append, hstart]
  rfl

/-- Where no two of the chunks have the same symbol, their order does not matter. -/
theorem find?_symbol_perm {cs cs' : List (Chunk Value)} (h : cs.Perm cs')
    (hn : (cs.map (·.symbol)).Nodup) (s : Symbol) :
    cs.reverse.find? (·.symbol == s) = cs'.reverse.find? (·.symbol == s) := by
  rw [List.find?_eq_findSome?_guard, List.find?_eq_findSome?_guard]
  refine findSome?_perm (cs.reverse_perm.trans (h.trans cs'.reverse_perm.symm)) ?_
  refine List.pairwise_reverse.mpr ((List.pairwise_map.mp hn).imp fun {c c'} hne => ?_)
  by_cases hc : c.symbol = s
  · refine .inl (Option.guard_eq_none_iff.mpr ?_)
    simpa using fun h' => hne (hc.trans h'.symm)
  · exact .inr (Option.guard_eq_none_iff.mpr (by simpa using hc))

def initializersOf (space : Space) (t : TopLevel) : List (Symbol × Chunk Value) :=
  ((Piece.ofSole space t).flatMap (·.initializers space)).map fun c => (c.symbol, c)

theorem initializersOf_alike {a b : Space} (h : a.Alike b) :
    initializersOf a = initializersOf b := by
  funext t
  rw [initializersOf, initializersOf, Piece.ofSole_alike h, Piece.initializers_seen h.seen]

theorem initializersOf_owner {space : Space} (t : TopLevel) :
    ∀ e ∈ initializersOf space t, ∃ name g, t.declared? module = some (name, g) ∧
      e.1.kind.names.head? = some name := by
  intro e he
  obtain ⟨c, hc, rfl⟩ := List.mem_map.mp he
  obtain ⟨b, hb, hc⟩ := List.mem_flatMap.mp hc
  obtain ⟨symbol, x, loc, r, hsource, -, hr, rfl⟩ := Piece.exists_of_mem_initializers hc
  obtain ⟨literals, hof⟩ := Compiled.ofValue_eq_ok hr
  obtain ⟨path, place, kind, tloc⟩ := t
  cases kind with
  | bind name mutable ty value =>
    cases List.mem_singleton.mp hb
    cases hsource
    exact ⟨name, _, rfl, by rw [hof.symbol]; rfl⟩
  | func decl =>
    obtain ⟨name, -, rfl⟩ := List.mem_map.mp hb
    cases hsource
  | struct decl =>
    simp only [Piece.ofSole] at hb
    split at hb
    · cases hb
    · obtain ⟨type, -, hb⟩ := List.mem_flatMap.mp hb
      rcases Piece.mem_ofStruct.mp hb with rfl | ⟨_, _, _, _, _, _, rfl⟩ <;> cases hsource
  | _ => cases hb

theorem initializers_file (space : Space) (path : String) (symbol : Symbol) (body : List Stmt) :
    Piece.initializers space ⟨path, .file symbol body⟩ = [] := by
  rw [Piece.initializers]
  cases Piece.compile space ⟨path, .file symbol body⟩ <;> rfl

theorem link_initializers (hd : TopLevel.Distinct module (TopLevel.ofFiles files)) :
    (link module files imports).module.initializers =
      Table.empty.insertAll ((TopLevel.ofFiles files).flatMap
        (initializersOf (declarations module files imports).space)) := by
  have hlink : (link module files imports).module.initializers =
      Table.empty.insertAll (((pieces module files imports).flatMap
        (·.initializers (declarations module files imports).space)).map
          fun c => (c.symbol, c)) := by
    rw [link_eq, Table.insertAll, List.foldl_map]
    rfl
  rw [hlink, pieces_eq hd, TopLevel.flatMap_unplaced (fun _ => rfl), TopLevel.map_unplaced_ofFiles]
  generalize (declarations module files imports).space = space
  congr 1
  simp only [List.flatMap_assoc, List.map_flatMap, List.flatMap_map]
  congr 1
  funext file
  rw [Piece.ofSoleFile, List.flatMap_cons, initializers_file, List.map_nil, List.nil_append,
    List.flatMap_assoc]
  congr 1
  funext s
  rw [initializersOf, List.map_flatMap]

/-! ## The chunk with which the module starts -/

theorem addSymbol_isSome (c : Chunk Value) (s : Symbol) :
    (c.addSymbol s).1.isSome = true ↔ s ∈ c.symbols ∨ c.symbols.size < Chunk.maxEntries := by
  rw [Option.isSome_iff_ne_none, Ne, Chunk.addSymbol_eq, Chunk.intern_fst_eq_none_iff]
  simp only [beq_eq_false_iff_ne, Array.forall_mem_ne']
  rw [Decidable.not_and_iff_or_not, Nat.not_le, Decidable.not_not, or_comm]

/-- New symbols are added as long as there is room for all of them. -/
theorem addSymbols?_symbols {c : Chunk Value} {ss : List Symbol} (hn : ss.Nodup)
    (hc : ∀ s ∈ ss, s ∉ c.symbols) (hsize : c.symbols.size ≤ Chunk.maxEntries) :
    (addSymbols? c ss).map (·.2.symbols) =
      if c.symbols.size + ss.length ≤ Chunk.maxEntries then some (c.symbols ++ ss.toArray)
      else none := by
  induction ss generalizing c with
  | nil => simp [addSymbols?, hsize]
  | cons s ss ih =>
    obtain ⟨hs, hn⟩ := List.nodup_cons.mp hn
    have hfresh : c.symbols.findIdx? (· == s) = none := by
      refine Array.findIdx?_eq_none_iff.mpr fun x hx => beq_eq_false_iff_ne.mpr fun he => ?_
      exact hc s List.mem_cons_self (he ▸ hx)
    rw [addSymbols?, Chunk.addSymbol, hfresh]
    dsimp only
    by_cases hlt : c.symbols.size < Chunk.maxEntries
    · let c' := { c with symbols := c.symbols.push s }
      have hfresh' : ∀ x ∈ ss, x ∉ c'.symbols := by
        intro x hx hmem
        rcases Array.mem_push.mp hmem with hmem | rfl
        · exact hc x (List.mem_cons_of_mem s hx) hmem
        · exact hs hx
      have hrest := ih hn hfresh' (by simp only [c', Array.size_push]; omega)
      have hstep : ∀ r : Option (List UInt16 × Chunk Value),
          (r.bind fun x => some (UInt16.ofNat c.symbols.size :: x.1, x.2)).map (·.2.symbols) =
            r.map (·.2.symbols) := by
        intro r
        cases r <;> rfl
      rw [if_pos hlt]
      refine (hstep (addSymbols? c' ss)).trans (hrest.trans ?_)
      have hlen : c'.symbols.size + ss.length = c.symbols.size + (s :: ss).length := by
        simp only [c', Array.size_push, List.length_cons]
        omega
      rw [hlen]
      simp [c']
    · rw [if_neg hlt, if_neg (by rw [List.length_cons]; omega)]
      rfl

theorem fileSymbol_inj {path path' : String}
    (h : fileSymbol module path = fileSymbol module path') :
    path = path' := by
  simpa [fileSymbol, Symbol.function] using h

theorem nodup_fileSymbols (h : (files.map (·.path)).Nodup) :
    (files.map (fileSymbol module ·.path)).Nodup :=
  List.pairwise_map.mpr ((List.pairwise_map.mp h).imp fun hne he => hne (fileSymbol_inj he))

/-- The main chunk is there if its table has room for the symbols of all files and of the main
function. -/
theorem mainChunk?_isSome (h : (files.map (·.path)).Nodup) (main : Option Symbol) :
    (mainChunk? module files main).isSome = true ↔ files.length ≤ Chunk.maxEntries ∧
      ∀ s, main = some s →
        s ∈ files.map (fileSymbol module ·.path) ∨ files.length < Chunk.maxEntries := by
  let head : Chunk Value :=
    { name := "<main>", symbol := mainSymbol module, locals := #["<result>", "<file result>"] }
  have hn : (files.map (fileSymbol module ·.path)).Nodup := nodup_fileSymbols h
  have hsymbols := addSymbols?_symbols (c := head) hn (fun s _ => by simp [head]) (by simp [head])
  unfold mainChunk?
  change ((addSymbols? head (files.map (fileSymbol module ·.path))).bind _).isSome = true ↔ _
  rw [Option.isSome_bind]
  cases hadd : addSymbols? head (files.map (fileSymbol module ·.path)) with
  | none =>
    rw [hadd] at hsymbols
    split at hsymbols
    · cases hsymbols
    · rename_i hlen
      simp only [head, Array.size_empty, List.length_map] at hlen
      exact iff_of_false (by simp) fun hle => hlen (by omega)
  | some r =>
    rw [hadd] at hsymbols
    split at hsymbols
    · rename_i hlen
      simp only [head, Array.size_empty, List.length_map] at hlen
      have hr : r.2.symbols = (files.map (fileSymbol module ·.path)).toArray := by
        simpa [head] using hsymbols
      cases main with
      | none => exact iff_of_true rfl ⟨by omega, fun s hs => by cases hs⟩
      | some s =>
        have hadded := addSymbol_isSome r.2 s
        rw [hr] at hadded
        simp only [List.mem_toArray, List.size_toArray, List.length_map] at hadded
        refine Iff.trans (b := (r.2.addSymbol s).1.isSome = true) ?_ (hadded.trans ?_)
        · obtain ⟨indices, c⟩ := r
          simp only [Option.any_some]
          rcases c.addSymbol s with ⟨_ | n, c'⟩ <;> exact Iff.rfl
        · constructor
          · intro hs
            exact ⟨by omega, fun x hx => by cases hx; exact hs⟩
          · exact fun hs => hs.2 s rfl
    · cases hsymbols

theorem userMain?_alike {a b : Space} (h : a.Alike b) : userMain? a = userMain? b := by
  rw [userMain?, userMain?, h.globals]

theorem startChunk?_isSome_perm (h : files.Perm files')
    (hd : TopLevel.Distinct module (TopLevel.ofFiles files)) (hp : (files.map (·.path)).Nodup) :
    (startChunk? module files imports).isSome = (startChunk? module files' imports).isSome := by
  have hp' : (files'.map (·.path)).Nodup := (h.map _).nodup hp
  rw [Bool.eq_iff_iff, startChunk?, startChunk?, userMain?_alike (alike_of_perm h hd),
    mainChunk?_isSome hp, mainChunk?_isSome hp', h.length_eq]
  simp only [(h.map (fileSymbol module ·.path)).mem_iff]

/-! ## The module -/

/-- The diagnostics of a module: of declarations that are refused, of bodies, and of a module that
needs too many symbols to start. -/
theorem link_diagnostics : (link module files imports).module.diagnostics.Perm
    ((TopLevel.ofFiles files).flatMap TopLevel.refusals ++
      (pieces module files imports).flatMap
        (·.problems (declarations module files imports).space) ++
      if (startChunk? module files imports).isSome then []
      else [⟨.tooManySymbols, module, .synthesized, none⟩]) := by
  have hrefused : (declarations module files imports).problems.reverse.Perm
      ((TopLevel.ofFiles files).flatMap TopLevel.refusals) := by
    refine (List.reverse_perm _).trans ?_
    rw [declarations, Declarations.ofFiles_eq]
    refine (Declarations.foldl_declare_problems _ _).trans ?_
    rw [List.append_nil]
  rw [link_eq]
  refine (hrefused.append_right _).append ?_
  cases startChunk? module files imports <;> exact .refl _

/-- Where the files have distinct paths, no two declarations have the same name and no two bodies
the same symbol, the order of the files does not matter: the module has the same exports,
descriptors and initializers, the same chunks but for the one with which it starts, and the same
diagnostics. -/
theorem link_perm (h : files.Perm files') (hpaths : (files.map (·.path)).Nodup)
    (hnames : ((TopLevel.ofFiles files).filterMap
      fun t => (t.declared? module).map Prod.fst).Nodup)
    (hsymbols : (((pieces module files imports).flatMap
      (·.chunks (declarations module files imports).space)).map (·.symbol)).Nodup) :
    (∀ name, (link module files imports).module.exports.get? name =
      (link module files' imports).module.exports.get? name) ∧
    (∀ s, (link module files imports).module.structs.get? s =
      (link module files' imports).module.structs.get? s) ∧
    (∀ s, (link module files imports).module.enums.get? s =
      (link module files' imports).module.enums.get? s) ∧
    (∀ s, (link module files imports).module.initializers.get? s =
      (link module files' imports).module.initializers.get? s) ∧
    (∀ s, s ≠ mainSymbol module → (link module files imports).module.chunks.get? s =
      (link module files' imports).module.chunks.get? s) ∧
    (link module files imports).module.diagnostics.Perm
      (link module files' imports).module.diagnostics := by
  have hd := TopLevel.distinct_of_nodup hnames
  have hd' := distinct_perm h hd
  have halike : (declarations module files imports).space.Alike
      (declarations module files' imports).space := alike_of_perm h hd
  have hpieces : (pieces module files imports).Perm (pieces module files' imports) :=
    pieces_perm h hd hd'
  refine ⟨fun name => ?_, fun s => ?_, fun s => ?_, fun s => ?_, fun s hs => ?_, ?_⟩
  · rw [link_exports, link_exports]
    exact halike.globals name
  · rw [link_structs, link_structs]
    exact halike.structs s
  · rw [link_eq, link_eq]
    exact halike.enums s
  · rw [link_initializers hd, link_initializers hd', initializersOf_alike halike]
    exact TopLevel.get?_insertAll_ofFiles h hd (fun _ => rfl) (·.kind.names.head?)
      initializersOf_owner s
  · rw [link_chunks_get?_of_ne hs, link_chunks_get?_of_ne hs, ← Piece.chunks_alike halike]
    exact find?_symbol_perm (hpieces.flatMap_right _) hsymbols s
  · have hrefused : ((TopLevel.ofFiles files).flatMap TopLevel.refusals).Perm
        ((TopLevel.ofFiles files').flatMap TopLevel.refusals) := by
      rw [TopLevel.flatMap_unplaced (fun _ => rfl) (TopLevel.ofFiles files),
        TopLevel.flatMap_unplaced (fun _ => rfl) (TopLevel.ofFiles files')]
      exact (TopLevel.unplaced_perm h).flatMap_right _
    refine link_diagnostics.trans (List.Perm.trans ?_ link_diagnostics.symm)
    rw [← Piece.problems_alike halike, startChunk?_isSome_perm h hd hpaths]
    exact (hrefused.append (hpieces.flatMap_right _)).append_right _

end Order

/-! ## Two files that use each other -/

/-- Declares a function that the other file calls, and a value for which it calls the other file. -/
def sumFile : SourceFile :=
  let loc := Location.synthesized
  let x : Expr := ⟨.var "x", .int, loc⟩
  let sum : Expr := ⟨.binary x .add x, .int, loc⟩
  let eight : Expr := ⟨.literal (.int 8), .int, loc⟩
  let call : Expr := ⟨.call ⟨.var "fourfold", .none, loc⟩ [⟨none, eight⟩], .int, loc⟩
  { path := "sum.pl"
    stmts := [⟨.func ⟨some "twice", [⟨"x", .int⟩], .int, [⟨.ret (some sum), loc⟩], loc⟩, loc⟩,
      ⟨.bind "total" false .int (some call), loc⟩] }

/-- Declares a function that calls one of the other file twice. -/
def productFile : SourceFile :=
  let loc := Location.synthesized
  let call (e : Expr) : Expr := ⟨.call ⟨.var "twice", .none, loc⟩ [⟨none, e⟩], .int, loc⟩
  let product := call (call ⟨.var "x", .int, loc⟩)
  { path := "product.pl"
    stmts := [
      ⟨.func ⟨some "fourfold", [⟨"x", .int⟩], .int, [⟨.ret (some product), loc⟩], loc⟩, loc⟩] }

theorem link_perm_sumFile :
    (([sumFile, productFile].map (·.path)).Nodup ∧
      ((TopLevel.ofFiles [sumFile, productFile]).filterMap
        fun t => (t.declared? "main").map Prod.fst) = ["twice", "total", "fourfold"] ∧
      (((pieces "main" [sumFile, productFile] []).flatMap
        (·.chunks (declarations "main" [sumFile, productFile] []).space)).map (·.symbol)).Nodup) ∧
    ((link "main" [sumFile, productFile] []).module.chunks.get?
        (.function "main" "fourfold" ["int"])).isSome = true ∧
    (link "main" [sumFile, productFile] []).module.chunks.get?
        (.function "main" "fourfold" ["int"]) =
      (link "main" [productFile, sumFile] []).module.chunks.get?
        (.function "main" "fourfold" ["int"]) ∧
    (link "main" [sumFile, productFile] []).module.initializers.get? (.value "main" "total") =
      (link "main" [productFile, sumFile] []).module.initializers.get? (.value "main" "total") := by
  have hpaths : ([sumFile, productFile].map (·.path)).Nodup := by decide
  have hnames : ((TopLevel.ofFiles [sumFile, productFile]).filterMap
      fun t => (t.declared? "main").map Prod.fst) = ["twice", "total", "fourfold"] := by
    decide +kernel
  have hsymbols : (((pieces "main" [sumFile, productFile] []).flatMap
      (·.chunks (declarations "main" [sumFile, productFile] []).space)).map (·.symbol)).Nodup := by
    decide +kernel
  have h := link_perm (.swap productFile sumFile []) hpaths (hnames ▸ by decide) hsymbols
  exact ⟨⟨hpaths, hnames, hsymbols⟩, by decide +kernel, h.2.2.2.2.1 _ (by decide), h.2.2.2.1 _⟩

end Linking

end StackCode
