import StackCode.Proofs.Registration

/-! # What symbols are made from

The symbol of a body is made from its name, and that of a function literal from the name of the body
around it and a number that starts anew in every body. It is known exactly which bodies get the same
symbol: the last declarations of different names never do.
-/

namespace StackCode.Linking

open Lowering

inductive Origin where
  | file (path : String)
  | function (name : String) (params : List String)
  | initializer (owner : String) (params : List String)
  | method (owner name : String) (params : List String)
  /-- A function literal by the name of its chunk and its number in the body around it. -/
  | literal (name : String) (number : Nat) (params : List String)
  | main
deriving DecidableEq, Repr

namespace Origin

def symbol (module : String) : Origin → Symbol
  | file path => fileSymbol module path
  | function name params => .function module name params
  | initializer owner params => .method module owner "init" params
  | method owner name params => .method module owner name params
  | literal name number params => .function module (name ++ "#" ++ toString number) params
  | main => mainSymbol module

/-- A body and one that is compiled after it have the same symbol. -/
def Clashes : Origin → Origin → Prop
  | literal name number params, literal name' number' params' =>
    name = name' ∧ number = number' ∧ params = params'
  | literal name number params, function name' params'
  | function name' params', literal name number params =>
    name' = name ++ "#" ++ toString number ∧ params' = params
  | file path, file path' => path = path'
  | file path, function name params | function name params, file path =>
    name = "<file " ++ path ++ ">" ∧ params = []
  | function name params, main => name = "<main>" ∧ params = []
  | initializer owner params, method owner' name params' =>
    owner = owner' ∧ name = "init" ∧ params' = params
  | method owner name _, method owner' name' _ => owner = owner' ∧ name = name'
  | _, _ => False

/-! ## Symbols of literals -/

theorem append_mark_inj {mark : Char} {l l' d d' : List Char} (hd : mark ∉ d) (hd' : mark ∉ d')
    (h : l ++ mark :: d = l' ++ mark :: d') : l = l' ∧ d = d' := by
  rcases List.append_eq_append_iff.mp h with ⟨as, rfl, hs⟩ | ⟨as, rfl, hs⟩
  · cases as with
    | nil => exact ⟨(List.append_nil l).symm, (List.cons.inj hs).2⟩
    | cons c as =>
      have hmem : mark ∈ as ++ mark :: d' := List.mem_append_right as List.mem_cons_self
      exact absurd ((List.cons.inj hs).2 ▸ hmem) hd
  · cases as with
    | nil => exact ⟨List.append_nil l', (List.cons.inj hs).2.symm⟩
    | cons c as =>
      have hmem : mark ∈ as ++ mark :: d := List.mem_append_right as List.mem_cons_self
      exact absurd ((List.cons.inj hs).2 ▸ hmem) hd'

theorem isDigit_of_mem_toString {n : Nat} {c : Char} (h : c ∈ (toString n).toList) :
    c.isDigit = true := by
  rw [Nat.toString_eq_ofList_toDigits, String.toList_ofList] at h
  exact Nat.isDigit_of_mem_toDigits (by decide) (by decide) h

theorem toList_numbered (name : String) (n : Nat) :
    (name ++ "#" ++ toString n).toList = name.toList ++ '#' :: (toString n).toList := by
  simp

/-- The name and the number of a literal can be read off its symbol. -/
theorem numbered_inj {name name' : String} {n n' : Nat}
    (h : name ++ "#" ++ toString n = name' ++ "#" ++ toString n') : name = name' ∧ n = n' := by
  have hmark : ∀ k : Nat, '#' ∉ (toString k).toList := fun k hk =>
    absurd (isDigit_of_mem_toString hk) (by decide)
  have hlist : name.toList ++ '#' :: (toString n).toList =
      name'.toList ++ '#' :: (toString n').toList := by
    rw [← toList_numbered, ← toList_numbered, h]
  obtain ⟨hname, hdigits⟩ := append_mark_inj (hmark n) (hmark n') hlist
  rw [Nat.toString_eq_ofList_toDigits, Nat.toString_eq_ofList_toDigits, String.toList_ofList,
    String.toList_ofList] at hdigits
  refine ⟨String.toList_inj.mp hname, ?_⟩
  rw [← Nat.ofDigitChars_ten_toDigits (n := n), hdigits, Nat.ofDigitChars_ten_toDigits]

theorem numbered_ne_bracketed (name text : String) (n : Nat) :
    name ++ "#" ++ toString n ≠ text ++ ">" := by
  intro h
  have hlist : name.toList ++ '#' :: (toString n).toList = text.toList ++ ['>'] := by
    rw [← toList_numbered, h, String.toList_append]
    rfl
  have hlast : ('#' :: (toString n).toList).getLast? = some '>' := by
    have h := congrArg List.getLast? hlist
    rwa [List.getLast?_append, List.getLast?_concat, List.getLast?_cons, Option.some_or,
      ← List.getLast?_cons] at h
  rcases List.mem_cons.mp (List.mem_of_getLast? hlast) with h | h
  · exact absurd h (by decide)
  · exact absurd (isDigit_of_mem_toString h) (by decide)

variable {module name : String} {number : Nat} {params : List String}

theorem function_eq_iff {name' : String} {params' : List String} :
    Symbol.function module name params = Symbol.function module name' params' ↔
      name = name' ∧ params = params' := by
  simp [Symbol.function]

theorem literal_symbol_eq_iff (b : Origin) :
    (literal name number params).symbol module = b.symbol module ↔
      (literal name number params).Clashes b := by
  cases b with
  | literal name' number' params' =>
    refine function_eq_iff.trans ⟨fun ⟨hn, hp⟩ => ?_, ?_⟩
    · exact ⟨(numbered_inj hn).1, (numbered_inj hn).2, hp⟩
    · rintro ⟨rfl, rfl, rfl⟩
      exact ⟨rfl, rfl⟩
  | function name' params' => exact function_eq_iff.trans (and_congr eq_comm eq_comm)
  | file path =>
    refine ⟨fun h => ?_, False.elim⟩
    exact numbered_ne_bracketed _ _ _ (function_eq_iff.mp h).1
  | main =>
    refine ⟨fun h => ?_, False.elim⟩
    exact numbered_ne_bracketed _ "<main" _ (function_eq_iff.mp h).1
  | initializer owner params' => exact ⟨nofun, False.elim⟩
  | method owner name' params' => exact ⟨nofun, False.elim⟩

theorem symbol_eq_literal_iff (b : Origin) :
    b.symbol module = (literal name number params).symbol module ↔
      b.Clashes (literal name number params) := by
  rw [eq_comm, literal_symbol_eq_iff]
  cases b with
  | literal name' number' params' =>
    exact and_congr eq_comm (and_congr eq_comm eq_comm)
  | _ => exact Iff.rfl

theorem symbol_eq_main_iff {module : String} {o : Origin} (h : o ≠ .main) :
    o.symbol module = main.symbol module ↔ o.Clashes .main := by
  cases o with
  | main => exact absurd rfl h
  | literal name number params => exact literal_symbol_eq_iff .main
  | function name params => exact function_eq_iff
  | file path =>
    refine ⟨fun h => ?_, False.elim⟩
    have htext := congrArg String.toList (function_eq_iff.mp h).1
    simp at htext
  | initializer | method => exact ⟨nofun, False.elim⟩

end Origin

/-! ## Symbols of declarations -/

namespace Piece

/-- What the symbol of a body is made from, if its chunk becomes one of the module. -/
def origin? (b : Piece) : Option Origin :=
  match b.source with
  | .file _ _ => some (.file b.path)
  | .function s _ => some (.function s.name s.kind.params)
  | .initializer type _ => type.initializer.map fun s => .initializer type.name s.kind.params
  | .method type s _ => some (.method type.name s.name s.kind.params)
  | .value .. => none

inductive Declares (module : String) : String → Piece → Prop where
  | function (path name : String) (decl : FuncDecl) :
      Declares module name ⟨path, .function (.function module name decl.paramTypes) decl⟩
  | value (path name : String) (x : Option Expr) (loc : Location) :
      Declares module name ⟨path, .value (.value module name) x loc⟩
  | initializer (path : String) (decl : StructDecl) :
      Declares module decl.name ⟨path, .initializer (.ofDecl module decl) decl⟩
  | method (path name : String) (decl : StructDecl) (params : List String) (method : FuncDecl) :
      Declares module decl.name
        ⟨path, .method (.ofDecl module decl) (.method module decl.name name params) method⟩

variable {module name : String} {imports : List Linked} {files : List SourceFile}
  {d : Declarations} {b : Piece}

theorem declares_of_mem_ofStruct {path : String} {decl : StructDecl}
    (h : b ∈ ofStruct path (.ofDecl module decl) decl) : b.Declares module decl.name := by
  rcases mem_ofStruct.mp h with rfl | ⟨method, -, name, s, -, hs, rfl⟩
  · exact .initializer path decl
  · obtain ⟨method', -, -, rfl⟩ := StructType.method?_ofDecl hs
    exact .method path name decl _ method

variable {t : TopLevel} (hd : d.Collects module imports (TopLevel.ofFiles files))

include hd in
theorem ofTopLevel_cases (ht : t ∈ TopLevel.ofFiles files) :
    ofTopLevel d t = [] ∨
    (∃ decl name, t.stmt.kind = .func decl ∧ decl.name = some name ∧
      d.isLast name t.place = true ∧
      ofTopLevel d t = [⟨t.path, .function (.function module name decl.paramTypes) decl⟩]) ∨
    (∃ name value loc, d.isLast name t.place = true ∧
      ofTopLevel d t = [⟨t.path, .value (.value module name) value loc⟩]) ∨
    ∃ decl, t.stmt.kind = .struct decl ∧ d.isLast decl.name t.place = true ∧
      ofTopLevel d t = ofStruct t.path (.ofDecl module decl) decl := by
  obtain ⟨path, place, kind, loc⟩ := t
  rw [ofTopLevel, hd.named]
  cases kind with
  | func decl =>
    dsimp only
    cases hn : decl.name with
    | none => exact .inl rfl
    | some name =>
      dsimp only
      cases hl : d.isLast name place with
      | false => exact .inl rfl
      | true => exact .inr (.inl ⟨decl, name, rfl, hn, hl, rfl⟩)
  | bind name mutable ty value =>
    dsimp only
    cases hl : d.isLast name place with
    | false => exact .inl rfl
    | true => exact .inr (.inr (.inl ⟨name, value, loc, hl, rfl⟩))
  | struct decl =>
    dsimp only
    cases hl : d.isLast decl.name place with
    | false => exact .inl rfl
    | true =>
      have htype : d.space.structType? (.struct module decl.name) = some (.ofDecl module decl) := by
        rw [Space.structType?, hd.struct decl.name _ _ ((hd.isLast_iff ht).mp hl) rfl]
      rw [htype]
      exact .inr (.inr (.inr ⟨decl, rfl, hl, rfl⟩))
  | _ => exact .inl rfl

include hd in
theorem declares_of_mem_ofTopLevel (ht : t ∈ TopLevel.ofFiles files) (hb : b ∈ ofTopLevel d t) :
    ∃ name, d.isLast name t.place = true ∧ b.Declares module name := by
  rcases ofTopLevel_cases hd ht with he | ⟨decl, name, -, -, hl, he⟩ | ⟨name, value, loc, hl, he⟩ |
    ⟨decl, -, hl, he⟩ <;> rw [he] at hb
  · cases hb
  · cases List.mem_singleton.mp hb
    exact ⟨name, hl, .function ..⟩
  · cases List.mem_singleton.mp hb
    exact ⟨name, hl, .value ..⟩
  · exact ⟨decl.name, hl, declares_of_mem_ofStruct hb⟩

theorem Declares.origin (h : b.Declares module name) {o : Origin} (ho : b.origin? = some o) :
    b.source.symbol? = some (o.symbol module) ∧
      ((∃ params, o = .function name params) ∨ (∃ params, o = .initializer name params) ∨
        ∃ n params, o = .method name n params) := by
  cases h with
  | function path name decl =>
    cases ho
    exact ⟨rfl, .inl ⟨_, rfl⟩⟩
  | value => cases ho
  | initializer path decl =>
    cases ho
    exact ⟨rfl, .inr (.inl ⟨_, rfl⟩)⟩
  | method path n decl params method =>
    cases ho
    exact ⟨rfl, .inr (.inr ⟨_, _, rfl⟩)⟩

/-- The symbols of a body and of one that is compiled after it are equal only if they clash. -/
def Apart (module : String) (a b : Piece) : Prop :=
  ∀ x y, a.origin? = some x → b.origin? = some y →
    (x.symbol module = y.symbol module ↔ x.Clashes y)

theorem Declares.apart {a : Piece} {name' : String} (ha : a.Declares module name)
    (hb : b.Declares module name') (hne : name ≠ name') : Apart module a b := by
  intro x y hx hy
  rcases (ha.origin hx).2 with ⟨ps, rfl⟩ | ⟨ps, rfl⟩ | ⟨n, ps, rfl⟩ <;>
    rcases (hb.origin hy).2 with ⟨qs, rfl⟩ | ⟨qs, rfl⟩ | ⟨n', qs, rfl⟩ <;>
    simp [Origin.symbol, Origin.Clashes, Symbol.function, Symbol.method, hne]

/-- In a struct two methods clash if they have the same name, and a method clashes with the
initializer if it looks like it. -/
theorem pairwise_ofStruct (path : String) (decl : StructDecl) :
    (ofStruct path (.ofDecl module decl) decl).Pairwise (Apart module) := by
  rw [ofStruct, List.pairwise_cons, List.pairwise_filterMap]
  refine ⟨fun b hb x y hx hy => ?_, List.pairwise_of_forall fun m m' b hb b' hb' x y hx hy => ?_⟩
  · obtain ⟨method, hm, hb⟩ := List.mem_filterMap.mp hb
    obtain ⟨s, hs, rfl⟩ := Option.map_eq_some_iff.mp hb
    obtain ⟨name, hn, hs⟩ := Option.bind_eq_some_iff.mp hs
    obtain ⟨method', -, -, rfl⟩ := StructType.method?_ofDecl hs
    cases hx
    cases hy
    simp [Origin.symbol, Origin.Clashes, StructType.ofDecl, StructType.name, Symbol.name,
      Symbol.method, Symbol.struct, SymbolKind.name, SymbolKind.params, eq_comm]
  · obtain ⟨s, hs, rfl⟩ := Option.map_eq_some_iff.mp hb
    obtain ⟨name, hn, hs⟩ := Option.bind_eq_some_iff.mp hs
    obtain ⟨s', hs', rfl⟩ := Option.map_eq_some_iff.mp hb'
    obtain ⟨name', hn', hs'⟩ := Option.bind_eq_some_iff.mp hs'
    obtain ⟨method, -, -, rfl⟩ := StructType.method?_ofDecl hs
    obtain ⟨method', -, -, rfl⟩ := StructType.method?_ofDecl hs'
    cases hx
    cases hy
    refine ⟨fun h => ⟨rfl, (SymbolKind.method.inj (congrArg Symbol.kind h)).2.1⟩, ?_⟩
    rintro ⟨-, hname⟩
    cases show name = name' from hname
    exact Option.some.inj (hs.symm.trans hs')

theorem apart_file_file (path path' : String) (symbol symbol' : Symbol) (body body' : List Stmt) :
    Apart module ⟨path, .file symbol body⟩ ⟨path', .file symbol' body'⟩ := by
  intro x y hx hy
  cases hx
  cases hy
  simp [Origin.symbol, Origin.Clashes, fileSymbol, Symbol.function]

/-- A file clashes with a function without parameters that has the name of its symbol. -/
theorem Declares.apart_file (h : b.Declares module name) (path : String) (symbol : Symbol)
    (body : List Stmt) : Apart module ⟨path, .file symbol body⟩ b ∧
      Apart module b ⟨path, .file symbol body⟩ := by
  constructor
  · intro x y hx hy
    cases hx
    rcases (h.origin hy).2 with ⟨ps, rfl⟩ | ⟨ps, rfl⟩ | ⟨n, ps, rfl⟩ <;>
      simp [Origin.symbol, Origin.Clashes, fileSymbol, Symbol.function, Symbol.method, eq_comm]
  · intro x y hx hy
    cases hy
    rcases (h.origin hx).2 with ⟨ps, rfl⟩ | ⟨ps, rfl⟩ | ⟨n, ps, rfl⟩ <;>
      simp [Origin.symbol, Origin.Clashes, fileSymbol, Symbol.function, Symbol.method]

include hd

/-- Only the bodies of one statement belong to the same last declaration of a name. -/
theorem apart_of_place_ne {u : TopLevel} (ht : t ∈ TopLevel.ofFiles files)
    (hu : u ∈ TopLevel.ofFiles files) (hne : t.place ≠ u.place)
    {a : Piece} (ha : a ∈ ofTopLevel d t) (hb : b ∈ ofTopLevel d u) :
    Apart module a b := by
  obtain ⟨name, hl, ha⟩ := declares_of_mem_ofTopLevel hd ht ha
  obtain ⟨name', hl', hb⟩ := declares_of_mem_ofTopLevel hd hu hb
  refine ha.apart hb ?_
  rintro rfl
  exact hne (Option.some.inj ((eq_of_beq hl).symm.trans (eq_of_beq hl')))

theorem pairwise_ofTopLevel (ht : t ∈ TopLevel.ofFiles files) :
    (ofTopLevel d t).Pairwise (Apart module) := by
  rcases ofTopLevel_cases hd ht with he | ⟨decl, name, -, -, -, he⟩ | ⟨name, value, loc, -, he⟩ |
    ⟨decl, -, -, he⟩ <;> rw [he]
  · exact .nil
  · exact List.pairwise_singleton ..
  · exact List.pairwise_singleton ..
  · exact pairwise_ofStruct t.path decl

theorem pairwise_ofFiles : (ofFiles d files).Pairwise (Apart module) := by
  obtain ⟨hwithin, hacross⟩ := List.pairwise_flatMap.mp (TopLevel.pairwise_place_ne files)
  have hmem : ∀ file ∈ files.zipIdx, ∀ t ∈ TopLevel.ofFile file, t ∈ TopLevel.ofFiles files :=
    fun file hf t ht => List.mem_flatMap.mpr ⟨file, hf, ht⟩
  refine List.pairwise_flatMap.mpr ⟨fun file hf => ?_, ?_⟩
  · refine List.pairwise_cons.mpr ⟨fun b hb => ?_, List.pairwise_flatMap.mpr ⟨?_, ?_⟩⟩
    · obtain ⟨t, ht, hb⟩ := List.mem_flatMap.mp hb
      obtain ⟨name, -, hb⟩ := declares_of_mem_ofTopLevel hd (hmem file hf t ht) hb
      exact (hb.apart_file ..).1
    · exact fun t ht => pairwise_ofTopLevel hd (hmem file hf t ht)
    · exact (hwithin file hf).imp_of_mem fun ht hu hne a ha b hb =>
        apart_of_place_ne hd (hmem file hf _ ht) (hmem file hf _ hu) hne ha hb
  · refine hacross.imp_of_mem fun hf hf' hne a ha b hb => ?_
    rcases List.mem_cons.mp ha with rfl | ha <;> rcases List.mem_cons.mp hb with rfl | hb
    · exact apart_file_file _ _ _ _ _ _
    · obtain ⟨u, hu, hb⟩ := List.mem_flatMap.mp hb
      obtain ⟨name, -, hb⟩ := declares_of_mem_ofTopLevel hd (hmem _ hf' u hu) hb
      exact (hb.apart_file ..).1
    · obtain ⟨t, ht, ha⟩ := List.mem_flatMap.mp ha
      obtain ⟨name, -, ha⟩ := declares_of_mem_ofTopLevel hd (hmem _ hf t ht) ha
      exact (ha.apart_file ..).2
    · obtain ⟨t, ht, ha⟩ := List.mem_flatMap.mp ha
      obtain ⟨u, hu, hb⟩ := List.mem_flatMap.mp hb
      exact apart_of_place_ne hd (hmem _ hf t ht) (hmem _ hf' u hu) (hne t ht u hu) ha hb

theorem symbol?_of_mem_ofFiles (hb : b ∈ ofFiles d files) {o : Origin} (ho : b.origin? = some o) :
    b.source.symbol? = some (o.symbol module) ∧ o ≠ .main := by
  obtain ⟨file, hf, hb⟩ := List.mem_flatMap.mp hb
  rcases List.mem_cons.mp hb with rfl | hb
  · cases ho
    exact ⟨by rw [hd.named]; rfl, nofun⟩
  · obtain ⟨t, ht, hb⟩ := List.mem_flatMap.mp hb
    obtain ⟨name, -, hb⟩ :=
      declares_of_mem_ofTopLevel hd (List.mem_flatMap.mpr ⟨file, hf, ht⟩) hb
    obtain ⟨hs, ho⟩ := hb.origin ho
    refine ⟨hs, ?_⟩
    rintro rfl
    simp at ho

end Piece

end StackCode.Linking
