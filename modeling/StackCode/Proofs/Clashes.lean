import StackCode.Proofs.Entry
import StackCode.Proofs.Origins

/-! # Bodies with the same symbol

The chunks of all bodies of a module, with those of the literals in them at any depth, in the order
in which they are kept. A body that is compiled later replaces one with the same symbol, and
closures of the one are made of the other.
-/

namespace StackCode.Linking

open Lowering

abbrev Registration := Origin × Chunk Value

mutual

def literalRegistrations (number : Nat) : Nest → List Registration
  | .node c literals =>
    literalsRegistrations 0 literals ++ [(.literal c.name number c.symbol.kind.params, c)]

def literalsRegistrations (number : Nat) : List Nest → List Registration
  | [] => []
  | t :: ts => literalRegistrations (number + 1) t ++ literalsRegistrations (number + 1) ts

end

variable {number : Nat}

theorem mem_literalsRegistrations {ts : List Nest} {x : Registration} :
    x ∈ literalsRegistrations number ts ↔
      ∃ k t, ts[k]? = some t ∧ x ∈ literalRegistrations (number + k + 1) t := by
  induction ts generalizing number with
  | nil => simp [literalsRegistrations]
  | cons t ts ih =>
    rw [literalsRegistrations, List.mem_append, ih]
    constructor
    · rintro (h | ⟨k, u, hu, h⟩)
      · exact ⟨0, t, rfl, h⟩
      · exact ⟨k + 1, u, hu, by rwa [Nat.add_right_comm number 1 k, Nat.add_assoc] at h⟩
    · rintro ⟨k, u, hu, h⟩
      cases k with
      | zero =>
        cases hu
        exact .inl h
      | succ k => exact .inr ⟨k, u, hu, by rwa [Nat.add_right_comm number 1 k, Nat.add_assoc]⟩

mutual

theorem literalRegistrations_chunks (number : Nat) :
    (t : Nest) → (literalRegistrations number t).map Prod.snd = t.chunks
  | .node c literals => by
    rw [literalRegistrations, List.map_append, literalsRegistrations_chunks 0 literals]
    rfl

theorem literalsRegistrations_chunks (number : Nat) :
    (ts : List Nest) → (literalsRegistrations number ts).map Prod.snd = Nest.allChunks ts
  | [] => rfl
  | t :: ts => by
    rw [literalsRegistrations, List.map_append, literalRegistrations_chunks (number + 1) t,
      literalsRegistrations_chunks (number + 1) ts]
    rfl

end

/-- The registration says what the symbol of a literal is made from. -/
structure Registration.OfLiteral (module : String) (x : Registration) : Prop where
  literal : ∃ name number params, x.1 = .literal name number params
  symbol : x.2.symbol = x.1.symbol module

/-- Two chunks have the same symbol if and only if their bodies clash. -/
def Registration.Agrees (x y : Registration) : Prop :=
  x.2.symbol = y.2.symbol ↔ x.1.Clashes y.1

namespace Registration

variable {module : String} {x y : Registration}

theorem agrees_of_origins (hx : x.2.symbol = x.1.symbol module)
    (hy : y.2.symbol = y.1.symbol module)
    (h : x.1.symbol module = y.1.symbol module ↔ x.1.Clashes y.1) : x.Agrees y := by
  rw [Agrees, hx, hy]
  exact h

theorem OfLiteral.agrees (hx : x.OfLiteral module) (hy : y.2.symbol = y.1.symbol module) :
    x.Agrees y := by
  refine agrees_of_origins hx.symbol hy ?_
  obtain ⟨name, number, params, ho⟩ := hx.literal
  rw [ho]
  exact Origin.literal_symbol_eq_iff y.1

theorem OfLiteral.agrees_of_right (hx : x.2.symbol = x.1.symbol module)
    (hy : y.OfLiteral module) : x.Agrees y := by
  refine agrees_of_origins hx hy.symbol ?_
  obtain ⟨name, number, params, ho⟩ := hy.literal
  rw [ho]
  exact Origin.symbol_eq_literal_iff x.1

end Registration

theorem literalRegistrations_ofLiteral {space : Space} {parent : String} {t : Nest}
    (h : t.Built space parent number) :
    ∀ x ∈ literalRegistrations number t, x.OfLiteral space.module := by
  induction h with
  | node _ hs _ _ ih =>
    intro x hx
    rcases List.mem_append.mp hx with hx | hx
    · obtain ⟨k, t, ht, hx⟩ := mem_literalsRegistrations.mp hx
      exact ih k t ht x (Nat.zero_add k ▸ hx)
    · rw [List.mem_singleton.mp hx]
      refine ⟨⟨_, _, _, rfl⟩, ?_⟩
      rw [hs]
      rfl

theorem literalsRegistrations_ofLiteral {space : Space} {parent : String} {ts : List Nest}
    (h : AllBuilt space parent number ts) :
    ∀ x ∈ literalsRegistrations number ts, x.OfLiteral space.module := by
  intro x hx
  obtain ⟨k, t, ht, hx⟩ := mem_literalsRegistrations.mp hx
  exact literalRegistrations_ofLiteral (h k t ht) x hx

theorem literalsRegistrations_subset {t u : Nest} (h : t.Holds u) :
    literalsRegistrations 0 u.literals ⊆ literalsRegistrations 0 t.literals := by
  induction h with
  | self => exact fun _ => id
  | @deeper _ _ t _ ht _ ih =>
    intro x hx
    obtain ⟨k, hk⟩ := List.mem_iff_getElem?.mp ht
    refine mem_literalsRegistrations.mpr ⟨k, t, hk, ?_⟩
    cases t with
    | node c literals => exact List.mem_append_left _ (ih hx)

namespace Piece

def registrations (space : Space) (literals : List Nest) (b : Piece) : List Registration :=
  match b.compile space with
  | .ok r => literalsRegistrations 0 literals ++ b.origin?.toList.map (·, r.chunk)
  | .error _ => []

variable {space : Space} {literals : List Nest} {b : Piece}

theorem registrations_chunks (h : ∀ r, b.compile space = .ok r →
    r.Of space (b.source.name b.path) r.chunk.symbol literals) :
    (b.registrations space literals).map Prod.snd = b.chunks space := by
  unfold registrations chunks
  cases hr : b.compile space with
  | error problems => rfl
  | ok r =>
    have hown : (b.origin?.toList.map fun o => (o, r.chunk)).map Prod.snd =
        if b.isValue then [] else [r.chunk] := by
      obtain ⟨path, source⟩ := b
      cases source with
      | initializer type decl =>
        obtain ⟨symbol, hs, -⟩ := Source.compile_part hr
        rw [Source.symbol?] at hs
        simp [origin?, isValue, hs]
      | _ => rfl
    dsimp only
    rw [List.map_append, literalsRegistrations_chunks, (h r hr).nested, hown]

theorem registrations_eq_ok {r : Compiled} (h : b.compile space = .ok r) :
    b.registrations space literals =
      literalsRegistrations 0 literals ++ b.origin?.toList.map (·, r.chunk) := by
  rw [registrations, h]

theorem mem_registrations {module : String} {imports : List Linked} {files : List SourceFile}
    {d : Declarations} (hd : d.Collects module imports (TopLevel.ofFiles files))
    (hb : b ∈ ofFiles d files) (h : ∀ r, b.compile d.space = .ok r →
      r.Of d.space (b.source.name b.path) r.chunk.symbol literals) {x : Registration}
    (hx : x ∈ b.registrations d.space literals) : x.OfLiteral module ∨
      b.origin? = some x.1 ∧ x.2.symbol = x.1.symbol module := by
  unfold registrations at hx
  cases hr : b.compile d.space with
  | error problems =>
    rw [hr] at hx
    cases hx
  | ok r =>
    rw [hr] at hx
    rcases List.mem_append.mp hx with hx | hx
    · exact .inl (hd.named ▸ literalsRegistrations_ofLiteral (h r hr).built x hx)
    · obtain ⟨o, ho, rfl⟩ := List.mem_map.mp hx
      rw [Option.mem_toList] at ho
      obtain ⟨symbol, _, hs, hof⟩ := Source.compile_eq_ok hr
      refine .inr ⟨ho, hof.symbol.trans (Option.some.inj (hs.symm.trans ?_))⟩
      exact (symbol?_of_mem_ofFiles hd hb ho).1

/-- The literals stand before the body itself. -/
theorem pairwise_registrations {module : String} {imports : List Linked} {files : List SourceFile}
    {d : Declarations} (hd : d.Collects module imports (TopLevel.ofFiles files))
    (hb : b ∈ ofFiles d files) (h : ∀ r, b.compile d.space = .ok r →
      r.Of d.space (b.source.name b.path) r.chunk.symbol literals) :
    (b.registrations d.space literals).Pairwise Registration.Agrees := by
  have hmem := fun x (hx : x ∈ b.registrations d.space literals) => mem_registrations hd hb h hx
  have hsymbol : ∀ x ∈ b.registrations d.space literals, x.2.symbol = x.1.symbol module :=
    fun x hx => (hmem x hx).elim (·.symbol) (·.2)
  cases hr : b.compile d.space with
  | error problems =>
    rw [registrations, hr]
    exact .nil
  | ok r =>
    have hliteral : ∀ x ∈ literalsRegistrations 0 literals, x.OfLiteral module :=
      hd.named ▸ literalsRegistrations_ofLiteral (h r hr).built
    rw [registrations_eq_ok hr] at hsymbol ⊢
    refine List.pairwise_append.mpr ⟨?_, ?_, fun x hx y hy => ?_⟩
    · exact (List.pairwise_of_forall fun _ _ => trivial).imp_of_mem fun hx hy _ =>
        (hliteral _ hx).agrees (hliteral _ hy).symbol
    · cases b.origin? with
      | none => exact .nil
      | some o => exact List.pairwise_singleton ..
    · exact (hliteral x hx).agrees (hsymbol y (List.mem_append_right _ hy))

end Piece

section Link

variable (module : String) (files : List SourceFile) (imports : List Linked)

def AreLiterals (literals : Piece → List Nest) : Prop :=
  ∀ b ∈ pieces module files imports, ∀ r,
    b.compile (declarations module files imports).space = .ok r →
      r.Of (declarations module files imports).space (b.source.name b.path) r.chunk.symbol
        (literals b)

def registrations (literals : Piece → List Nest) : List Registration :=
  (pieces module files imports).flatMap (fun b =>
    b.registrations (declarations module files imports).space (literals b)) ++
    (startChunk? module files imports).toList.map (.main, ·)

theorem exists_areLiterals : ∃ literals, AreLiterals module files imports literals := by
  have hone : ∀ b : Piece, ∃ literals, ∀ r,
      b.compile (declarations module files imports).space = .ok r →
        r.Of (declarations module files imports).space (b.source.name b.path) r.chunk.symbol
          literals := by
    intro b
    cases hr : b.compile (declarations module files imports).space with
    | error problems => exact ⟨[], fun r h => nomatch h⟩
    | ok r =>
      obtain ⟨symbol, literals, -, hof⟩ := Source.compile_eq_ok hr
      refine ⟨literals, fun r' h => ?_⟩
      cases h
      exact hof.symbol ▸ hof
  exact ⟨fun b => (hone b).choose, fun b _ => (hone b).choose_spec⟩

variable {module files imports} {literals : Piece → List Nest}

theorem registrations_chunks (h : AreLiterals module files imports literals) :
    (registrations module files imports literals).map Prod.snd =
      registered module files imports := by
  rw [registrations, registered, List.map_append, List.map_flatMap, List.map_map]
  congr 1
  · exact congrArg List.flatten
      (List.map_congr_left fun b hb => Piece.registrations_chunks (h b hb))
  · exact List.map_id _

/-- Chunks of a module have the same symbol exactly where their bodies clash. -/
theorem pairwise_registrations (h : AreLiterals module files imports literals) :
    (registrations module files imports literals).Pairwise Registration.Agrees := by
  have hd : (declarations module files imports).Collects module _ _ := collects_declarations
  have hmem : ∀ b ∈ pieces module files imports, ∀ x,
      x ∈ b.registrations (declarations module files imports).space (literals b) →
        x.OfLiteral module ∨ b.origin? = some x.1 ∧ x.2.symbol = x.1.symbol module :=
    fun b hb x hx => Piece.mem_registrations hd hb (h b hb) hx
  have hsymbol : ∀ b ∈ pieces module files imports, ∀ x,
      x ∈ b.registrations (declarations module files imports).space (literals b) →
        x.2.symbol = x.1.symbol module :=
    fun b hb x hx => (hmem b hb x hx).elim (·.symbol) (·.2)
  refine List.pairwise_append.mpr ⟨List.pairwise_flatMap.mpr ⟨fun b hb => ?_, ?_⟩, ?_, ?_⟩
  · exact Piece.pairwise_registrations hd hb (h b hb)
  · refine (Piece.pairwise_ofFiles hd).imp_of_mem fun ha hb hapart x hx y hy => ?_
    rcases hmem _ ha x hx with hx' | ⟨hxo, hx'⟩
    · exact hx'.agrees (hsymbol _ hb y hy)
    · rcases hmem _ hb y hy with hy' | ⟨hyo, hy'⟩
      · exact hy'.agrees_of_right hx'
      · exact Registration.agrees_of_origins hx' hy' (hapart _ _ hxo hyo)
  · cases startChunk? module files imports with
    | none => exact .nil
    | some c => exact List.pairwise_singleton ..
  · intro x hx y hy
    obtain ⟨b, hb, hx⟩ := List.mem_flatMap.mp hx
    obtain ⟨c, hc, rfl⟩ := List.mem_map.mp hy
    have hc' := (mainChunk?_eq_some (Option.mem_toList.mp hc)).symbol
    rcases hmem b hb x hx with hx' | ⟨hxo, hx'⟩
    · exact hx'.agrees hc'
    · exact Registration.agrees_of_origins hx' hc'
        (Origin.symbol_eq_main_iff (Piece.symbol?_of_mem_ofFiles hd hb hxo).2)

def Registration.Leaves (x : Registration) (after : List Registration) (c : Chunk Value) : Prop :=
  (∀ y ∈ after, ¬ x.1.Clashes y.1) ∧ c = x.2 ∨
    ∃ between y rest, after = between ++ y :: rest ∧ x.1.Clashes y.1 ∧
      (∀ z ∈ rest, ¬ x.1.Clashes z.1) ∧ c = y.2

theorem chunks_get?_registration (h : AreLiterals module files imports literals)
    {before after : List Registration} {x : Registration}
    (he : registrations module files imports literals = before ++ x :: after) :
    ∃ c, (link module files imports).module.chunks.get? x.2.symbol = some c ∧ x.Leaves after c := by
  have hagrees : ∀ y ∈ after, x.Agrees y :=
    (List.pairwise_cons.mp (List.pairwise_append.mp (he ▸ pairwise_registrations h)).2.1).1
  have hfind :
      (registrations module files imports literals).reverse.find? (·.2.symbol == x.2.symbol) =
        (after.reverse.find? (·.2.symbol == x.2.symbol)).or (some x) := by
    simp [he, List.find?_append]
  rw [link_chunks_get?, ← registrations_chunks h, ← List.map_reverse, List.find?_map,
    Function.comp_def, hfind]
  cases hlast : after.reverse.find? (·.2.symbol == x.2.symbol) with
  | none =>
    refine ⟨x.2, rfl, .inl ⟨fun y hy hc => ?_, rfl⟩⟩
    have hne := List.find?_eq_none.mp hlast y (List.mem_reverse.mpr hy)
    exact hne (beq_iff_eq.mpr ((hagrees y hy).mpr hc).symm)
  | some y =>
    obtain ⟨hy, rest, between, hsplit, hnone⟩ := List.find?_eq_some_iff_append.mp hlast
    have hafter : after = between.reverse ++ y :: rest.reverse := by
      simpa using congrArg List.reverse hsplit
    have hmem : y ∈ after := List.mem_reverse.mp (List.mem_of_find?_eq_some hlast)
    refine ⟨y.2, rfl, .inr ⟨between.reverse, y, rest.reverse, hafter, ?_, fun z hz hc => ?_, rfl⟩⟩
    · exact (hagrees y hmem).mp (beq_iff_eq.mp hy).symm
    · have hz' : z ∈ after := by
        rw [hafter]
        exact List.mem_append_right _ (List.mem_cons_of_mem y hz)
      have hne := hnone z (List.mem_reverse.mp hz)
      simp [(hagrees z hz').mpr hc] at hne

theorem literal_mem_registrations {b : Piece} (hb : b ∈ pieces module files imports)
    {r : Compiled} (hr : b.compile (declarations module files imports).space = .ok r) {body : Nest}
    (hbody : (Nest.node r.chunk (literals b)).Holds body) {k : Nat} {t : Nest}
    (ht : body.literals[k]? = some t) :
    (.literal t.chunk.name (k + 1) t.chunk.symbol.kind.params, t.chunk) ∈
      registrations module files imports literals := by
  have hmem : (Origin.literal t.chunk.name (k + 1) t.chunk.symbol.kind.params, t.chunk) ∈
      literalsRegistrations 0 body.literals := by
    refine mem_literalsRegistrations.mpr ⟨k, t, ht, ?_⟩
    cases t with
    | node c literals =>
      rw [Nat.zero_add]
      exact List.mem_append_right _ List.mem_cons_self
  refine List.mem_append_left _ (List.mem_flatMap.mpr ⟨b, hb, ?_⟩)
  rw [Piece.registrations_eq_ok hr]
  exact List.mem_append_left _ (literalsRegistrations_subset hbody hmem)

/-- A closure is made of exactly one of the literals that stand in the body. -/
theorem makeClosure_literal {space : Space} {body : Nest} (h : body.Sound space) {o : Nat}
    {n : UInt16} (hi : (o, ⟨.makeClosure, n⟩) ∈ body.chunk.instructions) :
    ∃ (k : Nat) (t : Nest), body.literals[k]? = some t ∧
      body.chunk.symbol? n = some t.chunk.symbol ∧
      ∀ (j : Nat) (u : Nest), body.literals[j]? = some u → u.chunk.symbol = t.chunk.symbol →
        j = k := by
  obtain ⟨s, hs, t, ht, rfl⟩ := (h.assembled.holds.listed o _ hi).2 rfl
  obtain ⟨k, hk⟩ := List.mem_iff_getElem?.mp ht
  refine ⟨k, t, hk, hs, fun j u hj he => ?_⟩
  have hbt := h.built k t hk
  have hbu := h.built j u hj
  cases hbt with
  | node _ hst _ _ =>
    cases hbu with
    | node _ hsu _ _ =>
      have hname := (Origin.function_eq_iff.mp (hsu.symm.trans (he.trans hst))).1
      have := (Origin.numbered_inj hname).2
      omega

/-- The bodies of a module and the literals in them have the same symbol only where they clash, and
the symbol of a body leads to its own chunk unless a body clashes with it that is compiled later.
The closures that a body makes are, in order, those of the literals that stand in it. Every closure
is made of the chunk to which the symbol of its literal leads, which has this symbol for itself in
the body; if no two bodies clash, this is the chunk of the literal. -/
theorem link_closures (module : String) (files : List SourceFile) (imports : List Linked) :
    ∃ literals, AreLiterals module files imports literals ∧
      (registrations module files imports literals).map Prod.snd =
        registered module files imports ∧
      (registrations module files imports literals).Pairwise
        (fun x y => x.2.symbol = y.2.symbol ↔ x.1.Clashes y.1) ∧
      (∀ before x after, registrations module files imports literals = before ++ x :: after →
        ∃ c, (link module files imports).module.chunks.get? x.2.symbol = some c ∧
          x.Leaves after c) ∧
      ∀ b ∈ pieces module files imports, ∀ r,
        b.compile (declarations module files imports).space = .ok r →
        ∀ body, (Nest.node r.chunk (literals b)).Holds body →
        body.chunk.instructions.filterMap (·.2.made? body.chunk.symbol?) =
          body.literals.map (some ·.chunk.symbol) ∧
        ∀ o n, (o, ⟨.makeClosure, n⟩) ∈ body.chunk.instructions →
          ∃ (k : Nat) (t : Nest), body.literals[k]? = some t ∧
            body.chunk.symbol? n = some t.chunk.symbol ∧
            (∀ (j : Nat) (u : Nest), body.literals[j]? = some u →
              u.chunk.symbol = t.chunk.symbol → j = k) ∧
            (.literal t.chunk.name (k + 1) t.chunk.symbol.kind.params, t.chunk) ∈
              registrations module files imports literals ∧
            ((registrations module files imports literals).Pairwise
                (fun x y => ¬ x.1.Clashes y.1) →
              (link module files imports).module.chunks.get? t.chunk.symbol = some t.chunk) := by
  obtain ⟨literals, h⟩ := exists_areLiterals module files imports
  refine ⟨literals, h, registrations_chunks h, pairwise_registrations h,
    fun before x after he => chunks_get?_registration h he,
    fun b hb r hr body hbody => ?_⟩
  have hsound := (h b hb r hr).sound.of_holds hbody
  refine ⟨hsound.assembled.1, fun o n hi => ?_⟩
  obtain ⟨k, t, ht, hs, hunique⟩ := makeClosure_literal hsound hi
  have hmem := literal_mem_registrations hb hr hbody ht
  refine ⟨k, t, ht, hs, hunique, hmem, fun hapart => ?_⟩
  obtain ⟨before, after, he⟩ := List.append_of_mem hmem
  obtain ⟨c, hc, ⟨-, rfl⟩ | ⟨between, y, rest, rfl, hclash, -, -⟩⟩ := chunks_get?_registration h he
  · exact hc
  · rw [he] at hapart
    refine absurd hclash ((List.pairwise_cons.mp (List.pairwise_append.mp hapart).2.1).1 y ?_)
    exact List.mem_append_right _ List.mem_cons_self

end Link

/-- Two function literals in one function, each of which returns another literal. -/
def siblingLiterals : SourceFile :=
  let loc := Location.synthesized
  let literal (value : Expr) : Expr :=
    ⟨.func ⟨none, [], value.ty, [⟨.ret (some value), loc⟩], loc⟩, .function [] value.ty, loc⟩
  let nested (n : Int64) : Expr := literal (literal ⟨.literal (.int n), .int, loc⟩)
  let bound (name : String) (n : Int64) : Stmt :=
    ⟨.bind name false (nested n).ty (some (nested n)), loc⟩
  let call (e : Expr) : Expr := ⟨.call e [], .int, loc⟩
  let first : Expr := ⟨.var "first", (nested 1).ty, loc⟩
  let given : Stmt := ⟨.ret (some (call (call first))), loc⟩
  let body := [bound "first" 1, bound "second" 2, given]
  { path := "a.pl", stmts := [⟨.func ⟨some "main", [], .int, body, loc⟩, loc⟩] }

/-- The inner literals get the same symbol, and the second one replaces the first. -/
theorem siblingLiterals_clash :
    ((registered "main" [siblingLiterals] []).filter
      (·.symbol == .function "main" "main.<lambda>.<lambda>#1" [])).map (·.constants.map (·.int?)) =
        [#[some 1], #[some 2]] ∧
    ((link "main" [siblingLiterals] []).module.chunks.get?
      (.function "main" "main.<lambda>.<lambda>#1" [])).map (·.constants.map (·.int?)) =
        some #[some 2] := by
  decide +kernel

end StackCode.Linking
