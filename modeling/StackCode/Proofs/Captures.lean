import StackCode.Proofs.Emission

/-! # Storage of names

A name is stored in a slot of the body, or reached by a capture that is taken up in the bodies in
between. In both cases it is the innermost binding of the name.
-/

namespace StackCode.Lowering

open Code (Extended)

theorem toNat_slot {n : Nat} (h : n < maxLocals) : (UInt8.ofNat n).toNat = n := by
  rw [UInt8.toNat_ofNat']
  exact Nat.mod_eq_of_lt h

theorem toNat_capture {n : Nat} (h : n < maxCaptures) : (UInt8.ofNat n).toNat = n := toNat_slot h

section Runs

variable {ctx : Context} {s : State} {α β : Type}

theorem bind_run (part : Build α) (rest : α → Build β) :
    (part >>= rest) ctx s = rest (part ctx s).1 ctx (part ctx s).2 := rfl

theorem read_run : (read : Build Context) ctx s = (ctx, s) := rfl

theorem get_run : (get : Build State) ctx s = (s, s) := rfl

theorem updateChunk_run (f : Chunk Value → α × Chunk Value) :
    updateChunk f ctx s = ((f s.body.chunk).1,
      { s with body := { s.body with chunk := (f s.body.chunk).2 } }) := rfl

theorem storage?_run (name : String) (loc : Location) :
    storage? name loc ctx s =
      match s.body.slot? name with
      | some slot => ((.skip, some (.slot slot)), s)
      | none =>
        let (found, body, enclosing) := s.body.findCapture name s.enclosing
        (match found with
          | .capture i => (.skip, some (.capture i))
          | .unbound => (.skip, none)
          | .full => (.report ⟨.tooManyCaptures, ctx.path, loc, none⟩, none),
          { s with body, enclosing }) := by
  have hrun : storage? name loc ctx s = (match s.body.slot? name with
    | some slot => return (.skip, some (.slot slot))
    | none => do
      let (found, body, enclosing) := s.body.findCapture name s.enclosing
      set { s with body, enclosing }
      match found with
      | .capture i => return (.skip, some (.capture i))
      | .unbound => return (.skip, none)
      | .full => return (← report .tooManyCaptures loc, none) : Build _) ctx s := rfl
  rw [hrun]
  cases s.body.slot? name with
  | some slot => rfl
  | none =>
    rcases s.body.findCapture name s.enclosing with ⟨_ | _ | _, body, enclosing⟩ <;> rfl

end Runs

variable {v : View} {strict : Prop} {space : Space} {name : String} {b b' o : Body}
  {outer outer' : List Body} {n slot : UInt8} {inner : Array Capture}

theorem binding?_cons (name : String) (b : Body) (outer : List Body) :
    binding? name (scopes (b :: outer)) =
      match b.slot? name with
      | some n => some (0, n)
      | none => (binding? name (scopes outer)).map fun (out, n) => (out + 1, n) := by
  simp only [scopes, List.map_cons, binding?, Body.slot?]
  cases b.scope.find? (·.name == name) <;> rfl

theorem Body.slot?_eq_some (h : b.slot? name = some slot) : ⟨name, slot⟩ ∈ b.scope := by
  obtain ⟨x, hx, rfl⟩ := Option.map_eq_some_iff.mp h
  have hname : x.name = name := by simpa using List.find?_some hx
  exact hname ▸ List.mem_of_find?_eq_some hx

theorem extended_of_bare (hb : b'.bare = b.bare) (hc : Grown b.chunk.captures b'.chunk.captures) :
    Extended b.chunk b'.chunk where
  receiver := congrArg (·.chunk.hasReceiver) hb
  locals n name hn := by
    have hl : b'.chunk.locals = b.chunk.locals := congrArg (·.chunk.locals) hb
    exact hl ▸ hn
  captures := by simpa using hc.length_le
  symbols n s hs := by
    have hsymbols : b'.chunk.symbols = b.chunk.symbols := congrArg (·.chunk.symbols) hb
    rw [Chunk.symbol?] at hs ⊢
    exact hsymbols ▸ hs

theorem Around.cells_mem (h : Around inner outer outer') {x : Capture} (hx : x ∈ inner)
    (hn : x.source = .slot n) (ho : outer'.head? = some o) : n ∈ o.cells := by
  cases h with
  | nil => cases ho
  | cons _ _ cells _ =>
    cases ho
    exact (cells n).mpr (.inr ⟨x, hx, hn⟩)

theorem Around.offers (h : Around inner outer outer') {source : CaptureSource}
    (hs : ∃ o, outer.head? = some o ∧ o.chunk.Offers strict source) :
    ∃ o, outer'.head? = some o ∧ o.chunk.Offers strict source := by
  obtain ⟨o, ho, hs⟩ := hs
  cases h with
  | nil => cases ho
  | @cons _ _ o' _ _ bare captures _ _ =>
    cases ho
    exact ⟨o', rfl, (extended_of_bare bare captures).offers hs⟩

structure Body.Finds (strict : Prop) (space : Space) (name : String) (b : Body) (outer : List Body)
    (i : UInt8) (b' : Body) (outer' : List Body) : Prop where
  leads : ∃ out n, binding? name (scopes outer) = some (out, n) ∧
    captured? (captures (b' :: outer')) i.toNat = some (out + 1, n)
  placed : AllPlaced strict space (b' :: outer')
  grown : Grown b.chunk.captures b'.chunk.captures
  around : Around b'.chunk.captures outer outer'
  bare : b'.bare = b.bare
  cells : b'.cells = b.cells

theorem captured?_lt {cs : Array Capture} {rest : List (Array Capture)} {i : Nat} {x : Nat × UInt8}
    (h : captured? (cs :: rest) i = some x) : i < cs.size := by
  rw [captured?] at h
  cases hc : cs[i]? with
  | none =>
    rw [hc] at h
    cases h
  | some _ => exact (Array.getElem?_eq_some_iff.mp hc).1

theorem Body.finds_of_capture? (h : AllPlaced strict space (b :: outer)) {i : Nat}
    (hi : b.capture? name = some i) : b.Finds strict space name outer (UInt8.ofNat i) b outer := by
  obtain ⟨hlt, hname, -⟩ := Array.findIdx?_eq_some_iff_getElem.mp hi
  have hx := Array.getElem?_eq_getElem hlt
  obtain ⟨out, n, hb, hc⟩ := h.1.leads i _ hx
  rw [eq_of_beq hname] at hb
  refine ⟨⟨out, n, hb, ?_⟩, h, .refl _, .refl h, rfl, rfl⟩
  rw [toNat_capture (Nat.lt_of_lt_of_le hlt h.1.room)]
  exact hc

/-- A new capture, whose source leads to the binding of the name. -/
theorem Body.finds_of_addCapture? {source : CaptureSource} {i : UInt8} {out : Nat}
    (h : b.Placed strict space outer) (hl : AllPlaced strict space outer')
    (hadd : b.addCapture? name source = some (i, b'))
    (haround : Around (b.chunk.captures.push ⟨name, source⟩) outer outer')
    (hoffers : ∃ o, outer'.head? = some o ∧ o.chunk.Offers strict source)
    (hb : binding? name (scopes outer) = some (out, n))
    (hsource : captured? (#[⟨name, source⟩] :: captures outer') 0 = some (out + 1, n)) :
    b.Finds strict space name outer i b' outer' := by
  simp only [Body.addCapture?] at hadd
  split at hadd
  · rename_i hroom
    cases hadd
    have hnew : captured? (b.chunk.captures.push ⟨name, source⟩ :: captures outer')
        b.chunk.captures.size = some (out + 1, n) := by
      rw [← hsource]
      simp [captured?]
    have hgrown : List.Forall₂ Grown (captures (b :: outer))
        (b.chunk.captures.push ⟨name, source⟩ :: captures outer') :=
      .cons (.push _ _) haround.grown
    refine ⟨⟨out, n, hb, ?_⟩, ⟨{ h with
      room := ?_
      offers := fun x hx => ?_
      leads := fun k x hx => ?_
      boxed := fun x hx m hm o ho => haround.cells_mem hx hm ho }, hl⟩, .push _ _, haround, rfl,
      rfl⟩
    · rw [toNat_capture hroom]
      exact hnew
    · rw [Array.size_push]
      exact hroom
    · rcases Array.mem_push.mp hx with hx | rfl
      · exact haround.offers (h.offers x hx)
      · exact hoffers
    · rw [haround.scopes_eq]
      rcases Nat.lt_or_ge k b.chunk.captures.size with hk | hk
      · rw [Array.getElem?_push_lt hk, ← Array.getElem?_eq_getElem hk] at hx
        obtain ⟨out', n', hb', hc'⟩ := h.leads k x hx
        exact ⟨out', n', hb', captured?_grown hgrown hc'⟩
      · have hlt := (Array.getElem?_eq_some_iff.mp hx).1
        rw [Array.size_push] at hlt
        obtain rfl : k = b.chunk.captures.size := by omega
        rw [Array.getElem?_push_size] at hx
        cases hx
        exact ⟨out, n, hb, hnew⟩
  · cases hadd

theorem Body.mem_addCell (b : Body) (slot n : UInt8) :
    n ∈ (b.addCell slot).cells ↔ n ∈ b.cells ∨ n = slot := by
  unfold Body.addCell
  split
  · rename_i hs
    constructor
    · exact .inl
    · rintro (hn | rfl)
      · exact hn
      · simpa using hs
  · rw [List.mem_cons, or_comm]

theorem Body.addCell_eq (b : Body) (slot : UInt8) : ∃ cells, b.addCell slot = { b with cells } := by
  unfold Body.addCell
  split
  · exact ⟨b.cells, rfl⟩
  · exact ⟨_, rfl⟩

theorem allPlaced_addCell (h : AllPlaced strict space (b :: outer))
    (ho : b.chunk.Open strict slot) : AllPlaced strict space (b.addCell slot :: outer) := by
  have hmem := b.mem_addCell slot
  obtain ⟨cells, hcells⟩ := b.addCell_eq slot
  rw [hcells] at hmem ⊢
  refine ⟨{ h.1 with cells := fun n hn => ?_ }, h.2⟩
  rcases (hmem n).mp hn with hn | rfl
  · exact h.1.cells n hn
  · exact ho

/-- The search for a name as a capture finds the innermost binding in the bodies around. The subject
of a choice is not to be searched for. -/
theorem Body.findCapture_finds (hname : strict → name ≠ subjectName)
    (h : AllPlaced strict space (b :: outer)) : ∀ found b' outer',
      b.findCapture name outer = (found, b', outer') →
        match found with
        | .capture i => b.Finds strict space name outer i b' outer'
        | .unbound => binding? name (scopes outer) = none ∧ b' = b ∧ outer' = outer
        | .full => True := by
  induction outer generalizing b with
  | nil =>
    intro found b' outer' hf
    unfold Body.findCapture at hf
    split at hf
    · rename_i i hi
      cases hf
      exact Body.finds_of_capture? h hi
    · cases hf
      exact ⟨rfl, rfl, rfl⟩
  | cons o outer ih =>
    intro found b' outer' hf
    simp only [Body.findCapture] at hf
    split at hf
    · rename_i i hi
      cases hf
      exact Body.finds_of_capture? h hi
    have hbinding := binding?_cons name o outer
    split at hf
    -- The body right around binds the name, so its slot becomes a cell.
    · rename_i slot hslot
      rw [hslot] at hbinding
      have hopen : o.chunk.Open strict slot :=
        ⟨name, h.2.1.scope _ (Body.slot?_eq_some hslot), hname⟩
      have hcell := allPlaced_addCell h.2 hopen
      have hmem := o.mem_addCell slot
      obtain ⟨cells, hcells⟩ := o.addCell_eq slot
      rw [hcells] at hf hcell hmem
      have haround : Around (b.chunk.captures.push ⟨name, .slot slot⟩) (o :: outer)
          ({ o with cells } :: outer) := by
        refine .cons rfl (.refl _) (fun n => (hmem n).trans ?_) (.refl hcell)
        constructor
        · rintro (hn | rfl)
          · exact .inl hn
          · exact .inr ⟨_, Array.mem_push_self, rfl⟩
        · rintro (hn | ⟨x, hx, hn⟩)
          · exact .inl hn
          rcases Array.mem_push.mp hx with hx | rfl
          · exact .inl (h.1.boxed x hx n hn o rfl)
          · cases hn
            exact .inr rfl
      split at hf
      · rename_i hadd
        cases hf
        exact Body.finds_of_addCapture? h.1 hcell hadd haround ⟨_, rfl, hopen⟩ hbinding rfl
      · cases hf
        trivial
    · rename_i hslot
      rw [hslot] at hbinding
      split at hf
      -- It is a capture of the body right around, which leads on to the binding.
      · rename_i i o' os' hfound
        have hfinds : o.Finds strict space name outer i o' os' := ih h.2 _ _ _ hfound
        obtain ⟨out, n, hb, hc⟩ := hfinds.leads
        rw [hb] at hbinding
        have haround : Around (b.chunk.captures.push ⟨name, .capture i⟩) (o :: outer)
            (o' :: os') := by
          refine .cons hfinds.bare hfinds.grown (fun n => ?_) hfinds.around
          rw [hfinds.cells]
          constructor
          · exact .inl
          · rintro (hn | ⟨x, hx, hn⟩)
            · exact hn
            rcases Array.mem_push.mp hx with hx | rfl
            · exact h.1.boxed x hx n hn o rfl
            · cases hn
        split at hf
        · rename_i hadd
          cases hf
          refine Body.finds_of_addCapture? h.1 hfinds.placed hadd haround
            ⟨_, rfl, captured?_lt hc⟩ hbinding ?_
          simp [captured?, hc]
        · cases hf
          trivial
      · rename_i failure o' os' hfailure hfound
        cases hf
        have hrest := ih h.2 _ _ _ hfound
        cases found with
        | capture i => exact (hfailure i rfl).elim
        | unbound =>
          obtain ⟨hb, rfl, rfl⟩ := hrest
          rw [hb] at hbinding
          exact ⟨hbinding, rfl, rfl⟩
        | full => trivial

section States

variable {s s' : State} {p : Point}

theorem Stands.scopes_eq (h : Stands v s p) :
    scopes (s.body :: s.enclosing) = p.scope :: p.outer := by
  rw [← h.scope, ← h.outer]
  rfl

/-- Nested functions have changed the body, its number of nested functions and the bodies around. -/
theorem Extends.of_bare {literals : List Nest} {us : List Outline} (h : Stands v s p)
    (hp : AllPlaced v.strict v.space (s'.body :: s'.enclosing))
    (hb : s'.body.bare = { s.body.bare with nested := s'.body.nested })
    (hg : Grown s.body.chunk.captures s'.body.chunk.captures)
    (ha : Around s'.body.chunk.captures s.enclosing s'.enclosing)
    (hadds : Adds v s p s' { p with literals := us } literals) :
    Extends v s p s' { p with literals := us } literals := by
  have hscope : s'.body.scope = s.body.scope := congrArg (·.scope) hb
  have hkind : s'.body.kind = s.body.kind := congrArg (·.kind) hb
  have hconstants : s'.body.chunk.constants = s.body.chunk.constants :=
    congrArg (·.chunk.constants) hb
  have hext : Extended s.body.chunk s'.body.chunk :=
    extended_of_bare (b := { s.body with nested := s'.body.nested }) hb hg
  exact { hadds with
    stands := {
      placed := hp
      kind := hkind.trans h.kind
      scope := hscope.trans h.scope
      slots := (congrArg (·.chunk.locals.size) hb).trans h.slots
      depth := (congrArg (·.depth) hb).trans h.depth
      outer := ha.scopes_eq.trans h.outer
      self := by
        rw [hkind, hscope]
        exact h.self }
    kind := hkind
    inLoop := congrArg (·.inLoop) hb
    depth := congrArg (·.depth) hb
    arity := congrArg (·.chunk.arity) hb
    name := congrArg (·.chunk.name) hb
    symbol := congrArg (·.chunk.symbol) hb
    scope := hscope ▸ List.suffix_rfl
    tables := by
      refine ⟨fun n x hx => ?_, hext.symbols⟩
      rw [Chunk.constant?] at hx ⊢
      exact hconstants ▸ hx
    extended := hext
    grown := hg
    around := ha }

/-- The search for the place of a name refuses the body, or finds its innermost binding. -/
theorem storage?_cases (hname : v.strict → name ≠ subjectName) (loc : Location)
    (h : Stands v s p) :
    (∃ problem s', storage? name loc v.ctx s = ((problem, none), s') ∧ problem.Refused) ∨
      (∃ n, storage? name loc v.ctx s = ((.skip, some (.slot n)), s) ∧ ⟨name, n⟩ ∈ s.body.scope ∧
        binding? name (p.scope :: p.outer) = some (0, n)) ∨
      (∃ i s' out n, storage? name loc v.ctx s = ((.skip, some (.capture i)), s') ∧
        Extends v s p s' p [] ∧ s'.body.scope = s.body.scope ∧
        binding? name (p.scope :: p.outer) = some (out + 1, n) ∧
        captured? (captures (s'.body :: s'.enclosing)) i.toNat = some (out + 1, n)) ∨
      storage? name loc v.ctx s = ((.skip, none), s) ∧
        binding? name (p.scope :: p.outer) = none := by
  rw [storage?_run, ← h.scopes_eq, binding?_cons]
  cases hslot : s.body.slot? name with
  | some slot => exact .inr (.inl ⟨slot, rfl, Body.slot?_eq_some hslot, rfl⟩)
  | none =>
    have hfinds := Body.findCapture_finds hname h.placed
    generalize s.body.findCapture name s.enclosing = r at hfinds ⊢
    obtain ⟨found, b, enclosing⟩ := r
    have hfound := hfinds found b enclosing rfl
    cases found with
    | capture i =>
      obtain ⟨out, n, hb, hc⟩ := hfound.leads
      have hnested : b.nested = s.body.nested := congrArg (·.nested) hfound.bare
      have he : Extends v s p { s with body := b, enclosing } p [] :=
        .of_bare h hfound.placed (by rw [hnested]; exact hfound.bare) hfound.grown
          hfound.around (.none hfound.cells rfl hnested rfl)
      exact .inr (.inr (.inl ⟨i, _, out, n, rfl, he, congrArg (·.scope) hfound.bare,
        by rw [hb]; rfl, hc⟩))
    | unbound =>
      obtain ⟨hb, rfl, rfl⟩ := hfound
      exact .inr (.inr (.inr ⟨rfl, by rw [hb]; rfl⟩))
    | full => exact .inl ⟨_, _, rfl, trivial⟩

theorem Point.place?_of_unbound (h : binding? name (p.scope :: p.outer) = none) :
    p.place? space name = match space.resolve? name with
      | some g => some (.global g)
      | none => (Builtin.ofName? name).map fun b => .builtin b.symbol := by
  rw [Point.place?, h, Space.resolve?]
  cases space.globals.get? name <;> rfl

theorem Point.place?_of_bound {out : Nat} (h : binding? name (p.scope :: p.outer) = some (out, n)) :
    p.place? space name = some (.slot out n) := by
  rw [Point.place?, h]

end States

end StackCode.Lowering
