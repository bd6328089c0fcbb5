import StackCode.Proofs.Separation

/-! # Arrays are lists

Whatever is done with collections, an array behaves like the list of its elements: an operation on
it gives what the same operation on the list gives, and fails, without a change, where the list has
no such element or has reached the limit.
-/

namespace StackCode

theorem Heap.Holds.column {h : Heap} {b : Handle} {capacity : Nat} {vs : List Value}
    (hh : h.Holds b capacity vs) {block : Block}
    (hb : h.blocks.get? b = some block) : (block.toList.take vs.length).reduceOption = vs := by
  obtain ⟨block', hb', -, hvs⟩ := hh
  cases hb.symm.trans hb'
  have htake : block.toList.take vs.length = vs.map some := by
    apply List.ext_getElem?
    intro i
    rw [List.getElem?_take, List.getElem?_map]
    split
    · rename_i hi
      have hv := hvs i _ (List.getElem?_eq_getElem hi)
      rw [List.getElem?_eq_getElem hi, Array.getElem?_toList, hv]
      rfl
    · rename_i hi
      rw [List.getElem?_eq_none (Nat.le_of_not_lt hi)]
      rfl
  rw [htake]
  exact List.filterMap_map.trans List.filterMap_some

namespace Collection

open Heap Host

/-! ## Histories of one collection -/

/-- The operation does what is expected and leaves a heap as told. Where nothing is expected it
traps and leaves the heap as it was. -/
def Follows {σ : Type} (m : Host Value) (h : Heap) (expected : Option (Value × σ))
    (Q : σ → Heap → Prop) : Prop :=
  match expected with
  | some (r, x) => ∃ h', m h = .ok r h' ∧ Q x h'
  | none => ∃ cause, m h = .error (.trap cause) h

variable {h : Heap}

theorem Follows.mono {σ : Type} {m : Host Value} {expected : Option (Value × σ)}
    {Q Q' : σ → Heap → Prop} (hf : Follows m h expected Q) (hQ : ∀ x h', Q x h' → Q' x h') :
    Follows m h expected Q' := by
  cases expected with
  | none => exact hf
  | some e =>
    obtain ⟨h', hok, hx⟩ := hf
    exact ⟨h', hok, hQ _ _ hx⟩

theorem Follows.of_eq {σ : Type} {m m' : Host Value} {expected : Option (Value × σ)}
    {Q : σ → Heap → Prop} (hf : Follows m h expected Q) (hm : m' h = m h) :
    Follows m' h expected Q := by
  unfold Follows at hf ⊢
  rwa [hm]

/-- What happens while a collection is there: an operation on it, or another one. -/
inductive Event (α : Type) where
  | own (op : α)
  | other (op : Operation)

namespace Event

variable {α σ : Type}

def operation (own : α → Operation) : Event α → Operation
  | .own op => own op
  | .other op => op

def Fair (c : Instance) : Event α → Prop
  | .own _ => True
  | .other op => op.Countable ∧ op.target? ≠ some c.ref

def effect (apply : σ → α → Option (Value × σ)) (x : σ) : Event α → σ
  | .own op => ((apply x op).map (·.2)).getD x
  | .other _ => x

end Event

section Histories

variable {types : Types} {limit : Nat} {c : Instance}

/-- What every operation on a collection does to its meaning, a whole history does step by step. -/
theorem World.foldl_effects {α σ : Type} {own : α → Operation} {apply : σ → α → Option (Value × σ)}
    (view : σ → List (List Value) → Prop) (harray : 3 ≤ types.array.propertyCount)
    (hdictionary : 4 ≤ types.dictionary.propertyCount) (hown : ∀ op, (own op).Countable)
    (hstep : ∀ w : World, w.Orderly types limit → c ∈ w.instances →
      ∀ x, view x (c.contents w.heap) → ∀ op, Follows ((own op).run types) w.heap (apply x op)
        fun x' h' => view x' (c.contents h'))
    {events : List (Event α)} (hfair : ∀ e ∈ events, e.Fair c) {w : World}
    (hw : w.Orderly types limit)
    (hroom : ((events.map (·.operation own)).foldl (World.next types) w).Roomy)
    (hc : c ∈ w.instances) {x : σ} (hx : view x (c.contents w.heap)) :
    view (events.foldl (Event.effect apply) x)
      (c.contents ((events.map (·.operation own)).foldl (World.next types) w).heap) := by
  induction events generalizing w x with
  | nil => exact hx
  | cons e events ih =>
    obtain ⟨hfair₁, hfair⟩ := List.forall_mem_cons.mp hfair
    have hcount : (e.operation own).Countable := by
      cases e with
      | own op => exact hown op
      | other op => exact hfair₁.1
    obtain ⟨made, hmade, hv⟩ := World.next_advances harray hdictionary hw.apart hw.room hcount
    have hview : view (e.effect apply x) (c.contents (w.next types (e.operation own)).heap) := by
      cases e with
      | other op =>
        rw [hv.contents_eq hw.apart hc hfair₁.2]
        exact hx
      | own op =>
        have hrun := hstep w hw hc x hx op
        change view (((apply x op).map (·.2)).getD x) (c.contents (w.next types (own op)).heap)
        unfold World.next
        cases hexp : apply x op with
        | none =>
          rw [hexp] at hrun
          obtain ⟨cause, herr⟩ := hrun
          rw [herr]
          exact hx
        | some r =>
          rw [hexp] at hrun
          obtain ⟨h', hok, hx'⟩ := hrun
          rw [hok]
          exact hx'
    rw [List.map_cons, List.foldl_cons] at hroom
    refine ih hfair (hw.next harray hdictionary hcount hroom.of_foldl) hroom ?_ hview
    rw [hmade]
    exact List.mem_append_right _ hc

end Histories

/-! ## Operations on an array and on a list -/

inductive ListOp where
  | append (v : Value)
  | get (index : Value)
  | set (index v : Value)
  | remove (index : Value)
  | contains (v : Value)
  | subscript (index : Value)
  | setSubscript (index v : Value)

namespace ListOp

def operation (ref : Handle) : ListOp → Operation
  | append v => call "append" ["any"] [v]
  | get index => call "get" ["int"] [index]
  | set index v => call "set" ["int", "any"] [index, v]
  | remove index => call "remove" ["int"] [index]
  | contains v => call "contains" ["any"] [v]
  | subscript index => .get (.object ref) index
  | setSubscript index v => .set (.object ref) index v
where
  call (name : String) (params : List String) (args : List Value) : Operation :=
    .invoke (.method Symbol.standardModule Standard.arrayName name params) ref args

/-- The operation on a list that may have at most so many elements: the result and the new list. -/
def apply (limit : Nat) (vs : List Value) : ListOp → Option (Value × List Value)
  | append v => if vs.length = limit then none else some (.none, vs ++ [v])
  | get index | subscript index => (natural? index).bind fun i => vs[i]?.map (·, vs)
  | set index v | setSubscript index v =>
    (natural? index).bind fun i => if i < vs.length then some (.none, vs.set i v) else none
  | remove index => (natural? index).bind fun i => vs[i]?.map (·, vs.eraseIdx i)
  | contains v => some (.bool (vs.any (· == v)), vs)

end ListOp

section Steps

variable {h : Heap} {ref b : Handle} {capacity : Nat} {vs : List Value}

theorem Instance.count_eq {c : Instance} {n : Nat}
    (hn : h.field? c.ref c.kind.countField = some (sizeValue n)) (hlt : n < 2 ^ 63) :
    c.count h = n := by
  have hint : (Int64.ofNat n).toInt = n := Int64.toInt_ofNat_of_lt hlt
  rw [Instance.count, hn]
  simp [sizeValue, hint]

theorem Instance.column_eq {c : Instance} {n : Nat} (hp : h.field? c.ref n = some (.pointer ⟨b, 0⟩))
    (hh : h.Holds b capacity vs) (hcount : c.count h = vs.length) : c.column h n = vs := by
  obtain ⟨block, hb, -⟩ := id hh
  rw [Instance.column, Instance.pointer?_eq hp, hcount, Option.bind_some, hb, Option.getD_some]
  exact hh.column hb

theorem ArrayAt.contents_eq (ha : ArrayAt h ref b capacity vs) (hlt : vs.length < 2 ^ 63) :
    (⟨ref, .array⟩ : Instance).contents h = [vs] :=
  congrArg (· :: []) (Instance.column_eq ha.storage_eq ha.holds (Instance.count_eq ha.count_eq hlt))

variable (ha : ArrayAt h ref b capacity vs) (hlt : h.maxBlockSlots < 2 ^ 63)
include ha hlt

theorem ArrayAt.length_lt : vs.length < 2 ^ 63 := by
  have := ha.holds.length_le
  have := ha.limit
  omega

/-- An operation on the slot that an index names follows what happens to the element there. -/
theorem follows_slot {rest : Nat → Nat → Host Value} {index : Value}
    {f : Nat → Option (Value × List Value)} {Q : List Value → Heap → Prop}
    (hout : ∀ i, vs.length ≤ i → f i = none)
    (hrest : ∀ i < vs.length, Follows (rest vs.length i) h (f i) Q) :
    Follows (do
      let count ← sizeField ref Array.countField
      rest count (← checkedIndex index count)) h ((natural? index).bind f) Q := by
  have hcount := sizeField_eq ha.count_eq (ha.length_lt hlt)
  rcases checkedIndex_cases index vs.length h with ⟨i, hn, hi, hok⟩ | ⟨hn, cause, hfails⟩
  · have hrun := hrest i hi
    rw [hn, Option.bind_some]
    unfold Follows at hrun ⊢
    rwa [bind_of_ok hcount, bind_of_ok hok]
  · have hnone : (natural? index).bind f = none :=
      Option.bind_eq_none_iff.mpr fun i hi => hout i (hn i hi)
    rw [hnone]
    exact ⟨cause, (bind_of_ok hcount).trans (bind_of_error hfails)⟩

end Steps

theorem expect_eq {ref : Handle} {type : StructType} {name : String} (ht : h.type? ref = some type)
    (hsymbol : type.symbol = Standard.structSymbol name) :
    expect (.object ref) h = .ok (ref, name) h := by
  obtain ⟨o, ho, rfl⟩ := Option.map_eq_some_iff.mp ht
  have hobject : Host.access (Heap.object ref) h = .ok o h := by
    simp only [Host.access, Heap.object, ho]
  have hstandard : o.type.symbol.isStandard = true := by rw [hsymbol]; rfl
  have hname : o.type.name = name := by rw [StructType.name, hsymbol]; rfl
  unfold expect
  dsimp only
  rw [bind_of_ok hobject, if_pos hstandard, hname]
  rfl

section Operations

variable {types : Types} {h : Heap} {ref b : Handle} {capacity : Nat} {vs : List Value}

theorem invoke_array {name : String} {params : List String} {args : List Value}
    (hlen : args.length = params.length) : Collection.invoke
      (.method Symbol.standardModule Standard.arrayName name params) ref args =
        invokeArray name ref args := by
  simp [Collection.invoke, Symbol.method, hlen]

variable (ha : ArrayAt h ref b capacity vs) (hlt : h.maxBlockSlots < 2 ^ 63)
include ha hlt

theorem get_follows (index : Value) : Follows (Array.get ref index) h
    ((natural? index).bind fun i => vs[i]?.map (·, vs)) fun vs' h' => vs' = vs ∧ h' = h := by
  have hlimit := ha.limit
  refine follows_slot ha hlt (fun i hi => ?_) fun i hi => ?_
  · rw [List.getElem?_eq_none hi]
    rfl
  · rw [List.getElem?_eq_getElem hi, Option.map_some]
    exact ⟨h, (bind_of_ok (pointerField_eq ha.storage_eq)).trans (load_eq ha.holds
      (Nat.le_trans hlimit (Nat.le_of_lt (Nat.lt_trans hlt (by decide))))
      (List.getElem?_eq_getElem hi)), rfl, rfl⟩

theorem contains_follows (v : Value) : Follows (contains (Array.extent ref) [v]) h
    (some (.bool (vs.any (· == v)), vs)) fun vs' h' => vs' = vs ∧ h' = h := by
  have hextent : Array.extent ref h = .ok (⟨b, 0⟩, vs.length) h :=
    (bind_of_ok (sizeField_eq ha.count_eq (ha.length_lt hlt))).trans
      (bind_of_ok (pointerField_eq ha.storage_eq))
  have hfind : findSlot ⟨b, 0⟩ v 0 vs.length h = .ok (vs.findIdx? (· == v)) h :=
    findSlot_start ha.holds (Nat.le_trans ha.limit (Nat.le_of_lt (Nat.lt_trans hlt (by decide))))
  refine ⟨h, (bind_of_ok hextent).trans ((bind_of_ok hfind).trans ?_), rfl, rfl⟩
  rw [List.findIdx?_isSome]
  rfl

variable (hs : h.Sound)
include hs

theorem set_follows {index v : Value} {m : Host Unit} (hm : m h = Array.set ref index v h) :
    Follows (do m; return .none) h
      ((natural? index).bind fun i => if i < vs.length then some (.none, vs.set i v) else none)
      fun vs' h' => ArrayAt h' ref b capacity vs' := by
  have hcount := sizeField_eq ha.count_eq (ha.length_lt hlt)
  rcases checkedIndex_cases index vs.length h with ⟨i, hn, hi, hok⟩ | ⟨hn, cause, hfails⟩
  · obtain ⟨h', hset, ha', -⟩ := Array.replace_eq hs (Nat.lt_trans hlt (by decide)) ha hi v
    rw [hn, Option.bind_some, if_pos hi]
    exact ⟨h', (bind_of_ok (hm.trans ((bind_of_ok hcount).trans
      ((bind_of_ok hok).trans hset)))).trans
      rfl, ha'⟩
  · rw [Option.bind_eq_none_iff.mpr fun i hi => if_neg (Nat.not_lt.mpr (hn i hi))]
    exact ⟨cause, bind_of_error (hm.trans ((bind_of_ok hcount).trans (bind_of_error hfails)))⟩

theorem remove_follows (index : Value) : Follows (Array.remove ref index) h
    ((natural? index).bind fun i => vs[i]?.map (·, vs.eraseIdx i))
    fun vs' h' => ArrayAt h' ref b capacity vs' := by
  refine follows_slot ha hlt (fun i hi => ?_) fun i hi => ?_
  · rw [List.getElem?_eq_none hi]
    rfl
  · rw [List.getElem?_eq_getElem hi, Option.map_some]
    obtain ⟨h', hok, ha', -⟩ := Array.erase_eq hs (Nat.lt_trans hlt (by decide)) ha hi
    exact ⟨h', hok, ha'⟩

theorem append_follows (hroom : h.blocks.size < 2 ^ 32) (v : Value) :
    Follows (do Array.append ref v; return .none) h
    (if vs.length = h.maxBlockSlots then none else some (.none, vs ++ [v]))
    fun vs' h' => ∃ b' capacity', ArrayAt h' ref b' capacity' vs' ∧ vs'.length < 2 ^ 63 := by
  have hcapacity := Nat.lt_of_le_of_lt ha.limit hlt
  by_cases hfull : vs.length = h.maxBlockSlots
  · rw [if_pos hfull]
    obtain ⟨n, hn⟩ := Array.append_fails ha hcapacity hfull v
    exact ⟨_, bind_of_error hn⟩
  · rw [if_neg hfull]
    obtain ⟨b', capacity', h', hok, ha', hm⟩ :=
      Array.append_eq hs (Nat.lt_trans hlt (by decide)) ha hroom hcapacity hfull v
    exact ⟨h', (bind_of_ok hok).trans rfl, b', capacity', ha', ha'.length_lt (hm.limit ▸ hlt)⟩

/-- Every operation on an array follows the one on its list. -/
theorem ListOp.follows (hroom : h.blocks.size < 2 ^ 32) (ht : h.type? ref = some types.array)
    (hsymbol : types.array.symbol = Standard.structSymbol Standard.arrayName) (op : ListOp) :
    Follows ((op.operation ref).run types) h (op.apply h.maxBlockSlots vs) fun vs' h' =>
      (⟨ref, .array⟩ : Instance).contents h' = [vs'] := by
  have hread : ∀ (vs' : List Value) (h' : Heap), vs' = vs ∧ h' = h →
      (⟨ref, .array⟩ : Instance).contents h' = [vs'] := by
    rintro _ _ ⟨rfl, rfl⟩
    exact ha.contents_eq (ha.length_lt hlt)
  have hchange : ∀ (vs' : List Value) (h' : Heap), ArrayAt h' ref b capacity vs' →
      (⟨ref, .array⟩ : Instance).contents h' = [vs'] := by
    intro vs' h' ha'
    have hlen := ha'.holds.length_le
    have hlimit := ha.limit
    exact ha'.contents_eq (by omega)
  have hexpect := expect_eq ht hsymbol
  have hcall : ∀ {name : String} {params : List String} {args : List Value},
      args.length = params.length → (operation.call ref name params args).run types h =
        invokeArray name ref args h := fun hlen => congrFun (invoke_array hlen) h
  cases op with
  | append v =>
    refine ((append_follows ha hlt hs hroom v).mono ?_).of_eq (hcall rfl)
    rintro vs' h' ⟨b', capacity', ha', hlen⟩
    exact ha'.contents_eq hlen
  | get index => exact ((get_follows ha hlt index).mono hread).of_eq (hcall rfl)
  | set index v => exact ((set_follows ha hlt hs rfl).mono hchange).of_eq (hcall rfl)
  | remove index => exact ((remove_follows ha hlt hs index).mono hchange).of_eq (hcall rfl)
  | contains v => exact ((contains_follows ha hlt v).mono hread).of_eq (hcall rfl)
  | subscript index =>
    have hrun : Collection.subscript (.object ref) index h = Array.get ref index h :=
      bind_of_ok hexpect
    exact ((get_follows ha hlt index).mono hread).of_eq hrun
  | setSubscript index v =>
    have hrun : Collection.setSubscript (.object ref) index v h = Array.set ref index v h :=
      bind_of_ok hexpect
    exact (set_follows ha hlt hs hrun).mono hchange

end Operations

theorem World.Orderly.arrayAt {types : Types} {limit : Nat} {w : World}
    (ho : w.Orderly types limit) (hl : limit < 2 ^ 63)
    (hsymbol : types.array.symbol = Standard.structSymbol Standard.arrayName) {ref : Handle}
    (hc : ⟨ref, .array⟩ ∈ w.instances) :
    ∃ b capacity vs, ArrayAt w.heap ref b capacity vs ∧ vs.length < 2 ^ 63 ∧
      ∀ op : ListOp, Follows ((op.operation ref).run types) w.heap (op.apply limit vs)
        fun vs' h' => (⟨ref, .array⟩ : Instance).contents h' = [vs'] := by
  have hsize := ho.apart.size_add_two_le ho.room
  have hlt := ho.limit.symm ▸ hl
  obtain ⟨bs, hst⟩ := ho.apart.stands _ hc
  cases hst with
  | array harr =>
    refine ⟨_, _, _, harr, harr.length_lt hlt, fun op => ?_⟩
    have hrun := ListOp.follows harr hlt ho.apart.sound (by omega) (ho.typed _ hc) hsymbol op
    rwa [ho.limit] at hrun

/-- After any operations on collections, in a heap with a limit below `2 ^ 63` and a handle for
every block. A new array has the given elements, or is refused if they and the least capacity are
too many. Every array holds a list: its count is the length of the list, its capacity is the size of
its block and not less. Every operation on the array gives what it gives on the list, or traps and
leaves the heap as it was where the list has no answer; and so it goes on for whole histories,
whatever is done in between with other collections. -/
theorem arrays_refine_lists {types : Types}
    (hsymbol : types.array.symbol = Standard.structSymbol Standard.arrayName)
    (harray : 3 ≤ types.array.propertyCount) (hdictionary : 4 ≤ types.dictionary.propertyCount)
    {limit : Nat} (hl : limit < 2 ^ 63) {ops : List Operation} (hops : ∀ op ∈ ops, op.Countable)
    {w : World} (hw : w = World.after types limit ops) (hroom : w.Roomy) :
    (∀ vs, if max vs.length 4 ≤ limit then
        ∃ ref h', (Operation.newArray vs).run types w.heap = .ok (.object ref) h' ∧
          w.heap.objects.get? ref = none ∧ (⟨ref, .array⟩ : Instance).contents h' = [vs]
      else (Operation.newArray vs).run types w.heap =
        .error (.trap (.allocationTooLarge (max vs.length 4) limit)) w.heap) ∧
    ∀ ref, ⟨ref, .array⟩ ∈ w.instances → ∃ vs, (⟨ref, .array⟩ : Instance).contents w.heap = [vs] ∧
      w.heap.field? ref Array.countField = some (sizeValue vs.length) ∧
      (∃ b block, w.heap.field? ref Array.storageField = some (.pointer ⟨b, 0⟩) ∧
        w.heap.blocks.get? b = some block ∧ vs.length ≤ block.size ∧
        w.heap.field? ref Array.capacityField = some (sizeValue block.size)) ∧
      (∀ op : ListOp, Follows ((op.operation ref).run types) w.heap (op.apply limit vs)
        fun vs' h' => (⟨ref, .array⟩ : Instance).contents h' = [vs']) ∧
      ∀ events : List (Event ListOp), (∀ e ∈ events, e.Fair ⟨ref, .array⟩) →
        (World.after types limit (ops ++ events.map (·.operation (ListOp.operation ref)))).Roomy →
        (⟨ref, .array⟩ : Instance).contents
          (World.after types limit (ops ++ events.map (·.operation (ListOp.operation ref)))).heap =
            [events.foldl (Event.effect (ListOp.apply limit)) vs] := by
  have ho : w.Orderly types limit := by
    subst hw
    exact World.orderly_after harray hdictionary (Nat.lt_trans hl (by decide)) hops hroom
  refine ⟨fun vs => ?_, fun ref hc => ?_⟩
  · have hsize := ho.apart.size_add_two_le hroom
    have hobjects := ho.apart.objects_size_le
    split
    case isTrue hfits =>
      obtain ⟨ref, b, h', hok, hnew, harr, hm, -⟩ := Array.create_eq ho.apart.sound (by omega)
        (by omega) ho.apart.limit harray vs (ho.limit.symm ▸ hfits)
      exact ⟨ref, h', hok, hnew, harr.contents_eq (by omega)⟩
    case isFalse hfits =>
      have hfails : Array.create types.array vs _ = _ := Array.create_fails (ho.limit.symm ▸ hfits)
      rwa [ho.limit] at hfails
  · obtain ⟨b, capacity, vs, harr, hlen, hrun⟩ := ho.arrayAt hl hsymbol hc
    obtain ⟨block, hb, rfl, -⟩ := id harr.holds
    refine ⟨vs, harr.contents_eq hlen, harr.count_eq,
      ⟨b, block, harr.storage_eq, hb, harr.holds.length_le, harr.capacity_eq⟩, hrun, ?_⟩
    intro events hfair hroom
    rw [World.after, List.foldl_append, ← World.after, ← hw] at hroom ⊢
    refine World.foldl_effects (fun vs contents => contents = [vs]) harray hdictionary
      (fun op => ?_) (fun w ho hc x hx op => ?_) hfair ho hroom hc (harr.contents_eq hlen)
    · cases op <;> trivial
    · obtain ⟨b, capacity, vs, harr, hlen, hrun⟩ := ho.arrayAt hl hsymbol hc
      cases hx.symm.trans (harr.contents_eq hlen)
      exact hrun op

def listEvents : List (Event ListOp) :=
  [.own (.append (.int 6)), .other (.set (.object ⟨1, 0⟩) (.int 9) (.int 9)),
   .own (.remove (.int 0))]

theorem arrays_refine_lists_growing :
    standardTypes.array.symbol = Standard.structSymbol Standard.arrayName ∧
    3 ≤ standardTypes.array.propertyCount ∧ 4 ≤ standardTypes.dictionary.propertyCount ∧
    (∀ op ∈ growing, op.Countable) ∧
    ∃ vs, (⟨⟨0, 0⟩, .array⟩ : Instance).contents (World.after standardTypes 6 growing).heap = [vs] ∧
      (⟨⟨0, 0⟩, .array⟩ : Instance).contents (World.after standardTypes 6
        (growing ++ listEvents.map (·.operation (ListOp.operation ⟨0, 0⟩)))).heap =
          [listEvents.foldl (Event.effect (ListOp.apply 6)) vs] := by
  have hops : ∀ op ∈ growing, op.Countable := by simp [growing, Operation.Countable]
  have hfair : ∀ e ∈ listEvents, e.Fair ⟨⟨0, 0⟩, .array⟩ := by
    simp [listEvents, Event.Fair, Operation.Countable, Operation.target?]
  have hmem : ⟨⟨0, 0⟩, .array⟩ ∈ (World.after standardTypes 6 growing).instances := by
    decide +kernel
  obtain ⟨-, harrays⟩ := @arrays_refine_lists standardTypes rfl (by decide) (by decide)
    6 (by decide)
    growing hops _ rfl (by decide +kernel)
  obtain ⟨vs, hvs, -, -, -, hevents⟩ := harrays ⟨0, 0⟩ hmem
  exact ⟨rfl, by decide, by decide, hops, vs, hvs,
    hevents listEvents hfair (by decide +kernel)⟩

end Collection

end StackCode
