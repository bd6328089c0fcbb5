import StackCode.Proofs.ArrayRefinement

/-! # Dictionaries are finite maps

Whatever is done with collections, a dictionary behaves like a finite map in which equal keys are
the same key. A key that is set last has the value that was set last, and only a new key can be
refused.
-/

namespace StackCode

/-- The entries of a literal, of which the last one of a key counts. -/
def KeyMap.ofEntries (entries : List (Value × Value)) : KeyMap :=
  entries.foldl (fun m e => m.set e.1 e.2) .empty

namespace Collection

open Heap Host

inductive MapOp where
  | get (key : Value)
  | set (key v : Value)
  | remove (key : Value)
  | contains (key : Value)
  | subscript (key : Value)
  | setSubscript (key v : Value)

namespace MapOp

def operation (ref : Handle) : MapOp → Operation
  | get key => call "get" ["any"] [key]
  | set key v => call "set" ["any", "any"] [key, v]
  | remove key => call "remove" ["any"] [key]
  | contains key => call "contains" ["any"] [key]
  | subscript key => .get (.object ref) key
  | setSubscript key v => .set (.object ref) key v
where
  call (name : String) (params : List String) (args : List Value) : Operation :=
    .invoke (.method Symbol.standardModule Standard.dictionaryName name params) ref args

/-- The operation on a map that may have at most so many keys: the result and the new map. -/
def apply (limit : Nat) (m : KeyMap) : MapOp → Option (Value × KeyMap)
  | get key | subscript key => some ((m.find key).getD .none, m)
  | set key v | setSubscript key v =>
    if (m.find key).isNone ∧ m.count = limit then none else some (.none, m.set key v)
  | remove key => some ((m.find key).getD .none, m.erase key)
  | contains key => some (.bool (m.find key).isSome, m)

end MapOp

def Represents (m : KeyMap) (contents : List (List Value)) : Prop :=
  ∃ keys values, contents = [keys, values] ∧ values.length = keys.length ∧
    keys.Pairwise (fun x y => (x == y) = false) ∧ m = Dictionary.columns keys values

theorem Represents.unique {m m' : KeyMap} {contents : List (List Value)}
    (h : Represents m contents) (h' : Represents m' contents) : m = m' := by
  obtain ⟨keys, values, rfl, -, -, rfl⟩ := h
  obtain ⟨_, _, heq, -, -, rfl⟩ := h'
  cases heq
  rfl

variable {keys : List Value}

theorem Unequal.pairwise (hu : Unequal keys) :
    keys.Pairwise fun x y => (x == y) = false := by
  rw [List.pairwise_iff_getElem]
  intro i j hi hj hij
  by_contra hne
  have hsame := hu i j _ _ (List.getElem?_eq_getElem hi) (List.getElem?_eq_getElem hj)
    (Bool.not_eq_false _ ▸ hne)
  omega

theorem Dictionary.columns_putAll (entries : List (Value × Value)) {values : List Value}
    (hlen : values.length = keys.length) :
    columns (putAll keys values entries).1 (putAll keys values entries).2 =
      entries.foldl (fun m e => m.set e.1 e.2) (columns keys values) := by
  induction entries generalizing keys values with
  | nil => rfl
  | cons e entries ih =>
    have hstep : putAll keys values (e :: entries) =
        putAll (put keys values e.1 e.2).1 (put keys values e.1 e.2).2 entries := rfl
    rw [hstep, ih (length_put hlen), columns_put hlen, List.foldl_cons]

theorem Dictionary.columns_find (values : List Value) {key : Value} {found : Option Nat}
    (hf : keys.findIdx? (· == key) = found) :
    (columns keys values).find key = found.bind (values[·]?) := hf ▸ rfl

theorem Dictionary.columns_erase_of_none {values : List Value} {key : Value}
    (hf : keys.findIdx? (· == key) = none) :
    (columns keys values).erase key = columns keys values := by
  apply KeyMap.ext
  · funext q
    change (if q == key then none else (columns keys values).find q) = (columns keys values).find q
    split
    case isTrue hq => exact (columns_find values ((findIdx?_congr hq).trans hf)).symm
    case isFalse => rfl
  · change (if ((columns keys values).find key).isSome then _ else _) = _
    rw [columns_find values hf]
    rfl

section Operations

variable {types : Types} {h : Heap} {ref k w : Handle} {capacity : Nat} {keys values : List Value}

theorem DictionaryAt.represents (hd : DictionaryAt h ref k w capacity keys values)
    (hlt : keys.length < 2 ^ 63) : Represents (Dictionary.columns keys values)
      ((⟨ref, .dictionary⟩ : Instance).contents h) := by
  have hcount : (⟨ref, .dictionary⟩ : Instance).count h = keys.length :=
    Instance.count_eq hd.count_eq hlt
  refine ⟨keys, values, ?_, hd.length_eq, hd.unequal.pairwise, rfl⟩
  rw [Instance.contents, Kind.pointerFields, List.map_cons, List.map_cons, List.map_nil,
    Instance.column_eq hd.keys_eq hd.holdsKeys hcount,
    Instance.column_eq hd.values_eq hd.holdsValues (hcount.trans hd.length_eq.symm)]

theorem invoke_dictionary {name : String} {params : List String} {args : List Value}
    (hlen : args.length = params.length) : Collection.invoke
      (.method Symbol.standardModule Standard.dictionaryName name params) ref args =
        invokeDictionary name ref args := by
  simp [Collection.invoke, Symbol.method, hlen, Standard.dictionaryName, Standard.arrayName]

variable (hd : DictionaryAt h ref k w capacity keys values) (hlt : h.maxBlockSlots < 2 ^ 63)
include hd hlt

theorem DictionaryAt.length_lt : keys.length < 2 ^ 63 := by
  have := hd.holdsKeys.length_le
  have := hd.limit
  omega

theorem dictionary_get_follows (key : Value) : Follows (Dictionary.get ref key) h
    (some (((Dictionary.columns keys values).find key).getD .none, Dictionary.columns keys values))
    fun m h' => m = Dictionary.columns keys values ∧ h' = h := by
  have hl : h.maxBlockSlots < UInt64.size := Nat.lt_trans hlt (by decide)
  refine ⟨h, (bind_of_ok (Dictionary.extent_eq hd (hd.length_lt hlt))).trans
    ((bind_of_ok (hd.find hl key)).trans ?_), rfl, rfl⟩
  unfold Dictionary.columns
  dsimp only
  cases hfound : keys.findIdx? (· == key) with
  | none => rfl
  | some slot =>
    have hslot := Dictionary.lt_of_findIdx? hfound
    have hv := List.getElem?_eq_getElem
      (show slot < values.length by rw [hd.length_eq]; exact hslot)
    rw [Option.bind_some, hv, Option.getD_some]
    exact (bind_of_ok (pointerField_eq hd.values_eq)).trans
      (load_eq hd.holdsValues (hd.capacity_le hl) hv)

theorem dictionary_contains_follows (key : Value) :
    Follows (contains (Dictionary.extent ref) [key]) h
      (some (.bool ((Dictionary.columns keys values).find key).isSome,
        Dictionary.columns keys values))
      fun m h' => m = Dictionary.columns keys values ∧ h' = h := by
  have hl : h.maxBlockSlots < UInt64.size := Nat.lt_trans hlt (by decide)
  rw [Dictionary.find_isSome hd.length_eq]
  exact ⟨h, (bind_of_ok (Dictionary.extent_eq hd (hd.length_lt hlt))).trans
    (bind_of_ok (hd.find hl key)), rfl, rfl⟩

variable (hs : h.Sound)
include hs

theorem dictionary_set_follows (hroom : h.blocks.size < 2 ^ 32) {key v : Value} {m : Host Unit}
    (hm : m h = Dictionary.set ref key v h) : Follows (do m; return .none) h
      ((MapOp.set key v).apply h.maxBlockSlots (Dictionary.columns keys values))
      fun x h' => Represents x ((⟨ref, .dictionary⟩ : Instance).contents h') := by
  have hl : h.maxBlockSlots < UInt64.size := Nat.lt_trans hlt (by decide)
  have hcapacity := Nat.lt_of_le_of_lt hd.limit hlt
  have hnone : ((Dictionary.columns keys values).find key).isNone =
      (keys.findIdx? (· == key)).isNone := by
    rw [← Option.not_isSome, ← Option.not_isSome, Dictionary.find_isSome hd.length_eq]
  unfold MapOp.apply
  dsimp only
  rw [hnone]
  split
  case isTrue hfull =>
    obtain ⟨n, hn⟩ :=
      Dictionary.set_fails hl hd hcapacity (Option.isNone_iff_eq_none.mp hfull.1) hfull.2 v
    exact ⟨_, bind_of_error (hm.trans hn)⟩
  case isFalse hfull =>
    obtain ⟨k', w', capacity', h', hok, hd', hmoves, -⟩ :=
      Dictionary.set_eq hs hl hd (fun _ => hroom) hcapacity key v
      fun hnone he => hfull ⟨Option.isNone_iff_eq_none.mpr hnone, he⟩
    refine ⟨h', (bind_of_ok (hm.trans hok)).trans rfl, ?_⟩
    rw [← Dictionary.columns_put hd.length_eq]
    exact hd'.represents (hd'.length_lt (hmoves.limit ▸ hlt))

theorem dictionary_remove_follows (key : Value) : Follows (Dictionary.remove ref key) h
    ((MapOp.remove key).apply h.maxBlockSlots (Dictionary.columns keys values))
    fun x h' => Represents x ((⟨ref, .dictionary⟩ : Instance).contents h') := by
  have hl : h.maxBlockSlots < UInt64.size := Nat.lt_trans hlt (by decide)
  have hlen := hd.length_lt hlt
  cases hfound : keys.findIdx? (· == key) with
  | none =>
    have hfind := Dictionary.columns_find values hfound
    refine ⟨h, ?_, ?_⟩
    · rw [Dictionary.remove, bind_of_ok (Dictionary.extent_eq hd hlen)]
      dsimp only
      rw [bind_of_ok (hd.find hl key), hfound, hfind]
      rfl
    · rw [Dictionary.columns_erase_of_none hfound]
      exact hd.represents hlen
  | some slot =>
    obtain ⟨h', v, hok, hv, hd', hmoves⟩ := Dictionary.erase_eq hs hl hd hlen hfound
    have hfind := (Dictionary.columns_find values hfound).trans hv
    refine ⟨h', ?_, ?_⟩
    · rw [hok, hfind]
      rfl
    · rw [← Dictionary.columns_swapRemove hd.unequal hd.length_eq hfound]
      exact hd'.represents (hd'.length_lt (hmoves.limit ▸ hlt))

/-- Every operation on a dictionary follows the one on its map. -/
theorem MapOp.follows (hroom : h.blocks.size < 2 ^ 32) (ht : h.type? ref = some types.dictionary)
    (hsymbol : types.dictionary.symbol = Standard.structSymbol Standard.dictionaryName)
    (op : MapOp) : Follows ((op.operation ref).run types) h
      (op.apply h.maxBlockSlots (Dictionary.columns keys values)) fun m h' =>
        Represents m ((⟨ref, .dictionary⟩ : Instance).contents h') := by
  have hread : ∀ (m : KeyMap) (h' : Heap), m = Dictionary.columns keys values ∧ h' = h →
      Represents m ((⟨ref, .dictionary⟩ : Instance).contents h') := by
    rintro _ _ ⟨rfl, rfl⟩
    exact hd.represents (hd.length_lt hlt)
  have hexpect := expect_eq ht hsymbol
  have hcall : ∀ {name : String} {params : List String} {args : List Value},
      args.length = params.length → (operation.call ref name params args).run types h =
        invokeDictionary name ref args h := fun hlen => congrFun (invoke_dictionary hlen) h
  cases op with
  | get key => exact ((dictionary_get_follows hd hlt key).mono hread).of_eq (hcall rfl)
  | set key v => exact (dictionary_set_follows hd hlt hs hroom rfl).of_eq (hcall rfl)
  | remove key => exact (dictionary_remove_follows hd hlt hs key).of_eq (hcall rfl)
  | contains key => exact ((dictionary_contains_follows hd hlt key).mono hread).of_eq (hcall rfl)
  | subscript key =>
    have hrun : Collection.subscript (.object ref) key h = Dictionary.get ref key h :=
      bind_of_ok hexpect
    exact ((dictionary_get_follows hd hlt key).mono hread).of_eq hrun
  | setSubscript key v =>
    have hrun : Collection.setSubscript (.object ref) key v h = Dictionary.set ref key v h :=
      bind_of_ok hexpect
    exact dictionary_set_follows hd hlt hs hroom hrun

omit hs in
theorem Dictionary.full_set_fails {key v : Value}
    (hnew : ((columns keys values).find key).isNone) (hfull : keys.length = h.maxBlockSlots)
    (ht : h.type? ref = some types.dictionary)
    (hsymbol : types.dictionary.symbol = Standard.structSymbol Standard.dictionaryName)
    {op : MapOp} (hop : op ∈ [MapOp.set key v, .setSubscript key v]) :
    ∃ n, (op.operation ref).run types h =
      .error (.trap (.allocationTooLarge n h.maxBlockSlots)) h := by
  have hl : h.maxBlockSlots < UInt64.size := Nat.lt_trans hlt (by decide)
  have hnone : keys.findIdx? (· == key) = none := by
    rwa [← Option.not_isSome, find_isSome hd.length_eq, Option.not_isSome,
      Option.isNone_iff_eq_none] at hnew
  obtain ⟨n, hn⟩ := set_fails hl hd (Nat.lt_of_le_of_lt hd.limit hlt) hnone hfull v
  refine ⟨n, ?_⟩
  rcases List.mem_pair.mp hop with rfl | rfl
  · have hcall := congrFun (@invoke_dictionary ref "set" ["any", "any"] [key, v] rfl) h
    have hset : invokeDictionary "set" ref [key, v] h =
        (do set ref key v; return .none : Host Value) h := rfl
    exact hcall.trans (hset.trans (bind_of_error hn))
  · have hrun : Collection.setSubscript (.object ref) key v h = set ref key v h :=
      bind_of_ok (expect_eq ht hsymbol)
    exact bind_of_error (hrun.trans hn)

end Operations

theorem World.Orderly.dictionaryAt {types : Types} {limit : Nat} {w : World}
    (ho : w.Orderly types limit) (hl : limit < 2 ^ 63)
    (hsymbol : types.dictionary.symbol = Standard.structSymbol Standard.dictionaryName)
    {ref : Handle} (hc : ⟨ref, .dictionary⟩ ∈ w.instances) :
    ∃ k b capacity keys values, DictionaryAt w.heap ref k b capacity keys values ∧
      keys.length < 2 ^ 63 ∧
      ∀ op : MapOp, Follows ((op.operation ref).run types) w.heap
        (op.apply limit (Dictionary.columns keys values)) fun m h' =>
          Represents m ((⟨ref, .dictionary⟩ : Instance).contents h') := by
  have hsize := ho.apart.size_add_two_le ho.room
  have hlt := ho.limit.symm ▸ hl
  obtain ⟨bs, hst⟩ := ho.apart.stands _ hc
  cases hst with
  | dictionary hd =>
    refine ⟨_, _, _, _, _, hd, hd.length_lt hlt, fun op => ?_⟩
    have hrun := MapOp.follows hd hlt ho.apart.sound (by omega) (ho.typed _ hc) hsymbol op
    rwa [ho.limit] at hrun

/-- After any operations on collections, in a heap with a limit below `2 ^ 63` and a handle for
every block. A new dictionary is the map of its entries, of which the last one of a key counts, or
is refused if they are too many. Every dictionary has keys of which no two are equal, and stands for
the map from them to their values. Every operation on the dictionary gives what it gives on the map,
where only a new key is refused, and only when there are as many keys as a block may have slots;
then the heap stays as it was. So it goes on for whole histories, whatever is done in between with
other collections. -/
theorem dictionaries_refine_maps {types : Types}
    (hsymbol : types.dictionary.symbol = Standard.structSymbol Standard.dictionaryName)
    (harray : 3 ≤ types.array.propertyCount) (hdictionary : 4 ≤ types.dictionary.propertyCount)
    {limit : Nat} (hl : limit < 2 ^ 63) {ops : List Operation} (hops : ∀ op ∈ ops, op.Countable)
    {w : World} (hw : w = World.after types limit ops) (hroom : w.Roomy) :
    (∀ entries, if max entries.length 4 ≤ limit then
        ∃ ref h', (Operation.newDictionary entries).run types w.heap = .ok (.object ref) h' ∧
          w.heap.objects.get? ref = none ∧
          Represents (.ofEntries entries) ((⟨ref, .dictionary⟩ : Instance).contents h')
      else (Operation.newDictionary entries).run types w.heap =
        .error (.trap (.allocationTooLarge (max entries.length 4) limit)) w.heap) ∧
    ∀ ref, ⟨ref, .dictionary⟩ ∈ w.instances →
      ∃ m, Represents m ((⟨ref, .dictionary⟩ : Instance).contents w.heap) ∧
      w.heap.field? ref Dictionary.countField = some (sizeValue m.count) ∧
      (∀ op : MapOp, Follows ((op.operation ref).run types) w.heap (op.apply limit m)
        fun m' h' => Represents m' ((⟨ref, .dictionary⟩ : Instance).contents h')) ∧
      (∀ key v, (m.find key).isNone → m.count = limit →
        ∀ op ∈ [MapOp.set key v, .setSubscript key v], ∃ n, (op.operation ref).run types w.heap =
          .error (.trap (.allocationTooLarge n limit)) w.heap) ∧
      ∀ events : List (Event MapOp), (∀ e ∈ events, e.Fair ⟨ref, .dictionary⟩) →
        (World.after types limit (ops ++ events.map (·.operation (MapOp.operation ref)))).Roomy →
        Represents (events.foldl (Event.effect (MapOp.apply limit)) m)
          ((⟨ref, .dictionary⟩ : Instance).contents (World.after types limit
            (ops ++ events.map (·.operation (MapOp.operation ref)))).heap) := by
  have ho : w.Orderly types limit := by
    subst hw
    exact World.orderly_after harray hdictionary (Nat.lt_trans hl (by decide)) hops hroom
  refine ⟨fun entries => ?_, fun ref hc => ?_⟩
  · have hsize := ho.apart.size_add_two_le hroom
    have hobjects := ho.apart.objects_size_le
    split
    case isTrue hfits =>
      have hfits : max entries.length minCapacity ≤ w.heap.maxBlockSlots := ho.limit.symm ▸ hfits
      obtain ⟨ref, k, b, h', hok, hnew, hd, hm, -⟩ := Dictionary.create_eq ho.apart.sound (by omega)
        (by omega) ho.apart.limit hdictionary (by omega) hfits
      have hrep := hd.represents (hd.length_lt (hm.limit ▸ ho.limit.symm ▸ hl))
      rw [Dictionary.columns_putAll entries rfl] at hrep
      exact ⟨ref, h', hok, hnew, hrep⟩
    case isFalse hfits =>
      have hfails : Dictionary.create types.dictionary entries _ = _ :=
        Dictionary.create_fails (ho.limit.symm ▸ hfits)
      rwa [ho.limit] at hfails
  · obtain ⟨k, b, capacity, keys, values, hd, hlen, hrun⟩ := ho.dictionaryAt hl hsymbol hc
    refine ⟨_, hd.represents hlen, hd.count_eq, hrun, ?_, ?_⟩
    · intro key v hnew hfull op hop
      have hfails := Dictionary.full_set_fails hd (ho.limit.symm ▸ hl) hnew
        (hfull.trans ho.limit.symm) (ho.typed _ hc) hsymbol (v := v) hop
      rwa [ho.limit] at hfails
    · intro events hfair hroom
      rw [World.after, List.foldl_append, ← World.after, ← hw] at hroom ⊢
      refine World.foldl_effects Represents harray hdictionary (fun op => ?_)
        (fun w ho hc x hx op => ?_) hfair ho hroom hc (hd.represents hlen)
      · cases op <;> trivial
      · obtain ⟨k, b, capacity, keys, values, hd, hlen, hrun⟩ := ho.dictionaryAt hl hsymbol hc
        rw [hx.unique (hd.represents hlen)]
        exact hrun op

def mapEvents : List (Event MapOp) :=
  [.own (.set (.int 8) (.int 1)), .other (.set (.object ⟨0, 0⟩) (.int 0) (.int 9)),
    .own (.setSubscript (.int 8) (.int 2)), .own (.remove (.int 1))]

theorem dictionaries_refine_maps_growing :
    standardTypes.dictionary.symbol = Standard.structSymbol Standard.dictionaryName ∧
    3 ≤ standardTypes.array.propertyCount ∧ 4 ≤ standardTypes.dictionary.propertyCount ∧
    (∀ op ∈ growing, op.Countable) ∧
    ∃ m, Represents m
        ((⟨⟨1, 0⟩, .dictionary⟩ : Instance).contents (World.after standardTypes 6 growing).heap) ∧
      Represents (mapEvents.foldl (Event.effect (MapOp.apply 6)) m)
        ((⟨⟨1, 0⟩, .dictionary⟩ : Instance).contents (World.after standardTypes 6
          (growing ++ mapEvents.map (·.operation (MapOp.operation ⟨1, 0⟩)))).heap) := by
  have hops : ∀ op ∈ growing, op.Countable := by simp [growing, Operation.Countable]
  have hfair : ∀ e ∈ mapEvents, e.Fair ⟨⟨1, 0⟩, .dictionary⟩ := by
    simp [mapEvents, Event.Fair, Operation.Countable, Operation.target?]
  have hmem : ⟨⟨1, 0⟩, .dictionary⟩ ∈ (World.after standardTypes 6 growing).instances := by
    decide +kernel
  obtain ⟨-, hdictionaries⟩ := @dictionaries_refine_maps standardTypes rfl (by decide) (by decide) 6
    (by decide) growing hops _ rfl (by decide +kernel)
  obtain ⟨m, hm, -, -, -, hevents⟩ := hdictionaries ⟨1, 0⟩ hmem
  exact ⟨rfl, by decide, by decide, hops, m, hm, hevents mapEvents hfair (by decide +kernel)⟩

end Collection

end StackCode
