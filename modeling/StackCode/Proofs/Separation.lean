import StackCode.Proofs.CollectionStorage

/-! # Collections stay apart

Operations on collections, done one after another from the empty heap. Whether they succeed or fail,
every block belongs to exactly one collection, and an operation on one collection is not seen in
another.
-/

namespace StackCode.Collection

open Heap Host

inductive Kind where
  | array
  | dictionary
deriving DecidableEq

namespace Kind

def pointerFields : Kind → List Nat
  | array => [Array.storageField]
  | dictionary => [Dictionary.keysField, Dictionary.valuesField]

def type (types : Types) : Kind → StructType
  | array => types.array
  | dictionary => types.dictionary

def countField : Kind → Nat
  | array => Array.countField
  | dictionary => Dictionary.countField

end Kind

structure Instance where
  ref : Handle
  kind : Kind
deriving DecidableEq

namespace Instance

variable {c d : Instance} {h h' : Heap} {bs bs' own own' : List Handle} {ref : Handle}

def pointer? (c : Instance) (h : Heap) (n : Nat) : Option Pointer :=
  match h.field? c.ref n with
  | some (.pointer p) => some p
  | _ => none

def blocks (c : Instance) (h : Heap) : List Handle :=
  c.kind.pointerFields.filterMap fun n => (c.pointer? h n).map (·.block)

def count (c : Instance) (h : Heap) : Nat :=
  match h.field? c.ref c.kind.countField with
  | some (.int n) => n.toInt.toNat
  | _ => 0

def column (c : Instance) (h : Heap) (n : Nat) : List Value :=
  let block := ((c.pointer? h n).bind fun p => h.blocks.get? p.block).getD #[]
  (block.toList.take (c.count h)).reduceOption

def contents (c : Instance) (h : Heap) : List (List Value) := c.kind.pointerFields.map (c.column h)

/-- The collection is in order, in the given blocks. -/
inductive Stands (h : Heap) : Instance → List Handle → Prop where
  | array {ref b : Handle} {capacity : Nat} {vs : List Value}
      (ha : ArrayAt h ref b capacity vs) : Stands h ⟨ref, .array⟩ [b]
  | dictionary {ref k w : Handle} {capacity : Nat} {keys values : List Value}
      (hd : DictionaryAt h ref k w capacity keys values) : Stands h ⟨ref, .dictionary⟩ [k, w]

theorem pointer?_eq {p : Pointer} {n : Nat} (hp : h.field? c.ref n = some (.pointer p)) :
    c.pointer? h n = some p := by
  rw [pointer?, hp]

namespace Stands

theorem pointers (hc : Stands h c bs) :
    c.kind.pointerFields.map (h.field? c.ref) = bs.map fun b => some (.pointer ⟨b, 0⟩) := by
  cases hc with
  | array ha => simp [Kind.pointerFields, ha.storage_eq]
  | dictionary hd => simp [Kind.pointerFields, hd.keys_eq, hd.values_eq]

theorem blocks_eq (hc : Stands h c bs) : c.blocks h = bs := by
  cases hc with
  | array ha => simp [blocks, Kind.pointerFields, pointer?, ha.storage_eq]
  | dictionary hd => simp [blocks, Kind.pointerFields, pointer?, hd.keys_eq, hd.values_eq]

theorem length_eq (hc : Stands h c bs) : bs.length = c.kind.pointerFields.length := by
  cases hc <;> rfl

theorem nodup (hc : Stands h c bs) : bs.Nodup := by
  cases hc with
  | array ha => exact List.nodup_singleton _
  | dictionary hd => simp [hd.ne]

theorem live (hc : Stands h c bs) {b : Handle} (hb : b ∈ bs) :
    ∃ block, h.blocks.get? b = some block := by
  cases hc with
  | array ha =>
    obtain ⟨block, hblock, -⟩ := ha.holds
    exact ⟨block, List.mem_singleton.mp hb ▸ hblock⟩
  | dictionary hd =>
    obtain ⟨block, hblock, -⟩ := hd.holdsKeys
    obtain ⟨block', hblock', -⟩ := hd.holdsValues
    simp only [List.mem_cons, List.not_mem_nil, or_false] at hb
    rcases hb with rfl | rfl
    · exact ⟨block, hblock⟩
    · exact ⟨block', hblock'⟩

theorem pointer_start (hc : Stands h c bs) {n : Nat} (hn : n ∈ c.kind.pointerFields) :
    ∃ b ∈ bs, h.field? c.ref n = some (.pointer ⟨b, 0⟩) := by
  have hmem : h.field? c.ref n ∈ bs.map fun b => some (Value.pointer ⟨b, 0⟩) :=
    hc.pointers ▸ List.mem_map_of_mem hn
  obtain ⟨b, hb, he⟩ := List.mem_map.mp hmem
  exact ⟨b, hb, he.symm⟩

theorem object (hc : Stands h c bs) : h.objects.get? c.ref ≠ none := by
  intro hnone
  have hfield : ∀ n, h.field? c.ref n = none := fun n => by
    rw [Heap.field?, hnone, Option.bind_none]
  cases hc with
  | array ha => cases ha.storage_eq.symm.trans (hfield _)
  | dictionary hd => cases hd.keys_eq.symm.trans (hfield _)

end Stands

/-! ## What a change leaves alone -/

theorem field?_of_moves (hm : Moves ref own own' h h') (hne : c.ref ≠ ref) (n : Nat) :
    h'.field? c.ref n = h.field? c.ref n := by
  rw [Heap.field?, hm.objects c.ref hne, ← Heap.field?]

theorem get?_of_moves (hm : Moves ref own own' h h') (hc : Stands h c bs) (hdis : bs.Disjoint own)
    {b : Handle} (hb : b ∈ bs) : h'.blocks.get? b = h.blocks.get? b := by
  obtain ⟨block, hblock⟩ := hc.live hb
  rw [hblock, hm.blocks b block (hdis hb) hblock]

theorem Stands.frame (hc : Stands h c bs) (hm : Moves ref own own' h h') (hne : c.ref ≠ ref)
    (hdis : bs.Disjoint own) : Stands h' c bs := by
  have hf := field?_of_moves hm hne
  have hb := fun b => get?_of_moves hm hc hdis (b := b)
  cases hc with
  | array ha => exact .array (ha.frame hf (hb _ (by simp)) hm.limit)
  | dictionary hd =>
    exact .dictionary (hd.frame hf (hb _ (by simp)) (hb _ (by simp)) hm.limit)

theorem Stands.contents_frame (hc : Stands h c bs) (hm : Moves ref own own' h h')
    (hne : c.ref ≠ ref) (hdis : bs.Disjoint own) : c.contents h' = c.contents h := by
  have hf := field?_of_moves hm hne
  have hcount : c.count h' = c.count h := by rw [count, count, hf]
  refine List.map_congr_left fun n hn => ?_
  obtain ⟨b, hb, hp⟩ := hc.pointer_start hn
  have hp' : c.pointer? h' n = some ⟨b, 0⟩ := pointer?_eq ((hf n).trans hp)
  rw [column, column, hcount, hp', pointer?_eq hp, Option.bind_some, Option.bind_some,
    get?_of_moves hm hc hdis hb]

end Instance

open Instance

/-! ## All collections of a heap -/

/-- The heap consists of the given collections, each in blocks of its own. -/
structure Apart (h : Heap) (cs : List Instance) : Prop where
  sound : h.Sound
  limit : h.maxBlockSlots < UInt64.size
  refs : (cs.map Instance.ref).Nodup
  stands : ∀ c ∈ cs, ∃ bs, Stands h c bs
  disjoint : ∀ c ∈ cs, ∀ d ∈ cs, c.ref ≠ d.ref → (c.blocks h).Disjoint (d.blocks h)
  size : h.blocks.size = (cs.flatMap fun c => c.kind.pointerFields).length
  objects : ∀ ref, h.objects.get? ref ≠ none → ∃ c ∈ cs, c.ref = ref

variable {h h' : Heap} {cs : List Instance} {c d : Instance} {ref : Handle}
  {bs bs' : List Handle}

namespace Apart

theorem empty {limit : Nat} (hl : limit < UInt64.size) :
    Apart { maxBlockSlots := limit } [] where
  sound := ⟨Arena.sound_empty, Arena.sound_empty⟩
  limit := hl
  refs := List.nodup_nil
  stands := by simp
  disjoint := by simp
  size := rfl
  objects ref hne := absurd rfl hne

variable (ha : Apart h cs)
include ha

theorem eq_of_ref (hc : c ∈ cs) (hd : d ∈ cs) (he : c.ref = d.ref) : c = d :=
  List.inj_on_of_nodup_map ha.refs hc hd he

theorem ref_ne_of_new (hnew : h.objects.get? ref = none) (hd : d ∈ cs) : d.ref ≠ ref := by
  rintro rfl
  obtain ⟨bs, hst⟩ := ha.stands d hd
  exact hst.object hnew

/-- A handle with a property is that of a collection. -/
theorem stands_of_field? {n : Nat} {v : Value} (hv : h.field? ref n = some v) :
    ∃ c ∈ cs, c.ref = ref ∧ ∃ bs, Stands h c bs := by
  have hlive : h.objects.get? ref ≠ none := by
    intro hnone
    rw [Heap.field?, hnone, Option.bind_none] at hv
    cases hv
  obtain ⟨c, hc, href⟩ := ha.objects ref hlive
  exact ⟨c, hc, href, ha.stands c hc⟩

/-- The blocks of another collection are none of those that a change is about. -/
theorem frame (hd : d ∈ cs) (hne : d.ref ≠ ref) {own : List Handle}
    (hown : ∀ b ∈ own, b ∉ d.blocks h) (hm : Moves ref own bs' h h') :
    d.blocks h' = d.blocks h ∧ (∃ bs, Stands h' d bs) ∧ d.contents h' = d.contents h ∧
      (d.blocks h).Disjoint bs' := by
  obtain ⟨bs, hst⟩ := ha.stands d hd
  have hbs := hst.blocks_eq
  have hdis : bs.Disjoint own := fun b hb hb' => hown b hb' (hbs ▸ hb)
  have hst' := hst.frame hm hne hdis
  refine ⟨hst'.blocks_eq.trans hbs.symm, ⟨bs, hst'⟩, hst.contents_frame hm hne hdis, ?_⟩
  intro b hb hb'
  rw [hbs] at hb
  obtain ⟨block, hblock⟩ := hst.live hb
  rw [hm.fresh b hb' (hdis hb)] at hblock
  cases hblock

theorem notMem_of_ne (hc : c ∈ cs) (hst : Stands h c bs) (hd : d ∈ cs) (hne : d.ref ≠ c.ref) :
    ∀ b ∈ bs, b ∉ d.blocks h := fun _ hb hb' =>
  ha.disjoint d hd c hc hne hb' (hst.blocks_eq.symm ▸ hb)

/-- A change to one collection, after which it is in order. -/
theorem change (hc : c ∈ cs) (hst : Stands h c bs) (hst' : Stands h' c bs')
    (hm : Moves c.ref bs bs' h h') : Apart h' cs where
  sound := hm.sound
  limit := hm.limit ▸ ha.limit
  refs := ha.refs
  stands d hd := by
    by_cases he : d.ref = c.ref
    · exact ⟨bs', ha.eq_of_ref hd hc he ▸ hst'⟩
    · exact (ha.frame hd he (ha.notMem_of_ne hc hst hd he) hm).2.1
  disjoint d hd e he hne := by
    have hother : ∀ x ∈ cs, x.ref ≠ c.ref →
        x.blocks h' = x.blocks h ∧ (x.blocks h).Disjoint (c.blocks h') := fun x hx hxc => by
      obtain ⟨hb, -, -, hdis⟩ := ha.frame hx hxc (ha.notMem_of_ne hc hst hx hxc) hm
      exact ⟨hb, hst'.blocks_eq.symm ▸ hdis⟩
    by_cases hdc : d.ref = c.ref
    · have hec : e.ref ≠ c.ref := fun h => hne (hdc.trans h.symm)
      rw [ha.eq_of_ref hd hc hdc, (hother e he hec).1]
      exact (hother e he hec).2.symm
    · by_cases hec : e.ref = c.ref
      · rw [ha.eq_of_ref he hc hec, (hother d hd hdc).1]
        exact (hother d hd hdc).2
      · rw [(hother d hd hdc).1, (hother e he hec).1]
        exact ha.disjoint d hd e he hne
  size := by
    have hsize := hm.size
    rw [hst.length_eq, hst'.length_eq] at hsize
    rw [← ha.size]
    omega
  objects x hx := by
    by_cases he : x = c.ref
    · exact ⟨c, hc, he.symm⟩
    · exact ha.objects x (hm.objects x he ▸ hx)

theorem create (hnew : h.objects.get? c.ref = none) (hst' : Stands h' c bs')
    (hm : Moves c.ref [] bs' h h') : Apart h' (c :: cs) := by
  have hne : ∀ d ∈ cs, d.ref ≠ c.ref := fun d hd => ha.ref_ne_of_new hnew hd
  have hframe : ∀ d ∈ cs, d.blocks h' = d.blocks h ∧ (∃ bs, Stands h' d bs) ∧
      (d.blocks h').Disjoint (c.blocks h') := by
    intro d hd
    obtain ⟨hb, hst, -, hdis⟩ := ha.frame hd (hne d hd) (fun b hb => by cases hb) hm
    exact ⟨hb, hst, by rwa [hb, hst'.blocks_eq]⟩
  constructor
  case sound => exact hm.sound
  case limit => exact hm.limit ▸ ha.limit
  case refs =>
    refine List.nodup_cons.mpr ⟨fun hmem => ?_, ha.refs⟩
    obtain ⟨d, hd, he⟩ := List.mem_map.mp hmem
    exact hne d hd he
  case stands =>
    intro d hd
    rcases List.mem_cons.mp hd with rfl | hd
    · exact ⟨bs', hst'⟩
    · exact (hframe d hd).2.1
  case disjoint =>
    intro d hd e he hde
    rcases List.mem_cons.mp hd with rfl | hd' <;> rcases List.mem_cons.mp he with rfl | he'
    · exact absurd rfl hde
    · exact (hframe e he').2.2.symm
    · exact (hframe d hd').2.2
    · rw [(hframe d hd').1, (hframe e he').1]
      exact ha.disjoint d hd' e he' hde
  case size =>
    have hsize := hm.size
    rw [hst'.length_eq, List.length_nil] at hsize
    rw [List.flatMap_cons, List.length_append, ← ha.size]
    omega
  case objects =>
    intro x hx
    by_cases he : x = c.ref
    · exact ⟨c, List.mem_cons_self, he.symm⟩
    · obtain ⟨d, hd, hdx⟩ := ha.objects x (hm.objects x he ▸ hx)
      exact ⟨d, List.mem_cons_of_mem _ hd, hdx⟩

end Apart

/-! ## Operations -/

/-- What an operation on an existing instance does to a heap: nothing, or a change to the collection
of this instance. -/
inductive Changes (h : Heap) (cs : List Instance) (ref : Handle) : Heap → Prop where
  | still : Changes h cs ref h
  | change {c : Instance} {bs bs' : List Handle} {h' : Heap} (hc : c ∈ cs) (href : c.ref = ref)
      (hst : Stands h c bs) (hst' : Stands h' c bs') (hm : Moves ref bs bs' h h') :
      Changes h cs ref h'

theorem expect_cases (ref : Handle) (h : Heap) :
    (∃ name, expect (.object ref) h = .ok (ref, name) h) ∨
      ∃ e, expect (.object ref) h = .error e h := by
  unfold expect
  dsimp only
  cases ho : h.objects.get? ref with
  | none =>
    obtain ⟨e, he⟩ : ∃ e, Host.access (Heap.object ref) h = .error e h := by
      simp only [Host.access, Heap.object, ho]
      exact ⟨_, rfl⟩
    exact .inr ⟨e, bind_of_error he⟩
  | some o =>
    have he : Host.access (Heap.object ref) h = .ok o h := by
      simp only [Host.access, Heap.object, ho]
    rw [bind_of_ok he]
    split
    · exact .inl ⟨_, rfl⟩
    · exact .inr ⟨_, rfl⟩

section Changes

variable {α : Type} {m : Host α}

theorem changes_of_readOnly (hm : ReadOnly m) : Settles m h fun _ h' => Changes h cs ref h' :=
  (hm h).mono fun _ _ he => he ▸ .still

variable (ha : Apart h cs) (hroom : h.blocks.size < 2 ^ 32)
include ha

/-- An operation that knows arrays by the number in the place of the count. -/
theorem changes_array
    (harray : ∀ {b capacity vs}, ArrayAt h ref b capacity vs → Settles m h fun _ h' =>
      ∃ b' capacity' vs', ArrayAt h' ref b' capacity' vs' ∧ Moves ref [b] [b'] h h')
    (hother : (∀ n, h.field? ref Array.countField ≠ some (.int n)) →
      Settles m h fun _ h' => Changes h cs ref h') :
    Settles m h fun _ h' => Changes h cs ref h' := by
  by_cases hcount : ∃ n, h.field? ref Array.countField = some (.int n)
  case neg => exact hother fun n hn => hcount ⟨n, hn⟩
  obtain ⟨n, hn⟩ := hcount
  obtain ⟨c, hc, rfl, bs, hst⟩ := ha.stands_of_field? hn
  cases hst with
  | array harr =>
    refine (harray harr).mono ?_
    rintro _ h' ⟨b', capacity', vs', harr', hm⟩
    exact .change hc rfl (.array harr) (.array harr') hm
  | dictionary hd => cases hd.values_eq.symm.trans hn

/-- An operation that knows dictionaries by the second pointer. -/
theorem changes_dictionary
    (hdictionary : ∀ {k w capacity keys values}, DictionaryAt h ref k w capacity keys values →
      Settles m h fun _ h' => ∃ k' w' capacity' keys' values',
        DictionaryAt h' ref k' w' capacity' keys' values' ∧ Moves ref [k, w] [k', w'] h h')
    (hother : (∀ p, h.field? ref Dictionary.valuesField ≠ some (.pointer p)) →
      Settles m h fun _ h' => Changes h cs ref h') :
    Settles m h fun _ h' => Changes h cs ref h' := by
  by_cases hvalues : ∃ p, h.field? ref Dictionary.valuesField = some (.pointer p)
  case neg => exact hother fun p hp => hvalues ⟨p, hp⟩
  obtain ⟨p, hp⟩ := hvalues
  obtain ⟨c, hc, rfl, bs, hst⟩ := ha.stands_of_field? hp
  cases hst with
  | array harr => cases harr.count_eq.symm.trans hp
  | dictionary hd =>
    refine (hdictionary hd).mono ?_
    rintro _ h' ⟨k', w', capacity', keys', values', hd', hm⟩
    exact .change hc rfl (.dictionary hd) (.dictionary hd') hm

include hroom in
theorem append_changes (ref : Handle) (v : Value) :
    Settles (Array.append ref v) h fun _ h' => Changes h cs ref h' := by
  refine changes_array ha (fun harr => ?_) fun hn => .stop (sizeField_fails hn)
  apply (Array.append_settles ha.sound ha.limit harr hroom v).mono
  rintro _ h' ⟨b', capacity', harr', hm⟩
  exact ⟨b', capacity', _, harr', hm⟩

theorem array_set_changes (ref : Handle) (index v : Value) :
    Settles (Array.set ref index v) h fun _ h' => Changes h cs ref h' := by
  refine changes_array ha (fun harr => ?_) fun hn => .stop (sizeField_fails hn)
  apply (Array.set_settles ha.sound ha.limit harr index v).mono
  rintro _ h' ⟨vs', harr', hm⟩
  exact ⟨_, _, vs', harr', hm⟩

theorem array_remove_changes (ref : Handle) (index : Value) :
    Settles (Array.remove ref index) h fun _ h' => Changes h cs ref h' := by
  refine changes_array ha (fun harr => ?_) fun hn => .stop (sizeField_fails hn)
  apply (Array.remove_settles ha.sound ha.limit harr index).mono
  rintro _ h' ⟨vs', harr', hm⟩
  exact ⟨_, _, vs', harr', hm⟩

include hroom in
theorem dictionary_set_changes (ref : Handle) (key v : Value) :
    Settles (Dictionary.set ref key v) h fun _ h' => Changes h cs ref h' :=
  changes_dictionary ha (fun hd => Dictionary.set_settles ha.sound ha.limit hd hroom key v)
    fun hp => (readOnly_sizeField _ _).andThen fun _ => (readOnly_pointerField _ _).andThen fun _ =>
      .stop (pointerField_fails hp)

theorem dictionary_remove_changes (ref : Handle) (key : Value) :
    Settles (Dictionary.remove ref key) h fun _ h' => Changes h cs ref h' := by
  refine changes_dictionary ha (fun hd => ?_) fun hp => ?_
  · apply (Dictionary.remove_settles ha.sound ha.limit hd key).mono
    rintro _ h' ⟨keys', values', hd', hm⟩
    exact ⟨_, _, _, keys', values', hd', hm⟩
  · refine (Dictionary.readOnly_extent ref).andThen fun r => (readOnly_findSlot _ _ _ _).andThen
      fun found => ?_
    cases found with
    | none => exact .of_ok rfl .still
    | some slot => exact .stop (pointerField_fails hp)

include hroom in
theorem invokeArray_changes (method : String) (ref : Handle) (args : List Value) :
    Settles (invokeArray method ref args) h fun _ h' => Changes h cs ref h' := by
  unfold invokeArray
  split
  · exact (readOnly_argument _ _).andThen fun v => (append_changes ha hroom ref v).andThen
      fun _ h' hc => ⟨_, h', rfl, hc⟩
  · exact changes_of_readOnly ((readOnly_argument _ _).bind fun _ => Array.readOnly_get _ _)
  · exact (readOnly_argument _ _).andThen fun index => (readOnly_argument _ _).andThen fun v =>
      (array_set_changes ha ref index v).andThen fun _ h' hc => ⟨_, h', rfl, hc⟩
  · exact (readOnly_argument _ _).andThen fun index => array_remove_changes ha ref index
  · exact changes_of_readOnly (readOnly_contains (Array.readOnly_extent ref) args)
  · exact changes_of_readOnly (.trap _)

include hroom in
theorem invokeDictionary_changes (method : String) (ref : Handle) (args : List Value) :
    Settles (invokeDictionary method ref args) h fun _ h' => Changes h cs ref h' := by
  unfold invokeDictionary
  split
  · exact changes_of_readOnly ((readOnly_argument _ _).bind fun _ => Dictionary.readOnly_get _ _)
  · exact (readOnly_argument _ _).andThen fun key => (readOnly_argument _ _).andThen fun v =>
      (dictionary_set_changes ha hroom ref key v).andThen fun _ h' hc => ⟨_, h', rfl, hc⟩
  · exact (readOnly_argument _ _).andThen fun key => dictionary_remove_changes ha ref key
  · exact changes_of_readOnly (readOnly_contains (Dictionary.readOnly_extent ref) args)
  · exact changes_of_readOnly (.trap _)

include hroom in
theorem invoke_changes (method : Symbol) (ref : Handle) (args : List Value) :
    Settles (invoke method ref args) h fun _ h' => Changes h cs ref h' := by
  unfold invoke
  split
  · split
    · exact changes_of_readOnly (.trap _)
    split
    · exact invokeArray_changes ha hroom _ ref args
    split
    · exact invokeDictionary_changes ha hroom _ ref args
    · exact changes_of_readOnly (.trap _)
  · exact changes_of_readOnly (.trap _)

include hroom in
theorem setSubscript_changes (ref : Handle) (index v : Value) :
    Settles (setSubscript (.object ref) index v) h fun _ h' => Changes h cs ref h' := by
  rcases expect_cases ref h with ⟨name, hname⟩ | hfails
  case inr => exact .stop hfails
  refine .read hname ?_
  dsimp only
  split
  · exact array_set_changes ha ref index v
  · exact dictionary_set_changes ha hroom ref index v

end Changes

inductive Operation where
  | newArray (elements : List Value)
  | newDictionary (entries : List (Value × Value))
  /-- A call of a standard struct. -/
  | construct (name : String) (args : List Value)
  | invoke (method : Symbol) (ref : Handle) (args : List Value)
  | get (receiver index : Value)
  | set (receiver index v : Value)

namespace Operation

def run (types : Types) : Operation → Host Value
  | newArray elements => Array.create types.array elements
  | newDictionary entries => Dictionary.create types.dictionary entries
  | construct name args => Collection.construct types name args
  | invoke method ref args => Collection.invoke method ref args
  | get receiver index => subscript receiver index
  | set receiver index v => do
    setSubscript receiver index v
    return .none

/-- The collections that an operation made, by its result. -/
def made : Operation → Value → List Instance
  | newArray _, .object ref => [⟨ref, .array⟩]
  | newDictionary _, .object ref => [⟨ref, .dictionary⟩]
  | construct name _, .object ref =>
    [⟨ref, if name == Standard.arrayName then .array else .dictionary⟩]
  | _, _ => []

def target? : Operation → Option Handle
  | invoke _ ref _ | get (.object ref) _ | set (.object ref) _ _ => some ref
  | _ => none

/-- The entries of a new dictionary can be counted by a signed number. -/
def Countable : Operation → Prop
  | newDictionary entries => entries.length < 2 ^ 63
  | _ => True

end Operation

/-- A heap with the collections that were made in it, the last one first. -/
structure World where
  heap : Heap
  instances : List Instance := []

namespace World

/-- What was done before a failure stays done. -/
def next (types : Types) (w : World) (op : Operation) : World :=
  match op.run types w.heap with
  | .ok r heap => ⟨heap, op.made r ++ w.instances⟩
  | .error _ heap => ⟨heap, w.instances⟩

/-- The world after operations that start from the empty heap. -/
def after (types : Types) (limit : Nat) (ops : List Operation) : World :=
  ops.foldl (next types) ⟨{ maxBlockSlots := limit }, []⟩

theorem after_append (types : Types) (limit : Nat) (ops : List Operation) (op : Operation) :
    after types limit (ops ++ [op]) = (after types limit ops).next types op := by
  rw [after, after, List.foldl_append, List.foldl_cons, List.foldl_nil]

/-- There are handles for the blocks of all collections and of one more. They run out for no fewer
than `2 ^ 31` collections. -/
def Roomy (w : World) : Prop :=
  w.instances.countP (·.kind = .array) + 2 * w.instances.countP (·.kind = .dictionary) + 2 ≤ 2 ^ 32

instance (w : World) : Decidable w.Roomy := inferInstanceAs (Decidable (_ ≤ _))

theorem Roomy.of_next {types : Types} {w : World} {op : Operation}
    (h : (w.next types op).Roomy) : w.Roomy := by
  unfold next Roomy at *
  cases hrun : op.run types w.heap with
  | error e heap => rwa [hrun] at h
  | ok r heap =>
    simp only [hrun, List.countP_append] at h
    omega

theorem Roomy.of_foldl {types : Types} {w : World} {ops : List Operation}
    (h : (ops.foldl (next types) w).Roomy) : w.Roomy := by
  induction ops generalizing w with
  | nil => exact h
  | cons op ops ih => exact (ih h).of_next

end World

theorem length_pointerFields (cs : List Instance) :
    (cs.flatMap fun c => c.kind.pointerFields).length =
      cs.countP (·.kind = .array) + 2 * cs.countP (·.kind = .dictionary) := by
  induction cs with
  | nil => rfl
  | cons c cs ih =>
    rw [List.flatMap_cons, List.length_append, ih, List.countP_cons, List.countP_cons]
    cases c.kind <;> simp [Kind.pointerFields] <;> omega

/-- Every collection has a block, and every instance is a collection. -/
theorem Apart.objects_size_le (ha : Apart h cs) : h.objects.size ≤ h.blocks.size := by
  have hle : h.objects.size ≤ (cs.map Instance.ref).length :=
    ha.sound.objects.size_le fun ref hne => List.mem_map.mpr (ha.objects ref hne)
  have hlen : ∀ ds : List Instance, ds.length ≤ (ds.flatMap (·.kind.pointerFields)).length := by
    intro ds
    induction ds with
    | nil => exact Nat.le_refl _
    | cons d ds ih =>
      have hd : 1 ≤ d.kind.pointerFields.length := by cases d.kind <;> decide
      rw [List.length_cons, List.flatMap_cons, List.length_append]
      omega
  rw [ha.size]
  exact (hle.trans_eq (List.length_map _)).trans (hlen cs)

/-- The collections are apart and of their types, and there is room for one more. -/
structure World.Orderly (types : Types) (limit : Nat) (w : World) : Prop where
  apart : Apart w.heap w.instances
  room : w.Roomy
  limit : w.heap.maxBlockSlots = limit
  typed : ∀ c ∈ w.instances, w.heap.type? c.ref = some (c.kind.type types)

theorem Apart.size_add_two_le {w : World} (ha : Apart w.heap w.instances) (hroom : w.Roomy) :
    w.heap.blocks.size + 2 ≤ 2 ^ 32 := by
  rw [ha.size, length_pointerFields]
  exact hroom

/-- What an operation on a target does to the heap, with the collections that it makes. -/
inductive Advances (types : Types) (h : Heap) (cs : List Instance) (target? : Option Handle) :
    List Instance → Heap → Prop where
  | still : Advances types h cs target? [] h
  | change {ref : Handle} {h' : Heap} (ht : target? = some ref) (hc : Changes h cs ref h') :
      Advances types h cs target? [] h'
  | create {c : Instance} {bs : List Handle} {h' : Heap} (hnew : h.objects.get? c.ref = none)
      (hst : Stands h' c bs) (hm : Moves c.ref [] bs h h')
      (htype : h'.type? c.ref = some (c.kind.type types)) : Advances types h cs target? [c] h'

namespace Advances

variable {types : Types} {target? : Option Handle} {made : List Instance}

theorem apart (ha : Apart h cs) (hv : Advances types h cs target? made h') :
    Apart h' (made ++ cs) := by
  cases hv with
  | still => exact ha
  | change ht hc =>
    cases hc with
    | still => exact ha
    | change hc href hst hst' hm =>
      subst href
      exact ha.change hc hst hst' hm
  | create hnew hst hm _ => exact ha.create hnew hst hm

theorem contents_eq (ha : Apart h cs) (hv : Advances types h cs target? made h') (hd : d ∈ cs)
    (ht : target? ≠ some d.ref) : d.contents h' = d.contents h := by
  cases hv with
  | still => rfl
  | change ht' hc =>
    cases hc with
    | still => rfl
    | change hc href hst hst' hm =>
      subst href
      have hne : d.ref ≠ _ := fun he => ht (he ▸ ht')
      exact (ha.frame hd hne (ha.notMem_of_ne hc hst hd hne) hm).2.2.1
  | create hnew hst hm _ =>
    exact (ha.frame hd (ha.ref_ne_of_new hnew hd) (fun b hb => by cases hb) hm).2.2.1

theorem limit (hv : Advances types h cs target? made h') : h'.maxBlockSlots = h.maxBlockSlots := by
  cases hv with
  | still => rfl
  | change ht hc =>
    cases hc with
    | still => rfl
    | change _ _ _ _ hm => exact hm.limit
  | create hnew hst hm htype => exact hm.limit

theorem typed (hv : Advances types h cs target? made h')
    (hcs : ∀ c ∈ cs, h.type? c.ref = some (c.kind.type types)) :
    ∀ c ∈ made ++ cs, h'.type? c.ref = some (c.kind.type types) := by
  cases hv with
  | still => exact hcs
  | change ht hc =>
    cases hc with
    | still => exact hcs
    | change _ _ _ _ hm => exact fun c hc => hm.types _ _ (hcs c hc)
  | create hnew hst hm htype =>
    intro c hc
    rcases List.mem_cons.mp hc with rfl | hc
    · exact htype
    · exact hm.types _ _ (hcs c hc)

end Advances

section Runs

variable {types : Types} (harray : 3 ≤ types.array.propertyCount)
  (hdictionary : 4 ≤ types.dictionary.propertyCount)
include harray hdictionary

theorem Operation.run_settles (ha : Apart h cs) (hroom : h.blocks.size + 2 ≤ 2 ^ 32)
    {op : Operation} (hop : op.Countable) :
    Settles (op.run types) h fun r h' => Advances types h cs op.target? (op.made r) h' := by
  have hobjects := ha.objects_size_le
  have hnewArray : ∀ vs, Settles (Array.create types.array vs) h fun r h' =>
      ∃ ref bs, r = .object ref ∧ h.objects.get? ref = none ∧ Stands h' ⟨ref, .array⟩ bs ∧
        Moves ref [] bs h h' ∧ h'.type? ref = some types.array := by
    intro vs
    apply (Array.create_settles ha.sound (by omega) (by omega) ha.limit harray vs).mono
    rintro _ h' ⟨ref, b, capacity, rfl, hnew, harr, hm⟩
    exact ⟨ref, [b], rfl, hnew, .array harr, hm⟩
  have hnewDictionary : ∀ entries : List (Value × Value), entries.length < 2 ^ 63 →
      Settles (Dictionary.create types.dictionary entries) h fun r h' =>
        ∃ ref bs, r = .object ref ∧ h.objects.get? ref = none ∧ Stands h' ⟨ref, .dictionary⟩ bs ∧
          Moves ref [] bs h h' ∧ h'.type? ref = some types.dictionary := by
    intro entries hlen
    apply (Dictionary.create_settles ha.sound (by omega) (by omega) ha.limit hdictionary hlen).mono
    rintro _ h' ⟨ref, k, w, capacity, keys, values, rfl, hnew, hd, hm⟩
    exact ⟨ref, [k, w], rfl, hnew, .dictionary hd, hm⟩
  cases op with
  | newArray elements =>
    apply (hnewArray elements).mono
    rintro _ h' ⟨ref, bs, rfl, hnew, hst, hm, ht⟩
    exact .create hnew hst hm ht
  | newDictionary entries =>
    apply (hnewDictionary entries hop).mono
    rintro _ h' ⟨ref, bs, rfl, hnew, hst, hm, ht⟩
    exact .create hnew hst hm ht
  | construct name args =>
    unfold run Collection.construct
    dsimp only
    split
    case isTrue hname =>
      apply (hnewArray args).mono
      rintro _ h' ⟨ref, bs, rfl, hnew, hst, hm, ht⟩
      simp only [made, hname, if_true]
      exact .create hnew hst hm ht
    case isFalse hname =>
      split
      · split
        · apply (hnewDictionary [] (by decide)).mono
          rintro _ h' ⟨ref, bs, rfl, hnew, hst, hm, ht⟩
          simp only [made, hname]
          exact .create hnew hst hm ht
        · exact .of_error ⟨_, rfl⟩
      · exact .of_error ⟨_, rfl⟩
  | invoke method ref args =>
    apply (invoke_changes ha (by omega) method ref args).mono
    intro r h' hc
    exact .change rfl hc
  | get receiver index =>
    have hread : ReadOnly (subscript receiver index) := by
      refine (readOnly_expect receiver).bind fun r => ?_
      dsimp only
      split
      · exact Array.readOnly_get _ _
      · exact Dictionary.readOnly_get _ _
    apply (hread h).mono
    rintro r h' rfl
    exact .still
  | set receiver index v =>
    cases receiver with
    | object ref =>
      refine (setSubscript_changes ha (by omega) ref index v).andThen
        fun _ h' hc => ⟨_, h', rfl, ?_⟩
      exact .change rfl hc
    | _ => exact .stop ⟨_, rfl⟩

theorem World.next_advances {w : World} (ha : Apart w.heap w.instances) (hroom : w.Roomy)
    {op : Operation} (hop : op.Countable) :
    ∃ made, (w.next types op).instances = made ++ w.instances ∧
      Advances types w.heap w.instances op.target? made (w.next types op).heap := by
  have hrun := op.run_settles harray hdictionary ha (ha.size_add_two_le hroom) hop
  unfold Settles at hrun
  unfold World.next
  generalize op.run types w.heap = r at hrun ⊢
  cases r with
  | ok r heap => exact ⟨op.made r, rfl, hrun⟩
  | error e heap =>
    cases hrun
    exact ⟨[], rfl, .still⟩

theorem World.Orderly.next {limit : Nat} {w : World} (hw : w.Orderly types limit) {op : Operation}
    (hop : op.Countable) (hroom : (w.next types op).Roomy) :
    (w.next types op).Orderly types limit := by
  obtain ⟨made, hmade, hv⟩ := World.next_advances harray hdictionary hw.apart hw.room hop
  refine ⟨?_, hroom, hv.limit.trans hw.limit, ?_⟩
  · rw [hmade]
    exact hv.apart hw.apart
  · rw [hmade]
    exact hv.typed hw.typed

theorem World.orderly_after {limit : Nat} (hl : limit < UInt64.size) {ops : List Operation}
    (hops : ∀ op ∈ ops, op.Countable) (hroom : (World.after types limit ops).Roomy) :
    (World.after types limit ops).Orderly types limit := by
  induction ops using List.reverseRecOn with
  | nil => exact ⟨Apart.empty hl, hroom, rfl, fun c hc => absurd hc List.not_mem_nil⟩
  | append_singleton ops op ih =>
    rw [World.after_append] at hroom ⊢
    have hw := ih (fun op hop => hops op (List.mem_append_left _ hop)) hroom.of_next
    exact hw.next harray hdictionary (hops op (by simp)) hroom

end Runs

/-- After any operations, successful or not, no block belongs twice to a collection or to two of
them. Every pointer of a collection leads to the start of a block that is there, and there are no
other blocks. Whatever operation comes next, the contents of every collection on which it is not
done stay as they are. -/
theorem collections_stay_apart {types : Types} (harray : 3 ≤ types.array.propertyCount)
    (hdictionary : 4 ≤ types.dictionary.propertyCount) {limit : Nat} (hl : limit < UInt64.size)
    {ops : List Operation} (hops : ∀ op ∈ ops, op.Countable) {w : World}
    (hw : w = World.after types limit ops) (hroom : w.Roomy) :
    (w.instances.flatMap fun c => c.blocks w.heap).Nodup ∧
    (∀ c ∈ w.instances, ∀ n ∈ c.kind.pointerFields, ∃ b ∈ c.blocks w.heap,
      w.heap.field? c.ref n = some (.pointer ⟨b, 0⟩) ∧ w.heap.blocks.contains b = true) ∧
    w.heap.blocks.size = w.instances.countP (·.kind = .array) +
      2 * w.instances.countP (·.kind = .dictionary) ∧
    ∀ op : Operation, op.Countable → ∀ c ∈ w.instances, op.target? ≠ some c.ref →
      c.contents (w.next types op).heap = c.contents w.heap := by
  have ha : Apart w.heap w.instances := by
    subst hw
    exact (World.orderly_after harray hdictionary hl hops hroom).apart
  refine ⟨?_, fun c hc n hn => ?_, ?_, fun op hop c hc ht => ?_⟩
  · rw [List.nodup_flatMap]
    constructor
    · intro c hc
      obtain ⟨bs, hst⟩ := ha.stands c hc
      exact hst.blocks_eq.symm ▸ hst.nodup
    · have hrefs := List.pairwise_map.mp ha.refs
      exact hrefs.imp_of_mem fun hc hd hne => ha.disjoint _ hc _ hd hne
  · obtain ⟨bs, hst⟩ := ha.stands c hc
    obtain ⟨b, hb, hp⟩ := hst.pointer_start hn
    obtain ⟨block, hblock⟩ := hst.live hb
    exact ⟨b, hst.blocks_eq.symm ▸ hb, hp, Arena.contains_of_get? hblock⟩
  · rw [ha.size, length_pointerFields]
  · obtain ⟨made, -, hv⟩ := World.next_advances harray hdictionary ha hroom hop
    exact hv.contents_eq ha hc ht

def standardTypes : Types := ⟨Standard.arrayType, Standard.dictionaryType⟩

/-- An array and a dictionary that grow in turn, with an index that is no element's. -/
def growing : List Operation :=
  [.newArray [.int 1, .int 2, .int 3, .int 4], .newDictionary [(.int 1, .int 2)],
    .invoke ⟨"Standard", .method "Array" "append" ["element"]⟩ ⟨0, 0⟩ [.int 5],
    .set (.object ⟨1, 0⟩) (.int 3) (.int 4), .set (.object ⟨0, 0⟩) (.int 5) (.int 6),
    .invoke ⟨"Standard", .method "Array" "remove" ["index"]⟩ ⟨0, 0⟩ [.int 0]]

theorem collections_stay_apart_growing :
    3 ≤ standardTypes.array.propertyCount ∧ 4 ≤ standardTypes.dictionary.propertyCount ∧
    (∀ op ∈ growing, op.Countable) ∧
    (World.after standardTypes 6 growing).Roomy ∧
    (World.after standardTypes 6 growing).instances = [⟨⟨1, 0⟩, .dictionary⟩, ⟨⟨0, 0⟩, .array⟩] ∧
    (World.after standardTypes 6 growing).heap.blocks.size = 1 + 2 * 1 := by
  have harray : 3 ≤ standardTypes.array.propertyCount := by decide
  have hdictionary : 4 ≤ standardTypes.dictionary.propertyCount := by decide
  have hops : ∀ op ∈ growing, op.Countable := by
    simp [growing, Operation.Countable]
  have hmade : (World.after standardTypes 6 growing).instances =
      [⟨⟨1, 0⟩, .dictionary⟩, ⟨⟨0, 0⟩, .array⟩] := by decide +kernel
  have hroom : (World.after standardTypes 6 growing).Roomy := by
    rw [World.Roomy, hmade]
    decide
  have hlimit : 6 < UInt64.size := by decide
  obtain ⟨-, -, hsize, -⟩ := collections_stay_apart harray hdictionary hlimit hops rfl hroom
  rw [hmade] at hsize
  exact ⟨harray, hdictionary, hops, hroom, hmade, hsize⟩

/-! ## When the handles run out -/

/-- Blocks of new dictionaries, one after another. -/
def emptyBlocks (n : Nat) : Arena Block :=
  ⟨Array.replicate n ⟨0, some (Array.replicate minCapacity none)⟩, [], n⟩

theorem sound_emptyBlocks {n : Nat} (hn : n ≤ 2 ^ 32) : (emptyBlocks n).Sound := by
  refine ⟨(Array.size_replicate).trans_le hn, List.nodup_nil, fun i => ?_, ?_⟩
  · simp only [emptyBlocks, List.not_mem_nil, false_iff]
    rintro ⟨slot, hslot, hcontent⟩
    rw [Array.getElem?_replicate] at hslot
    split at hslot
    · cases hslot
      cases hcontent
    · cases hslot
  · simp [emptyBlocks, Arena.size]

theorem newBlock_emptyBlocks {n capacity : Nat} (hb : h.blocks = emptyBlocks n)
    (hfits : capacity ≤ h.maxBlockSlots) : Host.access (Heap.newBlock capacity) h =
      .ok ⟨⟨UInt32.ofNat n, 0⟩, 0⟩ { h with blocks :=
        ⟨(emptyBlocks n).slots.push ⟨0, some (Array.replicate capacity none)⟩, [], n + 1⟩ } := by
  simp only [Host.access, Heap.newBlock, hfits, if_true, hb, Arena.insert, emptyBlocks,
    Array.size_replicate]

theorem create_emptyBlocks (type : StructType) {n : Nat} (hs : h.Sound)
    (hobjects : h.objects.size < 2 ^ 32) (hw : 4 ≤ type.propertyCount)
    (hfits : minCapacity ≤ h.maxBlockSlots) (hb : h.blocks = emptyBlocks n)
    (hn : n + 2 ≤ 2 ^ 32) : ∃ ref h', Dictionary.create type [] h = .ok (.object ref) h' ∧
      h'.blocks = emptyBlocks (n + 2) ∧ h'.maxBlockSlots = h.maxBlockSlots := by
  have hpush : ∀ m, (emptyBlocks m).slots.push ⟨0, some (Array.replicate minCapacity none)⟩ =
      (emptyBlocks (m + 1)).slots := fun m => Array.replicate_succ.symm
  have hkeys := newBlock_emptyBlocks hb hfits
  rw [hpush] at hkeys
  have hvalues := newBlock_emptyBlocks (h := { h with blocks := emptyBlocks (n + 1) }) rfl hfits
  rw [hpush] at hvalues
  have hsound : ({ h with blocks := emptyBlocks (n + 2) } : Heap).Sound :=
    ⟨hs.objects, sound_emptyBlocks hn⟩
  obtain ⟨ref, h₁, hmake, hi⟩ := exists_newObject hsound hobjects type
  obtain ⟨h₂, hset⟩ := exists_assigns (hi.moves []).sound hi.width_eq
    [(Dictionary.keysField, .pointer ⟨⟨UInt32.ofNat n, 0⟩, 0⟩),
      (Dictionary.valuesField, .pointer ⟨⟨UInt32.ofNat (n + 1), 0⟩, 0⟩),
      (Dictionary.countField, sizeValue 0), (Dictionary.capacityField, sizeValue minCapacity)] (by
      simp [Dictionary.keysField, Dictionary.valuesField, Dictionary.countField,
        Dictionary.capacityField]
      omega)
  refine ⟨ref, h₂, ?_, hset.blocks.trans hi.blocks,
    (hset.moves []).limit.trans (hi.moves []).limit⟩
  exact (bind_of_ok hkeys).trans ((bind_of_ok hvalues).trans ((bind_of_ok hmake).trans
    (hset.run _)))

/-- Elements for which the block is too small are stored as far as they fit. -/
theorem storeAll_fails {b : Handle} {block : Block} {i : Nat} {vs : List Value}
    (hb : h.blocks.get? b = some block) (hi : i ≤ block.size) (hlt : block.size < UInt64.size)
    (hlen : block.size < i + vs.length) : ∃ e h', storeAll ⟨b, 0⟩ i vs h = .error e h' ∧
      h'.blocks.size = h.blocks.size := by
  induction vs generalizing h block i with
  | nil =>
    rw [List.length_nil] at hlen
    omega
  | cons v vs ih =>
    have hslot := slotOf_start (b := b) (Nat.lt_of_le_of_lt hi hlt) h
    rw [List.length_cons] at hlen
    by_cases hfits : i < block.size
    · have hstore : store ⟨b, 0⟩ i v h = .ok () (h.stored b i v) := by
        rw [store, bind_of_ok hslot, Host.access, Heap.store]
        simp only [hb, hfits, if_true, stored]
      have hget := get?_stored h b i v
      rw [hb, Option.map_some] at hget
      obtain ⟨e, h', hfails, hsize⟩ := ih (i := i + 1) hget
        (by rwa [Array.size_setIfInBounds]) (by rwa [Array.size_setIfInBounds])
        (by rw [Array.size_setIfInBounds]; omega)
      exact ⟨e, h', (bind_of_ok hstore).trans hfails, hsize⟩
    · have hstore : store ⟨b, 0⟩ i v h =
          .error (.trap (.ofHeapError (.outOfBounds i block.size))) h := by
        rw [store, bind_of_ok hslot, Host.access, Heap.store]
        simp only [hb, hfits, if_false]
      exact ⟨_, h, bind_of_error hstore, rfl⟩

theorem World.after_dictionaries {k : Nat} (hk : k ≤ 2 ^ 31) {w : World}
    (hw : w = World.after standardTypes 5 (List.replicate k (.newDictionary []))) :
    Apart w.heap w.instances ∧ w.heap.blocks = emptyBlocks (2 * k) ∧ w.heap.maxBlockSlots = 5 ∧
      w.instances.countP (·.kind = .array) = 0 ∧
      w.instances.countP (·.kind = .dictionary) = k := by
  induction k generalizing w with
  | zero =>
    subst hw
    exact ⟨Apart.empty (by decide), rfl, rfl, rfl, rfl⟩
  | succ k ih =>
    obtain ⟨ha, hb, hlimit, harrays, hdictionaries⟩ := ih (by omega) rfl
    rw [List.replicate_succ', World.after_append] at hw
    generalize World.after standardTypes 5 (List.replicate k (.newDictionary [])) = u at *
    have hroom : u.Roomy := by
      rw [World.Roomy, harrays, hdictionaries]
      omega
    have hobjects := ha.objects_size_le
    have hsize := ha.size_add_two_le hroom
    obtain ⟨ref, h', hcreate, hb', hlimit'⟩ := create_emptyBlocks Standard.dictionaryType
      ha.sound (by omega) (by decide) (by rw [hlimit]; decide) hb (by omega)
    obtain ⟨made, hmade, hv⟩ := @World.next_advances standardTypes (by decide) (by decide) u ha
      hroom (.newDictionary []) (Nat.two_pow_pos 63)
    have hnext : u.next standardTypes (.newDictionary []) =
        ⟨h', ⟨ref, .dictionary⟩ :: u.instances⟩ := by
      have hrun : (Operation.newDictionary []).run standardTypes u.heap = .ok (.object ref) h' :=
        hcreate
      rw [World.next, hrun]
      rfl
    have ha' := hv.apart ha
    rw [← hmade, ← hw] at ha'
    subst hw
    rw [hnext] at ha' ⊢
    exact ⟨ha', hb', hlimit'.trans hlimit, by simpa using harrays, by simpa using hdictionaries⟩

theorem create_leaks (type : StructType) {n : Nat} (hb : h.blocks = emptyBlocks n) (hn : 0 < n)
    (hwraps : UInt32.ofNat n = 0) (hfits : 5 ≤ h.maxBlockSlots) :
    ∃ e h', Array.create type (List.replicate 5 .none) h = .error e h' ∧
      h'.blocks.size = n + 1 := by
  have hnew := newBlock_emptyBlocks hb hfits
  rw [hwraps] at hnew
  generalize hc : (emptyBlocks n).slots.push ⟨0, some (Array.replicate 5 none)⟩ = slots at hnew
  have hget : Arena.get? ⟨slots, [], n + 1⟩ ⟨0, 0⟩ = some (Array.replicate minCapacity none) := by
    have hlt : 0 < (emptyBlocks n).slots.size := hn.trans_eq Array.size_replicate.symm
    rw [Arena.get?_eq_some_iff, ← hc]
    exact (Array.getElem?_push_lt hlt).trans (congrArg some (Array.getElem_replicate _))
  obtain ⟨e, h', hfails, hsize⟩ := storeAll_fails
    (h := { h with blocks := ⟨slots, [], n + 1⟩ }) hget (Nat.zero_le _) (by decide)
    (show _ < 0 + (List.replicate 5 Value.none).length by decide)
  exact ⟨e, h', (bind_of_ok hnew).trans (bind_of_error hfails), hsize⟩

/-- With a block for every handle, an array that cannot be made leaves a block that belongs to no
collection. -/
theorem collections_leak_when_crowded : ∃ ops : List Operation, (∀ op ∈ ops, op.Countable) ∧
    (World.after standardTypes 5 ops).heap.blocks.size ≠
      (World.after standardTypes 5 ops).instances.countP (·.kind = .array) +
        2 * (World.after standardTypes 5 ops).instances.countP (·.kind = .dictionary) := by
  obtain ⟨k, hk⟩ : ∃ k, k = 2 ^ 31 := ⟨_, rfl⟩
  obtain ⟨ha, hb, hlimit, harrays, hdictionaries⟩ := World.after_dictionaries hk.le rfl
  refine ⟨List.replicate k (.newDictionary []) ++ [.newArray (List.replicate 5 .none)],
    fun op hop => ?_, ?_⟩
  · rcases List.mem_append.mp hop with hop | hop
    · rw [List.eq_of_mem_replicate hop]
      exact Nat.two_pow_pos 63
    · rw [List.mem_singleton.mp hop]
      trivial
  · rw [World.after_append]
    generalize World.after standardTypes 5 (List.replicate k (.newDictionary [])) = w at *
    have hwraps : UInt32.ofNat (2 * k) = 0 := by
      rw [hk]
      rfl
    obtain ⟨e, h', hfails, hsize⟩ := create_leaks standardTypes.array hb (by omega) hwraps hlimit.ge
    have hrun : (Operation.newArray (List.replicate 5 .none)).run standardTypes w.heap =
        .error e h' := hfails
    rw [World.next, hrun]
    dsimp only
    rw [hsize, harrays, hdictionaries]
    omega

end StackCode.Collection
