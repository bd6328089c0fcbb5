import StackCode.Proofs.Storage

/-! # Operations on collections

Arrays, dictionaries and builtins do the same on heaps that compare, and so they keep what all
values in a heap have in common.
-/

namespace StackCode

open Host

namespace Collection

variable {S : Comparison} {v v' : Value} {args args' : List Value}

def Provides (method : Symbol) : Prop :=
  ∃ owner name params, method.kind = .method owner name params ∧
    (owner = Standard.arrayName ∧ name ∈ ["append", "get", "set", "remove", "contains"] ∨
      owner = Standard.dictionaryName ∧ name ∈ ["get", "set", "remove", "contains"])

theorem slotOf_joint (p : Pointer) (i : Nat) : Joint S Eq (slotOf p i) (slotOf p i) := by
  unfold slotOf
  split
  · exact .done rfl
  · exact .fault

theorem load_joint (p : Pointer) (i : Nat) : Joint S S.value (load p i) (load p i) :=
  (slotOf_joint p i).andThen Host.load_joint

theorem store_joint (p : Pointer) (i : Nat) (hv : S.value v v') :
    Joint S Eq (store p i v) (store p i v') :=
  (slotOf_joint p i).andThen fun q => Host.store_joint q hv

theorem not_mem_toString (n : Int) : 'r' ∉ (toString n).toList := by
  have hnat : ∀ m : Nat, 'r' ∉ (toString m).toList := by
    intro m h
    rw [Nat.toString_eq_ofList_toDigits, String.toList_ofList] at h
    exact absurd (Nat.isDigit_of_mem_toDigits (by decide) (by decide) h) (by decide)
  cases n with
  | ofNat m => exact hnat m
  | negSucc m =>
    intro h
    have h : 'r' ∈ ("-" ++ toString (m + 1)).toList := h
    rw [String.toList_append, List.mem_append] at h
    rcases h with h | h
    · exact absurd h (by decide)
    · exact hnat (m + 1) h

/-- The text of a negative size ends with a digit. -/
theorem negativeSize_misses (n : Int) :
    Failure.Misses False (.trap (.internal ("negative collection size " ++ toString n))) := by
  refine Failure.misses_of_text (by simp) fun hl => ?_
  rw [String.toList_append, List.getLast?_append] at hl
  cases hn : (toString n).toList.getLast? with
  | none =>
    rw [hn] at hl
    revert hl
    decide
  | some x =>
    rw [hn] at hl
    cases hl
    exact not_mem_toString n (List.mem_of_getLast? hn)

theorem sizeField_joint (ref : Handle) (offset : Nat) :
    Joint S Eq (sizeField ref offset) (sizeField ref offset) := by
  refine (getField_joint ref offset).bind fun v v' hv => ?_
  cases S.similar hv with
  | same =>
    cases v with
    | int n =>
      dsimp only
      split
      · exact .done rfl
      · exact .fails (Failure.allowed_of_start (by simp)) (negativeSize_misses _)
    | _ => exact .trap nofun nofun fun _ => id
  | closure | enumCase => exact .trap nofun nofun fun _ => id

theorem pointerField_joint (ref : Handle) (offset : Nat) :
    Joint S Eq (pointerField ref offset) (pointerField ref offset) := by
  refine (getField_joint ref offset).bind fun v v' hv => ?_
  cases S.similar hv with
  | same =>
    cases v with
    | pointer p => exact .done rfl
    | _ => exact .trap nofun nofun fun _ => id
  | closure | enumCase => exact .trap nofun nofun fun _ => id

theorem checkedIndex_joint (hv : S.value v v') (size : Nat) :
    Joint S Eq (checkedIndex v size) (checkedIndex v' size) := by
  cases S.similar hv with
  | same =>
    cases v with
    | int n =>
      unfold checkedIndex
      dsimp only
      split
      · exact .done rfl
      · exact .trap nofun nofun fun _ => id
    | _ => exact .trap nofun nofun fun _ => id
  | closure | enumCase => exact .trap nofun nofun fun _ => id

theorem storeAll_joint (p : Pointer) {vs vs' : List Value} (h : List.Forall₂ S.value vs vs') :
    ∀ i, Joint S Eq (storeAll p i vs) (storeAll p i vs') := by
  induction h with
  | nil => exact fun _ => .done rfl
  | cons hv _ ih => exact fun i => (store_joint p i hv).andThen fun _ => ih (i + 1)

theorem findSlot_joint (p : Pointer) (hv : S.value v v') (i n : Nat) :
    Joint S Eq (findSlot p v i n) (findSlot p v' i n) := by
  induction n generalizing i with
  | zero => exact .done rfl
  | succ n ih =>
    refine (load_joint p i).bind fun w w' hw => ?_
    have hbeq : (w' == v') = (w == v) := S.beq hw hv
    rw [hbeq]
    split
    · exact .done rfl
    · exact ih (i + 1)

theorem copySlots_joint (source target : Pointer) (i n : Nat) :
    Joint S Eq (copySlots source target i n) (copySlots source target i n) := by
  induction n generalizing i with
  | zero => exact .done rfl
  | succ n ih =>
    exact (load_joint source i).bind fun _ _ hv =>
      (store_joint target i hv).andThen fun _ => ih (i + 1)

theorem shiftDown_joint (p : Pointer) (i n : Nat) :
    Joint S Eq (shiftDown p i n) (shiftDown p i n) := by
  induction n generalizing i with
  | zero => exact .done rfl
  | succ n ih =>
    exact (load_joint p i).bind fun _ _ hv =>
      (store_joint p (i - 1) hv).andThen fun _ => ih (i + 1)

theorem reallocate_joint (old : Pointer) (count capacity : Nat) :
    Joint S Eq (reallocate old count capacity) (reallocate old count capacity) :=
  (newBlock_joint capacity).andThen fun new => (copySlots_joint old new 0 count).andThen fun _ =>
    (freeBlock_joint old).andThen fun _ => .done rfl

theorem setPointer_joint (ref : Handle) (offset : Nat) (p : Pointer) :
    Joint S Eq (setField ref offset (.pointer p)) (setField ref offset (.pointer p)) :=
  setField_joint ref offset (S.data _ trivial)

theorem setSize_joint (ref : Handle) (offset n : Nat) :
    Joint S Eq (setField ref offset (sizeValue n)) (setField ref offset (sizeValue n)) :=
  setField_joint ref offset (S.data _ trivial)

theorem argument_joint (h : List.Forall₂ S.value args args') (i : Nat) :
    Joint S S.value (argument args i) (argument args' i) := by
  have hi := getElem?_of_forall₂ h i
  unfold argument
  generalize args[i]? = x at hi
  generalize args'[i]? = x' at hi
  cases hi with
  | some hv => exact .done hv
  | none => exact .fault

namespace Array

theorem create_joint (type : StructType) (h : List.Forall₂ S.value args args') :
    Joint S S.value (create type args) (create type args') := by
  unfold create
  rw [h.length_eq]
  exact (newBlock_joint _).andThen fun storage => (storeAll_joint storage h 0).andThen fun _ =>
    (newObject_joint type).andThen fun ref => (setPointer_joint ref _ _).andThen fun _ =>
    (setSize_joint ref _ _).andThen fun _ => (setSize_joint ref _ _).andThen fun _ =>
    .done (S.data _ trivial)

theorem ensureRoom_joint (ref : Handle) (storage : Pointer) (count capacity : Nat) :
    Joint S Eq (ensureRoom ref storage count capacity) (ensureRoom ref storage count capacity) := by
  unfold ensureRoom
  split
  · refine .read fun s t hs => ?_
    rw [hs.limit, hs.limit']
    exact (reallocate_joint storage count _).andThen fun _ =>
      (setPointer_joint ref _ _).andThen fun _ => (setSize_joint ref _ _).andThen fun _ => .done rfl
  · exact .done rfl

theorem append_joint (ref : Handle) (hv : S.value v v') :
    Joint S Eq (append ref v) (append ref v') :=
  (sizeField_joint ref _).andThen fun count => (sizeField_joint ref _).andThen fun capacity =>
    (pointerField_joint ref _).andThen fun old =>
    (ensureRoom_joint ref old count capacity).andThen fun storage =>
    (store_joint storage count hv).andThen fun _ => setSize_joint ref _ _

theorem get_joint (ref : Handle) (hv : S.value v v') :
    Joint S S.value (Array.get ref v) (Array.get ref v') :=
  (sizeField_joint ref _).andThen fun count => (checkedIndex_joint hv count).andThen fun slot =>
    (pointerField_joint ref _).andThen fun storage => load_joint storage slot

theorem set_joint (ref : Handle) {index index' : Value} (hi : S.value index index')
    (hv : S.value v v') : Joint S Eq (Array.set ref index v) (Array.set ref index' v') :=
  (sizeField_joint ref _).andThen fun count => (checkedIndex_joint hi count).andThen fun slot =>
    (pointerField_joint ref _).andThen fun storage => store_joint storage slot hv

theorem remove_joint (ref : Handle) (hv : S.value v v') :
    Joint S S.value (remove ref v) (remove ref v') :=
  (sizeField_joint ref _).andThen fun count => (checkedIndex_joint hv count).andThen fun slot =>
    (pointerField_joint ref _).andThen fun storage =>
    (load_joint storage slot).bind fun _ _ hw => (shiftDown_joint storage _ _).andThen fun _ =>
    (setSize_joint ref _ _).andThen fun _ => .done hw

theorem extent_joint (ref : Handle) : Joint S Eq (extent ref) (extent ref) :=
  (sizeField_joint ref _).andThen fun _ => (pointerField_joint ref _).andThen fun _ => .done rfl

end Array

namespace Dictionary

theorem ensureRoom_joint (ref : Handle) (keys values : Pointer) (count capacity : Nat) :
    Joint S Eq (ensureRoom ref keys values count capacity)
      (ensureRoom ref keys values count capacity) := by
  unfold ensureRoom
  split
  · refine .read fun s t hs => ?_
    rw [hs.limit, hs.limit']
    exact (reallocate_joint keys count _).andThen fun _ =>
      (reallocate_joint values count _).andThen fun _ =>
      (setPointer_joint ref _ _).andThen fun _ => (setPointer_joint ref _ _).andThen fun _ =>
      (setSize_joint ref _ _).andThen fun _ => .done rfl
  · exact .done rfl

theorem set_joint (ref : Handle) {key key' : Value} (hk : S.value key key') (hv : S.value v v') :
    Joint S Eq (Dictionary.set ref key v) (Dictionary.set ref key' v') := by
  refine (sizeField_joint ref _).andThen fun count => (pointerField_joint ref _).andThen fun keys =>
    (pointerField_joint ref _).andThen fun values =>
    (findSlot_joint keys hk 0 count).andThen fun found => ?_
  cases found with
  | some slot => exact store_joint values slot hv
  | none =>
    exact (sizeField_joint ref _).andThen fun capacity =>
      (ensureRoom_joint ref keys values count capacity).andThen fun room =>
      (store_joint room.1 count hk).andThen fun _ => (store_joint room.2 count hv).andThen fun _ =>
      setSize_joint ref _ _

variable {entries entries' : List (Value × Value)}

theorem setAll_joint (ref : Handle)
    (h : List.Forall₂ (fun e e' => S.value e.1 e'.1 ∧ S.value e.2 e'.2) entries entries') :
    Joint S Eq (setAll ref entries) (setAll ref entries') := by
  induction h with
  | nil => exact .done rfl
  | cons he _ ih => exact (set_joint ref he.1 he.2).andThen fun _ => ih

theorem create_joint (type : StructType)
    (h : List.Forall₂ (fun e e' => S.value e.1 e'.1 ∧ S.value e.2 e'.2) entries entries') :
    Joint S S.value (create type entries) (create type entries') := by
  unfold create
  rw [h.length_eq]
  exact (newBlock_joint _).andThen fun _ => (newBlock_joint _).andThen fun _ =>
    (newObject_joint type).andThen fun ref => (setPointer_joint ref _ _).andThen fun _ =>
    (setPointer_joint ref _ _).andThen fun _ => (setSize_joint ref _ _).andThen fun _ =>
    (setSize_joint ref _ _).andThen fun _ => (setAll_joint ref h).andThen fun _ =>
    .done (S.data _ trivial)

theorem extent_joint (ref : Handle) : Joint S Eq (extent ref) (extent ref) :=
  (sizeField_joint ref _).andThen fun _ => (pointerField_joint ref _).andThen fun _ => .done rfl

theorem get_joint (ref : Handle) (hv : S.value v v') :
    Joint S S.value (Dictionary.get ref v) (Dictionary.get ref v') := by
  refine (extent_joint ref).andThen fun extent => (findSlot_joint _ hv 0 _).andThen fun found => ?_
  cases found with
  | some slot => exact (pointerField_joint ref _).andThen fun values => load_joint values slot
  | none => exact .done (S.data _ trivial)

theorem remove_joint (ref : Handle) (hv : S.value v v') :
    Joint S S.value (remove ref v) (remove ref v') := by
  refine (extent_joint ref).andThen fun extent => (findSlot_joint _ hv 0 _).andThen fun found => ?_
  cases found with
  | none => exact .done (S.data _ trivial)
  | some slot =>
    refine (pointerField_joint ref _).andThen fun values =>
      (load_joint values slot).bind fun removed removed' hw => ?_
    have hrest : Joint S S.value
        (do setField ref countField (sizeValue (extent.2 - 1)); pure removed)
        (do setField ref countField (sizeValue (extent.2 - 1)); pure removed') :=
      (setSize_joint ref _ _).andThen fun _ => .done hw
    dsimp only
    split
    · exact (load_joint extent.1 _).bind fun _ _ hk => (load_joint values _).bind fun _ _ hl =>
        (store_joint extent.1 slot hk).andThen fun _ =>
          (store_joint values slot hl).andThen fun _ => hrest
    · exact hrest

end Dictionary

theorem construct_joint (types : Types) {name : String}
    (hn : S.closed → name = Standard.arrayName ∨ name = Standard.dictionaryName)
    (h : List.Forall₂ S.value args args') :
    Joint S S.value (construct types name args) (construct types name args') := by
  unfold construct
  split
  · exact Array.create_joint types.array h
  · rename_i hna
    split
    · cases h with
      | nil => exact Dictionary.create_joint types.dictionary .nil
      | cons _ hs =>
        dsimp only
        rw [List.length_cons, List.length_cons, hs.length_eq]
        exact .trap nofun nofun fun _ => id
    · rename_i hnd
      refine .trap nofun nofun fun hc => ?_
      rcases hn hc with rfl | rfl
      · exact absurd (beq_self_eq_true _) hna
      · exact absurd (beq_self_eq_true _) hnd

theorem contains_joint {extent : Host (Pointer × Nat)} (he : Joint S Eq extent extent)
    (h : List.Forall₂ S.value args args') :
    Joint S S.value (contains extent args) (contains extent args') :=
  he.andThen fun _ => (argument_joint h 0).bind fun _ _ hv =>
    (findSlot_joint _ hv 0 _).andThen fun _ => .done (S.data _ trivial)

theorem invokeArray_joint {method : String} (ref : Handle)
    (hm : S.closed → method ∈ ["append", "get", "set", "remove", "contains"])
    (h : List.Forall₂ S.value args args') :
    Joint S S.value (invokeArray method ref args) (invokeArray method ref args') := by
  have hnone : S.value .none .none := S.data _ trivial
  unfold invokeArray
  split
  · exact (argument_joint h 0).bind fun _ _ hv => (Array.append_joint ref hv).andThen fun _ =>
      .done hnone
  · exact (argument_joint h 0).bind fun _ _ hv => Array.get_joint ref hv
  · exact (argument_joint h 0).bind fun _ _ hi => (argument_joint h 1).bind fun _ _ hv =>
      (Array.set_joint ref hi hv).andThen fun _ => .done hnone
  · exact (argument_joint h 0).bind fun _ _ hv => Array.remove_joint ref hv
  · exact contains_joint (Array.extent_joint ref) h
  · refine .trap nofun nofun fun hc => absurd (hm hc) ?_
    simp_all

theorem invokeDictionary_joint {method : String} (ref : Handle)
    (hm : S.closed → method ∈ ["get", "set", "remove", "contains"])
    (h : List.Forall₂ S.value args args') :
    Joint S S.value (invokeDictionary method ref args) (invokeDictionary method ref args') := by
  unfold invokeDictionary
  split
  · exact (argument_joint h 0).bind fun _ _ hv => Dictionary.get_joint ref hv
  · exact (argument_joint h 0).bind fun _ _ hk => (argument_joint h 1).bind fun _ _ hv =>
      (Dictionary.set_joint ref hk hv).andThen fun _ => .done (S.data _ trivial)
  · exact (argument_joint h 0).bind fun _ _ hv => Dictionary.remove_joint ref hv
  · exact contains_joint (Dictionary.extent_joint ref) h
  · refine .trap nofun nofun fun hc => absurd (hm hc) ?_
    simp_all

theorem invoke_joint {method : Symbol} (ref : Handle) (hm : S.closed → Provides method)
    (h : List.Forall₂ S.value args args') :
    Joint S S.value (invoke method ref args) (invoke method ref args') := by
  unfold invoke
  rw [h.length_eq]
  cases hk : method.kind with
  | method owner name params =>
    have hp : S.closed → owner = Standard.arrayName ∧
        name ∈ ["append", "get", "set", "remove", "contains"] ∨
        owner = Standard.dictionaryName ∧ name ∈ ["get", "set", "remove", "contains"] := by
      intro hc
      obtain ⟨owner', name', params', hk', hp⟩ := hm hc
      rw [hk] at hk'
      cases hk'
      exact hp
    have hne : Standard.dictionaryName ≠ Standard.arrayName := by decide
    dsimp only
    split
    · exact .trap nofun nofun fun _ => id
    split
    · rename_i ha
      refine invokeArray_joint ref (fun hc => ?_) h
      rcases hp hc with ⟨-, hn⟩ | ⟨ho, -⟩
      · exact hn
      · exact absurd (ho.symm.trans (beq_iff_eq.mp ha)) hne
    · rename_i hna
      split
      · refine invokeDictionary_joint ref (fun hc => ?_) h
        rcases hp hc with ⟨ho, -⟩ | ⟨-, hn⟩
        · exact absurd (beq_iff_eq.mpr ho) hna
        · exact hn
      · rename_i hnd
        refine .trap nofun nofun fun hc => ?_
        rcases hp hc with ⟨ho, -⟩ | ⟨ho, -⟩
        · exact absurd (beq_iff_eq.mpr ho) hna
        · exact absurd (beq_iff_eq.mpr ho) hnd
  | _ =>
    refine .fails (Failure.allowed_of_end ?_) (Failure.misses_of_text ?_ ?_)
    · simp [List.getLast?_append]
    · simp [Symbol.text, hk]
    · simp [List.getLast?_append]

theorem expect_joint (hv : S.value v v') : Joint S Eq (expect v) (expect v') := by
  cases S.similar hv with
  | same =>
    cases v with
    | object ref =>
      refine (object_joint ref).bind fun object object' ho => ?_
      rw [ho.type]
      split
      · exact .done rfl
      · exact .trap nofun nofun fun _ => id
    | _ => exact .trap nofun nofun fun _ => id
  | closure | enumCase => exact .trap nofun nofun fun _ => id

theorem subscript_joint {index index' : Value} (hv : S.value v v') (hi : S.value index index') :
    Joint S S.value (subscript v index) (subscript v' index') := by
  refine (expect_joint hv).andThen fun found => ?_
  dsimp only
  split
  · exact Array.get_joint _ hi
  · exact Dictionary.get_joint _ hi

theorem setSubscript_joint {index index' w w' : Value} (hv : S.value v v')
    (hi : S.value index index') (hw : S.value w w') :
    Joint S Eq (setSubscript v index w) (setSubscript v' index' w') := by
  refine (expect_joint hv).andThen fun found => ?_
  dsimp only
  split
  · exact Array.set_joint _ hi hw
  · exact Dictionary.set_joint _ hi hw

end Collection

namespace Value

mutual

theorem bytes_error {e : Cause} : (v : Value) → v.bytes = .error e →
    ∃ type, e = .typeMismatch "_hash" "hashable value" type
  | .none, h | .int _, h | .bool _, h | .string _, h | .pointer _, h | .object _, h => nomatch h
  | .closure _, h | .struct _, h | .boundMethod .., h | .builtin _, h => by
    simp only [bytes, Except.error.injEq] at h
    exact ⟨_, h.symm⟩
  | .enumCase ⟨_, _, _, _, values⟩, h => by
    rw [bytes] at h
    cases hs : hashesOf values with
    | ok hashes =>
      rw [hs] at h
      cases h
    | error e' =>
      rw [hs] at h
      cases h
      exact hashesOf_error values hs

theorem hashesOf_error {e : Cause} : (vs : List Value) → hashesOf vs = .error e →
    ∃ type, e = .typeMismatch "_hash" "hashable value" type
  | [], h => nomatch h
  | v :: vs, h => by
    rw [hashesOf] at h
    cases hv : v.bytes with
    | error e' =>
      rw [hv] at h
      cases h
      exact bytes_error v hv
    | ok bytes =>
      rw [hv] at h
      cases hs : hashesOf vs with
      | ok rest =>
        rw [hs] at h
        cases h
      | error e' =>
        rw [hs] at h
        cases h
        exact hashesOf_error vs hs

end

theorem hash_error {v : Value} {e : Cause} (h : v.hash = .error e) :
    ∃ type, e = .typeMismatch "_hash" "hashable value" type := by
  unfold hash at h
  cases hb : v.bytes with
  | ok bytes =>
    rw [hb] at h
    cases h
  | error e' =>
    rw [hb] at h
    cases h
    exact bytes_error v hb

end Value

namespace Builtin

variable {S : Comparison} {v v' : Value}

theorem expectInt_joint (operation : String) (hv : S.value v v') :
    Joint S Eq (expectInt operation v) (expectInt operation v') := by
  cases S.similar hv with
  | same =>
    cases v with
    | int n => exact .done rfl
    | _ => exact .trap nofun nofun fun _ => id
  | closure | enumCase => exact .trap nofun nofun fun _ => id

theorem expectPointer_joint (operation : String) (hv : S.value v v') :
    Joint S Eq (expectPointer operation v) (expectPointer operation v') := by
  cases S.similar hv with
  | same =>
    cases v with
    | pointer p => exact .done rfl
    | _ => exact .trap nofun nofun fun _ => id
  | closure | enumCase => exact .trap nofun nofun fun _ => id

theorem apply_joint (b : Builtin) {args args' : List Value}
    (h : List.Forall₂ S.value args args') :
    Joint S (fun x y => S.value x.1 y.1 ∧ x.2 = y.2) (b.apply args) (b.apply args') := by
  cases h with
  | nil => cases b <;> exact .fault
  | cons hv h =>
    cases h with
    | nil =>
      cases b with
      | print =>
        have hline := S.text hv
        exact .done ⟨S.data _ trivial, congrArg some hline.symm⟩
      | allocate =>
        refine (expectInt_joint _ hv).andThen fun n => ?_
        split
        · exact .trap nofun nofun fun _ => id
        · exact (newBlock_joint _).andThen fun _ => .done ⟨S.data _ trivial, rfl⟩
      | deref =>
        exact (expectPointer_joint _ hv).andThen fun p => (load_joint p).bind fun _ _ hw =>
          .done ⟨hw, rfl⟩
      | storePtr => exact .fault
      | free =>
        exact (expectPointer_joint _ hv).andThen fun p => (freeBlock_joint p).andThen fun _ =>
          .done ⟨S.data _ trivial, rfl⟩
      | hash =>
        simp only [apply, S.hash hv]
        split
        · exact .done ⟨S.data _ trivial, rfl⟩
        · rename_i he
          obtain ⟨type, rfl⟩ := Value.hash_error he
          exact .trap nofun nofun fun _ => id
    | cons hw h =>
      cases h with
      | nil =>
        cases b with
        | storePtr =>
          exact (expectPointer_joint _ hv).andThen fun p => (store_joint p hw).andThen fun _ =>
            .done ⟨S.data _ trivial, rfl⟩
        | _ => exact .fault
      | cons _ _ => cases b <;> exact .fault

end Builtin

/-! ## A property of all values -/

section Data

variable {closed : Prop} {P : Value → Prop} {args : List Value}
  (hdata : ∀ v : Value, v.Data → P v)

theorem forall₂_same (h : ∀ v ∈ args, P v) : List.Forall₂ (fun v v' => v' = v ∧ P v) args args :=
  List.forall₂_same.mpr fun v hv => ⟨rfl, h v hv⟩

include hdata

namespace Collection

theorem Array.create_safe (type : StructType) (h : ∀ v ∈ args, P v) :
    Safe closed P (Array.create type args) P :=
  safe_of_joint hdata (fun _ => create_joint type (forall₂_same h)) fun _ h => h.2

theorem Dictionary.create_safe (type : StructType) {entries : List (Value × Value)}
    (h : ∀ e ∈ entries, P e.1 ∧ P e.2) : Safe closed P (Dictionary.create type entries) P :=
  safe_of_joint hdata (fun _ => create_joint type (List.forall₂_same.mpr fun e he =>
    ⟨⟨rfl, (h e he).1⟩, ⟨rfl, (h e he).2⟩⟩)) fun _ h => h.2

theorem construct_safe {types : Types} {name : String}
    (hn : closed → name = Standard.arrayName ∨ name = Standard.dictionaryName)
    (h : ∀ v ∈ args, P v) : Safe closed P (construct types name args) P :=
  safe_of_joint hdata (fun _ => construct_joint types hn (forall₂_same h)) fun _ h => h.2

theorem invoke_safe {method : Symbol} (ref : Handle) (hm : closed → Provides method)
    (h : ∀ v ∈ args, P v) : Safe closed P (invoke method ref args) P :=
  safe_of_joint hdata (fun _ => invoke_joint ref hm (forall₂_same h)) fun _ h => h.2

theorem subscript_safe {receiver index : Value} (hr : P receiver) (hi : P index) :
    Safe closed P (subscript receiver index) P :=
  safe_of_joint hdata (fun _ => subscript_joint ⟨rfl, hr⟩ ⟨rfl, hi⟩) fun _ h => h.2

theorem setSubscript_safe {receiver index v : Value} (hr : P receiver) (hi : P index) (hv : P v) :
    Safe closed P (setSubscript receiver index v) fun _ => True :=
  safe_of_joint hdata (fun _ => setSubscript_joint ⟨rfl, hr⟩ ⟨rfl, hi⟩ ⟨rfl, hv⟩)
    fun _ _ => trivial

end Collection

theorem Builtin.apply_safe (b : Builtin) (h : ∀ v ∈ args, P v) :
    Safe closed P (b.apply args) fun r => P r.1 :=
  safe_of_joint (r := fun x y => (y.1 = x.1 ∧ P x.1) ∧ x.2 = y.2) hdata
    (fun _ => b.apply_joint (forall₂_same h)) fun _ h => h.1.2

end Data

end StackCode
