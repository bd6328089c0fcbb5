import Mathlib.Data.List.Forall2
import StackCode.Linking.Entry
import StackCode.Proofs.Parts

/-! # The main chunk

The chunk with which a module starts is well-formed. It calls the chunks of the files and at the end
the main function, and it refers to nothing else.
-/

namespace StackCode

namespace Code

theorem join_cons (p : Code) (ps : List Code) : join (p :: ps) = p ++ join ps := by
  simp [join, joinReversed, List.foldl_append]

theorem fits_join {inLoop inArm : Bool} {t : Targets} {parts : List Code}
    (h : ∀ p ∈ parts, ∀ a, p.Fits inLoop inArm t a) (a : Nat) :
    (join parts).Fits inLoop inArm t a := by
  induction parts generalizing a with
  | nil => trivial
  | cons p ps ih =>
    rw [join_cons]
    exact ⟨h p List.mem_cons_self a, ih (fun q hq => h q (List.mem_cons_of_mem p hq)) _⟩

theorem ends_join (parts : List Code) {last : Code} (h : last.Ends) :
    (join (parts ++ [last])).Ends := by
  induction parts with
  | nil => exact h
  | cons p ps ih =>
    rw [List.cons_append, join_cons]
    exact ends_seq.mpr (.inr ih)

end Code

namespace Linking

open Code

def Starts (module : String) (files : List SourceFile) (main : Option Symbol) (c : Chunk Value) :
    Instruction → Prop
  | ⟨.callChunk, n⟩ => ∃ file ∈ files, c.symbol? n = some (fileSymbol module file.path)
  | ⟨.getModuleFunction, n⟩ => ∃ s, main = some s ∧ c.symbol? n = some s
  | ⟨.pushNone, _⟩ | ⟨.defineLocal, _⟩ | ⟨.defineCell, _⟩ | ⟨.getLocal, _⟩ | ⟨.setLocal, _⟩
  | ⟨.notEqual, _⟩ | ⟨.pop, _⟩ | ⟨.call, _⟩ | ⟨.ret, _⟩ => True
  | _ => False

variable {module : String} {files : List SourceFile} {main : Option Symbol} {c : Chunk Value}
  {V : Instruction → Prop} {e : Int}

theorem Starts.refers {i : Instruction} (h : Starts module files main c i) : c.Refers i := by
  intro o
  obtain ⟨op, operand⟩ := i
  cases op
  case callChunk =>
    obtain ⟨file, -, hs⟩ := h
    exact Option.isSome_of_eq_some hs
  case getModuleFunction =>
    obtain ⟨s, -, hs⟩ := h
    exact Option.isSome_of_eq_some hs
  case pushNone | defineLocal | defineCell | getLocal | setLocal | notEqual | pop | call | ret =>
    rfl
  all_goals exact h.elim

variable {indices : List UInt16}

/-- The symbols that are added stand at the indices that are given back, and those before them stay
where they are. -/
theorem addSymbols?_eq_some {ss : List Symbol} {c' : Chunk Value}
    (h : addSymbols? c ss = some (indices, c')) (hc : c.symbols.size ≤ Chunk.maxEntries) :
    ∃ symbols, c' = { c with symbols } ∧ symbols.size ≤ Chunk.maxEntries ∧
      List.Forall₂ (fun n s => symbols[n.toNat]? = some s) indices ss ∧
      ∀ (k : Nat) (x : Symbol), c.symbols[k]? = some x → symbols[k]? = some x := by
  induction ss generalizing c indices with
  | nil =>
    cases h
    exact ⟨_, rfl, hc, .nil, fun _ _ => id⟩
  | cons s ss ih =>
    rw [addSymbols?] at h
    rcases h₁ : c.addSymbol s with ⟨_ | n, c₁⟩ <;> rw [h₁] at h
    · cases h
    obtain ⟨⟨ns, c₂⟩, h₂, h⟩ := Option.bind_eq_some_iff.mp h
    cases h
    obtain ⟨symbols₁, rfl, hat, hi⟩ := Chunk.addSymbol_eq_some h₁ hc
    obtain ⟨symbols, rfl, hsize, hall, hold⟩ := ih h₂ hi.size
    exact ⟨symbols, rfl, hsize, .cons (hold _ _ hat) hall, fun k x hx => hold k x (hi.keeps k x hx)⟩

/-- Keeps the result of a file unless it is `none`. -/
def keepCode : Code :=
  .when .synthesized (join [.instr 0 ⟨.getLocal, fileSlot⟩, .instr 0 ⟨.setLocal, resultSlot⟩,
    .instr 0 ⟨.pop, ()⟩])

theorem join_runFile (n : UInt16) (rest : List Code) :
    join (runFile n ++ rest) = .instr 0 ⟨.callChunk, n⟩ ++ (.bind 0 fileSlot ++
      (.instr 0 ⟨.getLocal, fileSlot⟩ ++ (.instr 0 ⟨.pushNone, ()⟩ ++
        (.instr 0 ⟨.notEqual, ()⟩ ++ (keepCode ++ join rest))))) := by
  simp only [runFile, List.cons_append, List.nil_append, join_cons, keepCode]

/-- Running the files leaves the stack as it is. -/
theorem moves_runFiles {rest : List Code}
    (hcall : ∀ n ∈ indices, Starts module files main c ⟨.callChunk, n⟩)
    (h : Moves (Starts module files main c) false false (join rest) 0 e) :
    Moves (Starts module files main c) false false (join (indices.flatMap runFile ++ rest)) 0
      e := by
  let S := Starts module files main c
  induction indices with
  | nil => exact h
  | cons n ns ih =>
    have hrest := ih fun k hk => hcall k (List.mem_cons_of_mem n hk)
    have hrun : Moves S false false (.instr 0 ⟨.callChunk, n⟩) 0 1 :=
      .instr (hcall n List.mem_cons_self) rfl (Int.le_refl 0) nofun
    have hget : Moves S false false (.instr 0 ⟨.getLocal, fileSlot⟩) 0 1 :=
      .instr trivial rfl (Int.le_refl 0) nofun
    have hnone : Moves S false false (.instr 0 ⟨.pushNone, ()⟩) 1 2 :=
      .instr trivial rfl (by decide) nofun
    have hne : Moves S false false (.instr 0 ⟨.notEqual, ()⟩) 2 1 :=
      .instr trivial rfl (Int.le_refl 2) nofun
    have hset : Moves S false false (.instr 0 ⟨.setLocal, resultSlot⟩) 1 1 :=
      .instr trivial rfl (Int.le_refl 1) nofun
    have hpop : Moves S false false (.instr 0 ⟨.pop, ()⟩) 1 0 :=
      .instr trivial rfl (Int.le_refl 1) nofun
    have hkeep : Moves S false false keepCode 1 0 :=
      .when (Int.le_refl 1) (hget.seq (hset.seq (hpop.seq .skip)))
    have hbind : Moves S false false (.bind 0 fileSlot) 1 0 := .bind (Int.le_refl 1)
    have hfile := hrun.seq (hbind.seq (hget.seq (hnone.seq (hne.seq (hkeep.seq hrest)))))
    rwa [List.flatMap_cons, List.append_assoc, join_runFile]

theorem fits_runFile (n : UInt16) : ∀ p ∈ runFile n, ∀ a, p.Fits false false {} a := by
  intro p hp a
  simp only [runFile, List.mem_cons, List.not_mem_nil, or_false] at hp
  rcases hp with rfl | rfl | rfl | rfl | rfl | rfl
  iterate 5 trivial
  exact ⟨by decide, trivial, trivial, trivial, trivial⟩

structure IsStart (module : String) (files : List SourceFile) (main : Option Symbol)
    (c : Chunk Value) : Prop where
  symbol : c.symbol = mainSymbol module
  constants : c.constants = #[]
  wellFormed : c.WellFormed
  holds : c.Holds (Starts module files main c)

def startCode (indices : List UInt16) (finish : List Code) : Code :=
  join <| [.instr 0 ⟨.pushNone, ()⟩, .bind 0 resultSlot] ++ indices.flatMap runFile ++ finish ++
    [.instr 0 ⟨.ret, ()⟩]

theorem startCode_eq (indices : List UInt16) (finish : List Code) :
    startCode indices finish = .instr 0 ⟨.pushNone, ()⟩ ++ (.bind 0 resultSlot ++
      join (indices.flatMap runFile ++ (finish ++ [.instr 0 ⟨.ret, ()⟩]))) := by
  simp only [startCode, List.append_assoc, List.cons_append, List.nil_append, join_cons]

theorem fits_startCode {finish : List Code} (h : ∀ p ∈ finish, ∀ a, p.Fits false false {} a) :
    (startCode indices finish).Fits false false {} 0 := by
  refine fits_join (fun p hp => ?_) 0
  simp only [List.mem_append, List.mem_flatMap, List.mem_cons, List.not_mem_nil, or_false] at hp
  rcases hp with (((rfl | rfl) | ⟨n, -, hp⟩) | hp) | rfl
  · exact fun _ => trivial
  · exact fun _ => trivial
  · exact fits_runFile n p hp
  · exact h p hp
  · exact fun _ => trivial

/-- How the main chunk finishes: with the result of the main function, or else with what it has
kept. -/
def Finishes (head : Chunk Value) (main : Option Symbol) (finish : List Code) : Prop :=
  match main with
  | none => finish = [.instr 0 ⟨.getLocal, resultSlot⟩]
  | some s => ∃ n, head.symbol? n = some s ∧
    finish = [.instr 0 ⟨.getModuleFunction, n⟩, .instr 0 ⟨.call, (0 : UInt8)⟩]

/-- The parts of the main chunk: its head with the symbols of the files, and how it finishes. -/
structure Parts (module : String) (files : List SourceFile) (main : Option Symbol)
    (indices : List UInt16) (finish : List Code) (head : Chunk Value) : Prop where
  code : head.code = #[]
  symbol : head.symbol = mainSymbol module
  constants : head.constants = #[]
  plain : head.hasReceiver = false ∧ head.captures = #[] ∧ head.arity = 0
  calls : List.Forall₂ (fun n file => head.symbol? n = some (fileSymbol module file.path))
    indices files
  finishes : Finishes head main finish

theorem exists_parts (h : mainChunk? module files main = some c) :
    ∃ indices finish head, Parts module files main indices finish head ∧
      c = (startCode indices finish).layout [] head := by
  obtain ⟨⟨indices, head⟩, hfiles, h⟩ := Option.bind_eq_some_iff.mp h
  obtain ⟨symbols, rfl, hsize, hindices, -⟩ := addSymbols?_eq_some hfiles (Nat.zero_le _)
  rw [List.forall₂_map_right_iff] at hindices
  cases main with
  | none =>
    cases h
    refine ⟨_, _, _, ?_, rfl⟩
    exact ⟨rfl, rfl, rfl, ⟨rfl, rfl, rfl⟩, hindices, rfl⟩
  | some s =>
    dsimp only at h
    generalize hadd : Chunk.addSymbol _ s = r at h
    rcases r with ⟨_ | n, head⟩
    · cases h
    obtain ⟨symbols', rfl, hat, hi⟩ := Chunk.addSymbol_eq_some hadd hsize
    cases h
    refine ⟨_, _, _, ?_, rfl⟩
    exact ⟨rfl, rfl, rfl, ⟨rfl, rfl, rfl⟩, hindices.imp fun _ _ => hi.keeps _ _, n, hat, rfl⟩

namespace Parts

variable {finish : List Code} {head : Chunk Value}

theorem fits (h : Parts module files main indices finish head) :
    (startCode indices finish).Fits false false {} 0 := by
  refine fits_startCode fun p hp => ?_
  have hfinish := h.finishes
  cases main with
  | none =>
    rw [hfinish] at hp
    rw [List.mem_singleton.mp hp]
    exact fun _ => trivial
  | some s =>
    obtain ⟨n, -, rfl⟩ := hfinish
    simp only [List.mem_cons, List.not_mem_nil, or_false] at hp
    rcases hp with rfl | rfl <;> exact fun _ => trivial

theorem call (h : Parts module files main indices finish head) {n : UInt16} (hn : n ∈ indices) :
    Starts module files main head ⟨.callChunk, n⟩ := by
  obtain ⟨hlen, hat⟩ := List.forall₂_iff_get.mp h.calls
  obtain ⟨k, hk, rfl⟩ := List.mem_iff_getElem.mp hn
  exact ⟨_, List.get_mem files ⟨k, hlen ▸ hk⟩, hat k hk (hlen ▸ hk)⟩

theorem moves (h : Parts module files main indices finish head) :
    Moves (Starts module files main head) false false (startCode indices finish) 0 0 := by
  let S := Starts module files main head
  have hnone : Moves S false false (.instr 0 ⟨.pushNone, ()⟩) 0 1 :=
    .instr trivial rfl (Int.le_refl 0) nofun
  have hbind : Moves S false false (.bind 0 resultSlot) 1 0 := .bind (Int.le_refl 1)
  have hret : Moves S false false (.instr 0 ⟨.ret, ()⟩) 1 0 :=
    .instr trivial rfl (Int.le_refl 1) fun _ => rfl
  rw [startCode_eq]
  refine hnone.seq (hbind.seq (moves_runFiles (fun n hn => h.call hn) ?_))
  have hfinish := h.finishes
  cases main with
  | none =>
    rw [hfinish]
    have hget : Moves S false false (.instr 0 ⟨.getLocal, resultSlot⟩) 0 1 :=
      .instr trivial rfl (Int.le_refl 0) nofun
    exact hget.seq (hret.seq .skip)
  | some s =>
    obtain ⟨n, hn, rfl⟩ := hfinish
    have hget : Moves S false false (.instr 0 ⟨.getModuleFunction, n⟩) 0 1 :=
      .instr ⟨s, rfl, hn⟩ rfl (Int.le_refl 0) nofun
    have happly : Moves S false false (.instr 0 ⟨.call, (0 : UInt8)⟩) 1 1 :=
      .instr trivial rfl (Int.le_refl 1) nofun
    exact hget.seq (happly.seq (hret.seq .skip))

theorem isStart (h : Parts module files main indices finish head) :
    IsStart module files main ((startCode indices finish).layout [] head) := by
  obtain ⟨hwf, hholds⟩ := wellFormed_layout h.code h.fits (fun i _ => Starts.refers)
    (fun slot => by unfold binder; split <;> exact trivial) h.moves (ends_join _ rfl)
  obtain ⟨lines, hlayout⟩ := adds_layout [] (startCode indices finish) head
  refine ⟨?_, ?_, hwf, fun o i hi => ?_, hholds.reached⟩
  · rw [hlayout]
    exact h.symbol
  · rw [hlayout]
    exact h.constants
  · refine ⟨(hholds.listed o i hi).1, fun hj => ?_⟩
    rw [hlayout]
    exact (hholds.listed o i hi).2 hj

end Parts

theorem mainChunk?_eq_some (h : mainChunk? module files main = some c) :
    IsStart module files main c := by
  obtain ⟨indices, finish, head, hparts, rfl⟩ := exists_parts h
  exact hparts.isStart

end Linking

end StackCode
