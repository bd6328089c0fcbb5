import StackCode.Proofs.Interning

/-! # Lines of bytes

The lines of a chunk are kept in runs. Spread out, they are one line for each byte: that of the
operation which wrote the byte, whatever is written over it later.
-/

namespace StackCode.Chunk

/-- The lines of successive bytes. -/
def spread (runs : List LineRun) : List UInt32 :=
  runs.flatMap fun run => List.replicate run.count run.line

@[simp] theorem spread_append (runs runs' : List LineRun) :
    spread (runs ++ runs') = spread runs ++ spread runs' := List.flatMap_append

@[simp] theorem spread_singleton (run : LineRun) :
    spread [run] = List.replicate run.count run.line := by simp [spread]

theorem lineIn_eq (i : Nat) (runs : List LineRun) : lineIn i runs = (spread runs)[i]? := by
  induction runs generalizing i with
  | nil => rfl
  | cons run runs ih =>
    have hspread : spread (run :: runs) = List.replicate run.count run.line ++ spread runs := rfl
    rw [lineIn, hspread, List.getElem?_append, List.length_replicate, ih]
    split
    · rename_i hlt
      rw [List.getElem?_replicate_of_lt hlt]
    · rfl

/-- A byte extends the last run, if it is of the same line, and else begins one. -/
theorem pushLine_eq (lines : Array LineRun) (line : UInt32) :
    ∃ init k, pushLine lines line = Array.push init ⟨line, k + 1⟩ ∧
      (lines = init ∧ k = 0 ∨ lines = init.push ⟨line, k⟩) := by
  by_cases hne : lines = #[]
  · subst hne
    exact ⟨#[], 0, rfl, .inl ⟨rfl, rfl⟩⟩
  · obtain ⟨init, run, rfl⟩ := Array.exists_push_of_ne_empty hne
    by_cases h : run.line = line
    · subst h
      exact ⟨init, run.count, by simp [pushLine], .inr rfl⟩
    · exact ⟨init.push run, 0, by simp [pushLine, h], .inl ⟨rfl, rfl⟩⟩

/-- The bytes of the chunk have the given lines. -/
structure Lined (c : Chunk Value) (ls : List UInt32) : Prop where
  spread : spread c.lines.toList = ls
  size : ls.length = c.size
  counts : ∀ run ∈ c.lines, 0 < run.count

variable {head c c' : Chunk Value} {ls : List UInt32} {edits : List Edit} {i : Nat}

namespace Lined

theorem congr (h : c.Lined ls) (hl : c'.lines = c.lines) (hs : c'.size = c.size) : c'.Lined ls :=
  ⟨hl ▸ h.spread, h.size.trans hs.symm, hl ▸ h.counts⟩

/-- Past the end, the line of the last byte is found. -/
theorem lineAt_eq (h : c.Lined ls) (i : Nat) : c.lineAt i = ls[i]?.getD (ls.getLast?.getD 0) := by
  have hlast : ls.getLast? = c.lines.back?.map (·.line) := by
    rw [← h.spread]
    by_cases hne : c.lines = #[]
    · rw [hne]
      rfl
    · obtain ⟨init, run, he⟩ := Array.exists_push_of_ne_empty hne
      have hpos := h.counts run (he ▸ Array.mem_push_self)
      simp [he, List.getLast?_append, List.getLast?_replicate, Nat.ne_of_gt hpos]
  rw [lineAt, lineIn_eq, h.spread, hlast]
  cases ls[i]? <;> rfl

theorem writeByte (h : c.Lined ls) (byte : UInt8) (line : UInt32) :
    (c.writeByte byte line).Lined (ls ++ [line]) := by
  obtain ⟨init, k, hpush, hinit⟩ := pushLine_eq c.lines line
  have hs := h.spread
  constructor
  · rcases hinit with ⟨rfl, rfl⟩ | he
    · simp [Chunk.writeByte, hpush, hs]
    · rw [he] at hs
      simp [Chunk.writeByte, hpush, ← hs, List.replicate_succ']
  · simp [Chunk.writeByte, Chunk.size, h.size]
  · intro run hrun
    rw [Chunk.writeByte, hpush, Array.mem_push] at hrun
    rcases hrun with hrun | rfl
    · refine h.counts run ?_
      rcases hinit with ⟨rfl, -⟩ | he
      · exact hrun
      · exact he ▸ Array.mem_push_of_mem _ hrun
    · exact Nat.succ_pos k

theorem writeBytes (h : c.Lined ls) (bytes : List UInt8) (line : UInt32) :
    (c.writeBytes bytes line).Lined (ls ++ List.replicate bytes.length line) := by
  induction bytes generalizing c ls with
  | nil => simpa [Chunk.writeBytes] using h
  | cons byte bytes ih =>
    simpa [Chunk.writeBytes, List.replicate_succ] using ih (h.writeByte byte line)

end Lined

def Edit.line? : Edit → Option UInt32
  | write _ line | writeConstant _ line | writeJump _ line | writeLoop _ line => some line
  | _ => none

theorem patchJump_keeps (c : Chunk Value) (place : Nat) :
    (c.patchJump place).2.lines = c.lines ∧ (c.patchJump place).2.size = c.size := by
  rw [patchJump]
  dsimp only
  split
  · split
    · exact ⟨rfl, by simp [patchWord, Chunk.size]⟩
    · exact ⟨rfl, rfl⟩
  · exact ⟨rfl, rfl⟩

theorem patchJump_eq_of_none {place : Nat} (h : (c.patchJump place).1 = none) :
    (c.patchJump place).2 = c := by
  rw [patchJump] at h ⊢
  dsimp only at h ⊢
  split
  · split
    · simp [*] at h
    · rfl
  · rfl

theorem writeLoop_eq_of_none {start : Nat} {line : UInt32}
    (h : (c.writeLoop start line).1 = none) : (c.writeLoop start line).2 = c := by
  rw [writeLoop] at h ⊢
  dsimp only at h ⊢
  split
  · split
    · simp [*] at h
    · rfl
  · rfl

/-- What an operation writes gets its line, and all else keeps its line. -/
theorem Lined.edit (h : c.Lined ls) (e : Edit) :
    ∃ more, (c.edit e).Lined (ls ++ more) ∧ ∀ line ∈ more, e.line? = some line := by
  have hkeep {c' : Chunk Value} (hl : c'.lines = c.lines) (hs : c'.size = c.size) :
      ∃ more, c'.Lined (ls ++ more) ∧ ∀ line ∈ more, e.line? = some line :=
    ⟨[], by simpa using h.congr hl hs, by simp⟩
  have hwrite {c' : Chunk Value} {line : UInt32} (bytes : List UInt8) (hl : c'.lines = c.lines)
      (hs : c'.size = c.size) (he : e.line? = some line) :
      ∃ more, (c'.writeBytes bytes line).Lined (ls ++ more) ∧ ∀ l ∈ more, e.line? = some l :=
    ⟨_, (h.congr hl hs).writeBytes bytes line, fun l hm => List.eq_of_mem_replicate hm ▸ he⟩
  cases e with
  | addConstant v =>
    rw [Chunk.edit, addConstant_eq]
    exact hkeep rfl rfl
  | addSymbol s =>
    rw [Chunk.edit, addSymbol_eq]
    exact hkeep rfl rfl
  | write bytes line => exact hwrite bytes rfl rfl rfl
  | writeConstant v line =>
    rw [Chunk.edit, writeConstant, addConstant_eq]
    rcases intern Value.isSameConstant c.constants v with ⟨_ | n, constants⟩
    · exact hkeep rfl rfl
    · exact hwrite _ rfl rfl rfl
  | writeJump op line => exact hwrite [op.toByte, lowByte 0, highByte 0] rfl rfl rfl
  | writeLoop start line =>
    rw [Chunk.edit, writeLoop]
    dsimp only
    split
    · split
      · exact hwrite _ rfl rfl rfl
      · exact hkeep rfl rfl
    · exact hkeep rfl rfl
  | patchWord place n => exact hkeep rfl (by simp [Chunk.edit, patchWord, Chunk.size])
  | patchOp place op => exact hkeep rfl (by simp [Chunk.edit, patchOp, Chunk.size])
  | patchJump place => exact hkeep (c.patchJump_keeps place).1 (c.patchJump_keeps place).2

theorem Lined.editAll (h : c.Lined ls) (edits : List Edit) :
    ∃ more, (c.editAll edits).Lined (ls ++ more) := by
  induction edits generalizing c ls with
  | nil => exact ⟨[], by simpa [Chunk.editAll] using h⟩
  | cons e edits ih =>
    obtain ⟨more, hm, -⟩ := h.edit e
    obtain ⟨rest, hr⟩ := ih hm
    exact ⟨more ++ rest, by simpa [Chunk.editAll] using hr⟩

/-- The operation wrote the byte: it is the one by which the code became longer than the offset. -/
def Wrote (head : Chunk Value) (edits : List Edit) (e : Edit) (i : Nat) : Prop :=
  ∃ before later, edits = before ++ e :: later ∧
    (head.editAll before).size ≤ i ∧ i < ((head.editAll before).edit e).size

theorem exists_wrote (hi : head.size ≤ i) (h : i < (head.editAll edits).size) :
    ∃ e, Wrote head edits e i := by
  induction edits generalizing head with
  | nil => exact absurd h (Nat.not_lt.mpr hi)
  | cons e edits ih =>
    by_cases he : i < (head.edit e).size
    · exact ⟨e, [], edits, rfl, hi, he⟩
    · obtain ⟨e', before, later, rfl, hb, ha⟩ := ih (Nat.not_lt.mp he) h
      exact ⟨e', e :: before, later, rfl, hb, ha⟩

theorem Lined.line?_of_wrote (h : head.Lined []) {e : Edit} (hw : Wrote head edits e i) :
    e.line? = some ((head.editAll edits).lineAt i) := by
  obtain ⟨before, later, rfl, hb, ha⟩ := hw
  obtain ⟨first, hfirst⟩ := h.editAll before
  obtain ⟨more, hmore, hline⟩ := hfirst.edit e
  obtain ⟨rest, hrest⟩ := hmore.editAll later
  rw [← hfirst.size] at hb
  rw [← hmore.size, List.length_append] at ha
  have hlt : i - first.length < more.length := by simp at hb ha; omega
  have hall : head.editAll (before ++ e :: later) =
      ((head.editAll before).edit e).editAll later := by
    simp [Chunk.editAll]
  rw [hall, hrest.lineAt_eq, List.getElem?_append_left (by simpa using ha),
    List.getElem?_append_right (by simpa using hb)]
  simpa [hlt] using hline _ (List.getElem_mem hlt)

/-- On a chunk that began without code, whatever was done to it, every byte has the line of the
operation that wrote it, and what is past the end has the line of the last byte. Patches change no
line, and a jump that is too far leaves the chunk as it is. -/
theorem lines_follow_writes {head c : Chunk Value} {edits : List Edit} (hcode : head.code = #[])
    (hlines : head.lines = #[]) (h : head.editAll edits = c) :
    (∀ i < c.size, (∃ e, Wrote head edits e i) ∧
      ∀ e, Wrote head edits e i → e.line? = some (c.lineAt i)) ∧
    (∀ i, c.size ≤ i → c.lineAt i = if c.size = 0 then 0 else c.lineAt (c.size - 1)) ∧
    (∀ place n op i, (c.patchWord place n).lineAt i = c.lineAt i ∧
      (c.patchOp place op).lineAt i = c.lineAt i ∧
      (c.patchJump place).2.lineAt i = c.lineAt i) ∧
    (∀ place, (place + 2 ≤ c.size →
        ((c.patchJump place).1 = none ↔ 32767 < c.size - (place + 2))) ∧
      ((c.patchJump place).1 = none → (c.patchJump place).2 = c)) ∧
    ∀ start line, (start ≤ c.size →
        ((c.writeLoop start line).1 = none ↔ 32767 < c.size + 3 - start)) ∧
      ((c.writeLoop start line).1 = none → (c.writeLoop start line).2 = c) := by
  have hzero : head.size = 0 := by simp [Chunk.size, hcode]
  have hhead : head.Lined [] := ⟨by simp [hlines, spread], hzero.symm, by simp [hlines]⟩
  obtain ⟨ls, hls⟩ := hhead.editAll edits
  rw [h, List.nil_append] at hls
  refine ⟨fun i hi => ⟨exists_wrote (by omega) (h ▸ hi), fun e he => h ▸ hhead.line?_of_wrote he⟩,
    fun i hi => ?_, fun place n op i => ⟨rfl, rfl, ?_⟩, fun place => ⟨fun hp => ?_, fun hn => ?_⟩,
    fun start line => ⟨fun hs => ?_, fun hn => ?_⟩⟩
  · rw [← hls.size] at hi ⊢
    rw [hls.lineAt_eq, hls.lineAt_eq, List.getElem?_eq_none hi, ← List.getLast?_eq_getElem?]
    cases ls <;> simp [List.getLast?_cons]
  · rw [lineAt, (c.patchJump_keeps place).1, ← lineAt]
  · rw [patchJump, if_pos hp]
    dsimp only
    split
    · rename_i hle
      exact iff_of_false (by simp) (Nat.not_lt.mpr hle)
    · rename_i hfar
      exact iff_of_true rfl (Nat.not_le.mp hfar)
  · exact patchJump_eq_of_none hn
  · rw [writeLoop, if_pos (by omega)]
    dsimp only
    split
    · rename_i hle
      exact iff_of_false (by simp) (Nat.not_lt.mpr hle)
    · rename_i hfar
      exact iff_of_true rfl (Nat.not_le.mp hfar)
  · exact writeLoop_eq_of_none hn

/-- Code that comes back to a line, with a jump that is patched behind another line. -/
def returning : List Edit :=
  [.write [Opcode.pushNone.toByte] 3, .writeJump .jump 3, .writeConstant (.int 7) 5, .writeLoop 0 3,
    .patchJump 2]

def blank : Chunk Value := { name := "test", symbol := .value "main" "test" }

theorem lines_follow_writes_returning : (blank.editAll returning).lineAt 5 = 5 ∧
    ∀ e, Wrote blank returning e 9 → e.line? = some 3 := by
  have hline : (blank.editAll returning).lineAt 9 = 3 := by decide +kernel
  exact ⟨by decide +kernel, hline ▸ ((lines_follow_writes rfl rfl rfl).1 9 (by decide +kernel)).2⟩

end StackCode.Chunk
