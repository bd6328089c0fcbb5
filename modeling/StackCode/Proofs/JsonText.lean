import StackCode.Json.Parser
import StackCode.Json.Printer

/-! # Texts of JSON values

What is written for a value is read back as that value, if its numbers are integers of 64 bits.
-/

namespace StackCode.Json

/-- What can follow a value in a text. -/
def Ends (after : List Char) : Prop := ∀ c ∈ after.head?, c = ',' ∨ c = ']' ∨ c = '\x7d'

variable {after : List Char}

/-! ## Numbers -/

theorem isDigit_of_mem_toDigits {n : Nat} {c : Char} (h : c ∈ Nat.toDigits 10 n) :
    isDigit c = true := by
  have hc := Nat.isDigit_of_mem_toDigits (by decide) (by decide) h
  simpa [Char.isDigit, isDigit, Char.le_def] using hc

theorem head?_toDigits_ne {n : Nat} (hn : 0 < n) : (Nat.toDigits 10 n).head? ≠ some '0' := by
  induction n using Nat.strongRecOn with
  | ind n ih =>
    rcases Nat.lt_or_ge n 10 with hlt | hge
    · have hall : ∀ k < 10, 0 < k → Nat.digitChar k ≠ '0' := by decide
      rw [Nat.toDigits_of_lt_base hlt]
      simpa using hall n hlt hn
    · have hrest := ih (n / 10) (by omega) (by omega)
      obtain ⟨c, ds, hd⟩ :=
        List.exists_cons_of_ne_nil (Nat.toDigits_ne_nil (b := 10) (n := n / 10))
      rw [hd] at hrest
      rwa [Nat.toDigits_of_base_le (by decide) hge, hd]

theorem Ends.stops (h : Ends after) :
    after.takeWhile isDigit = [] ∧ after.dropWhile isDigit = after ∧
      readFraction after = some ([], after) ∧ readExponent after = some (none, after) := by
  cases after with
  | nil => exact ⟨rfl, rfl, rfl, rfl⟩
  | cons c rest => rcases h c rfl with rfl | rfl | rfl <;> exact ⟨rfl, rfl, rfl, rfl⟩

theorem readWhole_toDigits (n : Nat) (h : Ends after) :
    readWhole (Nat.toDigits 10 n ++ after) = some (Nat.toDigits 10 n, after) := by
  rcases Nat.eq_zero_or_pos n with rfl | hn
  · cases after with
    | nil => rfl
    | cons c rest => rcases h c rfl with rfl | rfl | rfl <;> rfl
  · obtain ⟨htake, hdrop, -⟩ := h.stops
    have hall : ∀ c ∈ Nat.toDigits 10 n, isDigit c = true := fun _ => isDigit_of_mem_toDigits
    have hhead := head?_toDigits_ne hn
    have htakes := @List.takeWhile_append_of_pos _ _ _ after hall
    have hdrops := @List.dropWhile_append_of_pos _ _ _ after hall
    rw [htake, List.append_nil] at htakes
    rw [hdrop] at hdrops
    obtain ⟨c, ds, hd⟩ := List.exists_cons_of_ne_nil (Nat.toDigits_ne_nil (b := 10) (n := n))
    rw [hd] at htakes hdrops hhead hall ⊢
    rw [List.cons_append] at htakes hdrops ⊢
    unfold readWhole
    split
    · rename_i heq
      cases heq
      exact absurd rfl hhead
    · rename_i heq
      cases heq
      rw [if_pos (hall c List.mem_cons_self), htakes, hdrops]
    · rename_i heq
      cases heq

theorem natOfDigits_toDigits (n : Nat) : natOfDigits (Nat.toDigits 10 n) = n :=
  Nat.ofDigitChars_ten_toDigits

theorem readNumber_toDigits (negative : Bool) {n : Nat} (hn : n < UInt64.size) (h : Ends after) :
    readNumber negative (Nat.toDigits 10 n ++ after) =
      some (ofDigits negative (Nat.toDigits 10 n), after) := by
  obtain ⟨-, -, hfraction, hexponent⟩ := h.stops
  have hlength : (Nat.toDigits 10 n).length ≤ 20 :=
    (Nat.length_toDigits_le_iff (by decide) (by decide)).mpr (Nat.lt_trans hn (by decide))
  have hfinite : isFinite (Nat.toDigits 10 n) 0 = true := by
    have hdrop := (List.dropWhile_sublist (l := Nat.toDigits 10 n) (· == '0')).length_le
    unfold isFinite
    dsimp only
    rw [if_pos]
    simp only [Bool.or_eq_true, decide_eq_true_eq]
    exact .inr (by omega)
  simp [readNumber, readWhole_toDigits n h, hfraction, hexponent, hfinite]

/-! ## Texts -/

theorem readText_escapeChar (c : Char) (read rest : List Char) :
    readText none read ((escapeChar c).toList ++ rest) = readText none (c :: read) rest := by
  by_cases hc : c ∈ ['"', '\\', '\n', '\r', '\t']
  · simp only [List.mem_cons, List.not_mem_nil, or_false] at hc
    rcases hc with rfl | rfl | rfl | rfl | rfl <;> rfl
  · simp only [List.mem_cons, List.not_mem_nil, or_false, not_or] at hc
    obtain ⟨hquote, hslash, hn, hr, ht⟩ := hc
    unfold escapeChar
    simp only [beq_iff_eq, hquote, hslash, hn, hr, ht, if_false]
    split
    · rename_i hlt
      have hunit : ∀ n < 0x20,
          codeUnit? '0' '0' (Nat.digitChar (n / 16)) (Nat.digitChar (n % 16)) = some n := by decide
      have hunit := hunit c.toNat hlt
      simp only [String.toList_append, String.toList_ofList, List.append_assoc]
      change readText none read ('\\' :: 'u' :: '0' :: '0' :: Nat.digitChar (c.toNat / 16) ::
        Nat.digitChar (c.toNat % 16) :: rest) = _
      rw [readText.eq_def]
      simp only [hunit, Char.ofNat_toNat]
      rw [if_neg (by omega), if_neg (by omega)]
    · rw [Char.toString_eq_singleton, String.toList_singleton]
      change readText none read (c :: rest) = _
      rw [readText.eq_def]
      split <;> grind

theorem toList_escape (s : String) :
    (escape s).toList = '"' :: (s.toList.flatMap fun c => (escapeChar c).toList) ++ ['"'] := by
  have hfold : ∀ (cs : List Char) (out : String),
      (cs.foldl (fun out c => out ++ escapeChar c) out).toList =
        out.toList ++ cs.flatMap fun c => (escapeChar c).toList := by
    intro cs
    induction cs with
    | nil => simp
    | cons c cs ih => simp [ih]
  rw [escape, String.foldl_eq_foldl_toList, String.toList_append, hfold]
  rfl

theorem readText_chars (cs read : List Char) :
    readText none read ((cs.flatMap fun c => (escapeChar c).toList) ++ '"' :: after) =
      some (String.ofList (read.reverse ++ cs), after) := by
  induction cs generalizing read with
  | nil => simp [readText]
  | cons c cs ih => simp [readText_escapeChar, ih]

theorem exists_escape (s : String) : ∃ cs, (escape s).toList = '"' :: cs ∧
    ∀ after, readText none [] (cs ++ after) = some (s, after) := by
  refine ⟨_, toList_escape s, fun after => ?_⟩
  simp [readText_chars]

/-! ## Values -/

mutual

/-- The numbers in it are integers of 64 bits. -/
def Plain : Json → Prop
  | int n => Int64.minValue.toInt ≤ n ∧ n < UInt64.size
  | real _ => False
  | arr items => PlainItems items
  | obj members => PlainMembers members
  | _ => True

def PlainItems : List Json → Prop
  | [] => True
  | v :: items => v.Plain ∧ PlainItems items

def PlainMembers : List (String × Json) → Prop
  | [] => True
  | (_, v) :: members => v.Plain ∧ PlainMembers members

end

/-- What is written for a value: it tells the value from the end of an array, and the value is read
from it, whatever may follow. -/
structure Written (j : Json) (c : Char) (cs : List Char) : Prop where
  writes : ∀ out, (write out j).toList = out.toList ++ c :: cs
  starts : isBlank c = false ∧ c ≠ ']'
  reads : ∀ fuel after, cs.length < fuel → Ends after →
    readValue (fuel + 1) (c :: cs ++ after) = some (j, after)

theorem skipBlanks_cons {c : Char} {cs : List Char} (h : isBlank c = false) :
    skipBlanks (c :: cs) = c :: cs := List.dropWhile_cons_of_neg (by simp [h])

theorem isBlank_of_isDigit {c : Char} (h : isDigit c = true) : isBlank c = false := by
  rw [Bool.eq_false_iff]
  intro hb
  simp only [isBlank, Bool.or_eq_true, beq_iff_eq] at hb
  rcases hb with ((rfl | rfl) | rfl) | rfl <;> cases h

theorem written_int {n : Int} (h : (int n).Plain) : ∃ c cs, Written (int n) c cs := by
  obtain ⟨hmin, hmax⟩ := h
  have hleast : Int64.minValue.toInt = -2 ^ 63 := by decide
  cases n with
  | ofNat n =>
    have hn : n < UInt64.size := Int.ofNat_lt.mp hmax
    obtain ⟨c, cs, hcs⟩ := List.exists_cons_of_ne_nil (Nat.toDigits_ne_nil (b := 10) (n := n))
    have hc : isDigit c = true := isDigit_of_mem_toDigits (hcs ▸ List.mem_cons_self)
    have hblank := isBlank_of_isDigit hc
    refine ⟨c, cs, fun out => ?_, ⟨hblank, ?_⟩, fun fuel after _ hends => ?_⟩
    · change (out ++ toString n).toList = _
      simp [hcs]
    · rintro rfl
      cases hc
    · have hint : ofDigits false (Nat.toDigits 10 n) = int n := by
        unfold ofDigits
        dsimp only
        rw [natOfDigits_toDigits, if_neg (by decide), if_pos (Int.ofNat_lt.mpr hn)]
      have hread := readNumber_toDigits false hn hends
      rw [hint, hcs, List.cons_append] at hread
      rw [List.cons_append, readValue, skipBlanks_cons hblank]
      split
      all_goals
        rename_i heq
        first | exact hread | (cases heq; cases hc)
  | negSucc n =>
    have hn : n + 1 < UInt64.size := by
      change n + 1 < 2 ^ 64
      omega
    have hint : ofDigits true (Nat.toDigits 10 (n + 1)) = int (Int.negSucc n) := by
      unfold ofDigits
      dsimp only
      rw [natOfDigits_toDigits, if_pos rfl, if_neg (by omega)]
      rfl
    refine ⟨'-', Nat.toDigits 10 (n + 1), fun out => ?_, ⟨rfl, by decide⟩, fun _ after _ hends =>
      (readNumber_toDigits true hn hends).trans (by rw [hint])⟩
    change (out ++ ("-" ++ toString (n + 1))).toList = _
    simp

theorem readValue_arr {fuel : Nat} {c : Char} {cs : List Char} (hc : isBlank c = false ∧ c ≠ ']') :
    readValue (fuel + 1) ('[' :: c :: cs) = readItems fuel [] (c :: cs) := by
  rw [readValue]
  simp only [skipBlanks_cons (c := '[') rfl, skipBlanks_cons hc.1]
  split <;> simp_all

theorem ends_cons {c : Char} (h : c = ',' ∨ c = ']' ∨ c = '\x7d') : Ends (c :: after) := by
  rintro c ⟨⟩
  exact h

/-- What is written for the items of an array behind another one. -/
structure WrittenItems (items : List Json) (cs : List Char) : Prop where
  writes : ∀ out, (writeItems out items).toList = out.toList ++ cs
  reads : ∀ v d ds, Written v d ds → ∀ read fuel after, (ds ++ cs).length + 1 < fuel →
    readItems (fuel + 1) read (d :: ds ++ (cs ++ ']' :: after)) =
      some (arr (read.reverse ++ v :: items), after)

structure WrittenMembers (members : List (String × Json)) (cs : List Char) : Prop where
  writes : ∀ out, (writeMembers out members).toList = out.toList ++ cs
  reads : ∀ k v d ds, Written v d ds → ∀ read fuel after,
    ((escape k).toList ++ ':' :: d :: ds ++ cs).length < fuel →
      readMembers (fuel + 1) read ((escape k).toList ++ ':' :: d :: ds ++ (cs ++ '\x7d' :: after)) =
        some (obj (read.reverse ++ (k, v) :: members), after)

-- The fuel is more than the characters that are read, since every item and every level of nesting
-- has at least one of its own.
mutual

theorem Plain.written : ∀ j : Json, j.Plain → ∃ c cs, Written j c cs
  | null, _ =>
    ⟨'n', ['u', 'l', 'l'], fun _ => by simp [write], ⟨rfl, by decide⟩, fun _ _ _ _ => rfl⟩
  | bool true, _ =>
    ⟨'t', ['r', 'u', 'e'], fun _ => by simp [write], ⟨rfl, by decide⟩, fun _ _ _ _ => rfl⟩
  | bool false, _ =>
    ⟨'f', ['a', 'l', 's', 'e'], fun _ => by simp [write], ⟨rfl, by decide⟩, fun _ _ _ _ => rfl⟩
  | int _, h => written_int h
  | str s, _ => by
    obtain ⟨cs, hcs, hread⟩ := exists_escape s
    refine ⟨'"', cs, fun _ => by simp [write, hcs], ⟨rfl, by decide⟩, fun fuel after _ _ => ?_⟩
    rw [List.cons_append, readValue]
    change (do let (s, rest) ← readText none [] (cs ++ after); return (str s, rest)) = _
    rw [hread]
    rfl
  | arr [], _ => ⟨'[', [']'], fun _ => by simp [write], ⟨rfl, by decide⟩, fun _ _ _ _ => rfl⟩
  | obj [], _ =>
    ⟨'\x7b', ['\x7d'], fun _ => by simp [write], ⟨rfl, by decide⟩, fun _ _ _ _ => rfl⟩
  | arr (v :: rest), h => by
    obtain ⟨d, ds, hv⟩ := Plain.written v h.1
    obtain ⟨cs, hrest⟩ := Plain.writtenItems rest h.2
    refine ⟨'[', d :: ds ++ cs ++ [']'], fun out => ?_, ⟨rfl, by decide⟩,
      fun fuel after hfuel _ => ?_⟩
    · simp [write, hrest.writes, hv.writes]
    · simp only [List.length_append, List.length_cons, List.length_nil] at hfuel
      obtain ⟨fuel, rfl⟩ := Nat.exists_eq_succ_of_ne_zero (show fuel ≠ 0 by omega)
      have hitems := hrest.reads v d ds hv [] fuel after (by rw [List.length_append]; omega)
      simp only [List.append_assoc, List.cons_append, List.nil_append] at hitems ⊢
      exact (readValue_arr hv.starts).trans hitems
  | obj ((k, v) :: rest), h => by
    obtain ⟨d, ds, hv⟩ := Plain.written v h.1
    obtain ⟨cs, hrest⟩ := Plain.writtenMembers rest h.2
    obtain ⟨es, hk, -⟩ := exists_escape k
    refine ⟨'\x7b', (escape k).toList ++ ':' :: d :: ds ++ cs ++ ['\x7d'], fun out => ?_,
      ⟨rfl, by decide⟩, fun fuel after hfuel _ => ?_⟩
    · simp [write, hrest.writes, hv.writes]
    · simp only [List.length_append, List.length_cons, List.length_nil] at hfuel
      obtain ⟨fuel, rfl⟩ := Nat.exists_eq_succ_of_ne_zero (show fuel ≠ 0 by omega)
      have hmembers := hrest.reads k v d ds hv [] fuel after
        (by simp only [List.length_append, List.length_cons]; omega)
      rw [hk] at hmembers ⊢
      simp only [List.append_assoc, List.cons_append, List.nil_append] at hmembers ⊢
      exact hmembers

theorem Plain.writtenItems : ∀ items : List Json, PlainItems items → ∃ cs, WrittenItems items cs
  | [], _ => by
    refine ⟨[], fun _ => by simp [writeItems], fun v d ds hv read fuel after hfuel => ?_⟩
    obtain ⟨fuel, rfl⟩ := Nat.exists_eq_succ_of_ne_zero (show fuel ≠ 0 by omega)
    simp only [List.length_append] at hfuel
    have hvalue := hv.reads fuel (']' :: after) (by omega) (ends_cons (.inr (.inl rfl)))
    rw [List.nil_append, readItems, hvalue]
    simp [skipBlanks_cons (c := ']') rfl]
  | w :: rest, h => by
    obtain ⟨e, es, hw⟩ := Plain.written w h.1
    obtain ⟨cs, hrest⟩ := Plain.writtenItems rest h.2
    refine ⟨',' :: e :: es ++ cs, fun _ => by simp [writeItems, hrest.writes, hw.writes],
      fun v d ds hv read fuel after hfuel => ?_⟩
    obtain ⟨fuel, rfl⟩ := Nat.exists_eq_succ_of_ne_zero (show fuel ≠ 0 by omega)
    simp only [List.length_append, List.length_cons] at hfuel
    have hvalue := hv.reads fuel (',' :: e :: es ++ (cs ++ ']' :: after)) (by omega)
      (ends_cons (.inl rfl))
    have hitems := hrest.reads w e es hw (v :: read) fuel after (by rw [List.length_append]; omega)
    rw [List.append_assoc, readItems, hvalue]
    simp only [List.cons_append, skipBlanks_cons (c := ',') rfl] at hitems ⊢
    simp [hitems]

theorem Plain.writtenMembers :
    ∀ members : List (String × Json), PlainMembers members → ∃ cs, WrittenMembers members cs
  | [], _ => by
    refine ⟨[], fun _ => by simp [writeMembers], fun k v d ds hv read fuel after hfuel => ?_⟩
    obtain ⟨es, hk, hread⟩ := exists_escape k
    obtain ⟨fuel, rfl⟩ := Nat.exists_eq_succ_of_ne_zero (show fuel ≠ 0 by omega)
    simp only [List.length_append, List.length_cons] at hfuel
    have hvalue := hv.reads fuel ('\x7d' :: after) (by omega) (ends_cons (.inr (.inr rfl)))
    rw [hk, List.nil_append, readMembers]
    simp only [List.append_assoc, List.cons_append, hread, skipBlanks_cons (c := '"') rfl,
      skipBlanks_cons (c := ':') rfl] at hvalue ⊢
    simp [hvalue, skipBlanks_cons (c := '\x7d') rfl]
  | (l, w) :: rest, h => by
    obtain ⟨e, es, hw⟩ := Plain.written w h.1
    obtain ⟨cs, hrest⟩ := Plain.writtenMembers rest h.2
    refine ⟨',' :: ((escape l).toList ++ ':' :: e :: es ++ cs),
      fun _ => by simp [writeMembers, hrest.writes, hw.writes],
      fun k v d ds hv read fuel after hfuel => ?_⟩
    obtain ⟨gs, hk, hread⟩ := exists_escape k
    obtain ⟨fuel, rfl⟩ := Nat.exists_eq_succ_of_ne_zero (show fuel ≠ 0 by omega)
    simp only [List.length_append, List.length_cons] at hfuel
    have hvalue := hv.reads fuel
      (',' :: ((escape l).toList ++ ':' :: e :: es ++ (cs ++ '\x7d' :: after))) (by omega)
      (ends_cons (.inl rfl))
    have hmembers := hrest.reads l w e es hw ((k, v) :: read) fuel after
      (by simp only [List.length_append, List.length_cons]; omega)
    rw [hk, readMembers]
    simp only [List.append_assoc, List.cons_append, hread, skipBlanks_cons (c := '"') rfl,
      skipBlanks_cons (c := ':') rfl] at hvalue hmembers ⊢
    simp [hvalue, hmembers, skipBlanks_cons (c := ',') rfl]

end

theorem parse?_render {j : Json} (h : j.Plain) : parse? j.render = some j := by
  obtain ⟨c, cs, hj⟩ := Plain.written j h
  have htext : j.render.toList = c :: cs := hj.writes ""
  have hread := hj.reads (c :: cs).length [] (Nat.lt_succ_self _) nofun
  rw [List.append_nil] at hread
  unfold parse?
  dsimp only
  rw [htext, hread]
  rfl

end StackCode.Json
