import Ziemniak.BareMetal.Numeral

/-! # Logs of lines

A log is a text of lines, each with a newline behind it.  `logLines` takes a log apart again when no
line has a newline in it.  A line may end in a 64-bit number, written with sixteen hexadecimal
digits behind a `0x`; `readNumbered` finds the number and what stands before it.

`Adds` says of a program what it appends to a log when it returns, and when it does return; one
rule composes two such programs, and one a list of them. -/

namespace BareMetal

/-- The bytes of an ASCII text. -/
def ascii (s : String) : List (BitVec 8) := s.toList.map (fun c => BitVec.ofNat 8 c.toNat)

def newline : BitVec 8 := 0x0A

/-- The text of a log. -/
def logText (ls : List (List (BitVec 8))) : List (BitVec 8) := ls.flatMap (fun l => l ++ [newline])

/-- The lines of a text. -/
def logLines (text : List (BitVec 8)) : List (List (BitVec 8)) := (text.splitOn newline).dropLast

@[simp] theorem logText_nil : logText [] = [] := rfl

@[simp] theorem logText_cons (l : List (BitVec 8)) (ls : List (List (BitVec 8))) :
    logText (l :: ls) = l ++ newline :: logText ls := by simp [logText]

@[simp] theorem logText_append (ls ls' : List (List (BitVec 8))) :
    logText (ls ++ ls') = logText ls ++ logText ls' := by simp [logText]

theorem logText_eq_intercalate (ls : List (List (BitVec 8))) :
    logText ls = [newline].intercalate (ls ++ [[]]) := by
  induction ls with
  | nil => rfl
  | cons l ls ih =>
      rw [logText_cons, ih]
      cases ls with
      | nil => simp
      | cons l' ls => simp

/-- **Taking a log apart.** -/
theorem logLines_logText {ls : List (List (BitVec 8))} (h : ∀ l ∈ ls, newline ∉ l) :
    logLines (logText ls) = ls := by
  have hall : ∀ l ∈ ls ++ [[]], newline ∉ l := by
    intro l hl
    rcases List.mem_append.mp hl with hl | hl
    · exact h l hl
    · rw [List.mem_singleton.mp hl]
      exact List.not_mem_nil
  unfold logLines
  rw [logText_eq_intercalate, List.splitOn_intercalate newline hall (by simp),
    List.dropLast_concat]

/-! ### Numbers at the end of a line -/

/-- The text of a number. -/
def hexText (v : BitVec 64) : List (BitVec 8) := [0x30, 0x78] ++ upperHex.numeral 16 v.toNat

def numbered (label : List (BitVec 8)) (v : BitVec 64) : List (BitVec 8) := label ++ hexText v

/-- What stands before the number, and the number. -/
def readNumbered (line : List (BitVec 8)) : Option (List (BitVec 8) × BitVec 64) :=
  let label := line.take (line.length - 18)
  let number := line.drop (line.length - 18)
  if number.take 2 = [0x30, 0x78] then
    (upperHex.read (number.drop 2)).map (fun n => (label, BitVec.ofNat 64 n))
  else none

@[simp] theorem hexText_length (v : BitVec 64) : (hexText v).length = 18 := by simp [hexText]

/-- **Reading a number back.** -/
theorem readNumbered_numbered (label : List (BitVec 8)) (v : BitVec 64) :
    readNumbered (numbered label v) = some (label, v) := by
  have hlen : (numbered label v).length - 18 = label.length := by simp [numbered]
  have hlt : v.toNat < 16 ^ 16 := v.isLt
  have hread : upperHex.read (upperHex.numeral 16 v.toNat) = some v.toNat := by
    rw [upperHex.read_numeral (by norm_num), Nat.mod_eq_of_lt hlt]
  have hmark : (hexText v).take 2 = [0x30, 0x78] := rfl
  have hdigits : (hexText v).drop 2 = upperHex.numeral 16 v.toNat := rfl
  unfold readNumbered
  rw [hlen]
  unfold numbered
  rw [List.drop_left, List.take_left]
  simp only [hmark, hdigits, hread, if_true, Option.map_some, BitVec.ofNat_toNat,
    BitVec.setWidth_eq]

theorem ne_of_mem_hexText {v : BitVec 64} {c : BitVec 8} (hc : c ∈ hexText v) :
    c ≠ newline ∧ c ≠ 0 := by
  unfold hexText at hc
  rcases List.mem_append.mp hc with hc | hc
  · simp only [List.mem_cons, List.not_mem_nil, or_false] at hc
    rcases hc with rfl | rfl <;> decide
  · obtain ⟨d, hd, rfl⟩ := upperHex.mem_numeral (by norm_num) hc
    interval_cases d <;> decide

theorem not_mem_numbered {label : List (BitVec 8)} (h : newline ∉ label) (v : BitVec 64) :
    newline ∉ numbered label v := by
  intro hmem
  rcases List.mem_append.mp hmem with hmem | hmem
  · exact h hmem
  · exact (ne_of_mem_hexText hmem).1 rfl

/-! ### Programs that log -/

section adds

variable {σ α β : Type}

/-- Started where `I` holds, the program appends `l` to the log and keeps `I`, and if `R` it
returns. -/
structure Adds (R : Prop) (I : σ → Prop) (log : σ → List α) (f : σ → Option σ) (l : List α) :
    Prop where
  adds : ∀ s t, I s → f s = some t → I t ∧ log t = log s ++ l
  returns : R → ∀ s, I s → ∃ t, f s = some t

variable {R : Prop} {I : σ → Prop} {log : σ → List α}

theorem adds_some : Adds R I log some [] where
  adds s t hs h := by
    obtain rfl := Option.some.inj h
    exact ⟨hs, (List.append_nil _).symm⟩
  returns _ s _ := ⟨s, rfl⟩

theorem Adds.bind {f g : σ → Option σ} {l l' : List α} (hf : Adds R I log f l)
    (hg : Adds R I log g l') : Adds R I log (fun s => (f s).bind g) (l ++ l') where
  adds s u hs h := by
    obtain ⟨t, ht, hu⟩ := Option.bind_eq_some_iff.mp h
    obtain ⟨hIt, hlt⟩ := hf.adds s t hs ht
    obtain ⟨hIu, hlu⟩ := hg.adds t u hIt hu
    refine ⟨hIu, ?_⟩
    rw [hlu, hlt, List.append_assoc]
  returns hR s hs := by
    obtain ⟨t, ht⟩ := hf.returns hR s hs
    obtain ⟨u, hu⟩ := hg.returns hR t (hf.adds s t hs ht).1
    exact ⟨u, Option.bind_eq_some_iff.mpr ⟨t, ht, hu⟩⟩

theorem Adds.foldlM {f : β → σ → Option σ} {l : β → List α} {bs : List β}
    (h : ∀ b ∈ bs, Adds R I log (f b) (l b)) :
    Adds R I log (fun s => bs.foldlM (fun s b => f b s) s) (bs.flatMap l) := by
  induction bs with
  | nil => exact adds_some
  | cons b bs ih =>
      have hrest := ih (fun b' hb' => h b' (List.mem_cons_of_mem b hb'))
      exact (h b List.mem_cons_self).bind hrest

end adds

end BareMetal
