import Ziemniak.BareMetal.Numeral
import Ziemniak.Stage2.Video

/-! # The characters of the text output

`video_print` and `video_print_hex` with the list of the characters they have handled.
Forgetting the list leaves the functions of the driver (`printC_val`).

The index of `video_print` has 16 bits.  `handles_iff` says that a string is handled character by
character exactly when it is shorter than `2 ^ 16`; the index of a longer one wraps before it
comes to the end.

`videoConvertHex` is the loop that fills the static buffer, and `printHexC_chars` what
`video_print_hex` prints of it. -/

namespace Ziemniak.Stage2.Video

open BareMetal

/-! ### Strings -/

/-- A string: memory from its first byte on, and where its first zero is. -/
structure CString where
  mem : ℕ → BitVec 8
  len : ℕ
  ends : mem len = 0
  nonzero : ∀ i < len, mem i ≠ 0

def CString.chars (text : CString) : List (BitVec 8) := (List.range text.len).map text.mem

/-- What `video_print` does with a character. -/
def handle (v : Video) (c : BitVec 8) : Video := if c = 0x0A then v.newline else v.putc c

/-- The driver's variables and the characters handled so far, the last one at the end. -/
abbrev Handled := Video × List (BitVec 8)

/-- One round of the loop of `video_print`, at index `s.1`. -/
def printRoundC (text : ℕ → BitVec 8) (s : BitVec 16 × Handled) : Option (BitVec 16 × Handled) :=
  some (s.1 + 1, handle s.2.1 (text s.1.toNat), s.2.2 ++ [text s.1.toNat])

def printC (fuel : ℕ) (text : ℕ → BitVec 8) (s : Handled) : Option Handled :=
  (whileLoop (fun s : BitVec 16 × Handled => text s.1.toNat != 0) (printRoundC text) fuel
    (0, s)).map Prod.snd

theorem printC_val (fuel : ℕ) (text : ℕ → BitVec 8) (s : Handled) :
    (printC fuel text s).map Prod.fst = s.1.print fuel text := by
  have hround : ∀ s : BitVec 16 × Handled, (printRoundC text s).map (fun s => (s.1, s.2.1)) =
      some (s.1 + 1, if text s.1.toNat = 0x0A then s.2.1.newline
        else s.2.1.putc (text s.1.toNat)) := fun _ => rfl
  unfold printC print
  rw [← whileLoop_map (fun s : BitVec 16 × Handled => (s.1, s.2.1)) (fun _ => rfl) hround fuel
    (0, s), Option.map_map, Option.map_map]
  rfl

/-- The call ends, and has handled every character once and in order. -/
def Handles (text : CString) (s : Handled) : Prop :=
  ∃ n, ∀ fuel, n ≤ fuel →
    printC fuel text.mem s = some (text.chars.foldl handle s.1, s.2 ++ text.chars)

theorem foldl_handled (l : List (BitVec 8)) (s : Handled) :
    l.foldl (fun h c => (handle h.1 c, h.2 ++ [c])) s = (l.foldl handle s.1, s.2 ++ l) := by
  induction l generalizing s with
  | nil => simp
  | cons c l ih => simp [ih]

theorem printC_chars (text : CString) (hlen : text.len < 2 ^ 16) (s : Handled) {fuel : ℕ}
    (hfuel : 2 ^ 16 ≤ fuel) :
    printC fuel text.mem s = some (text.chars.foldl handle s.1, s.2 ++ text.chars) := by
  have hscan := whileLoop_scan (a := text.mem) (g := fun c => c != 0)
    (f := fun (h : Handled) c => (handle h.1 c, h.2 ++ [c])) hlen (by rw [text.ends]; rfl)
    (fun i hi => bne_iff_ne.mpr (text.nonzero i hi)) s (hlen.le.trans hfuel)
  rw [foldl_handled] at hscan
  unfold printC printRoundC
  rw [hscan]
  rfl

theorem print_chars (text : CString) (hlen : text.len < 2 ^ 16) (v : Video) {fuel : ℕ}
    (hfuel : 2 ^ 16 ≤ fuel) : v.print fuel text.mem = some (text.chars.foldl handle v) := by
  have hval := printC_val fuel text.mem (v, [])
  rw [printC_chars text hlen (v, []) hfuel] at hval
  exact hval.symm

/-- The index never leaves a string of `2 ^ 16` characters. -/
theorem printC_long (text : CString) (hlen : 2 ^ 16 ≤ text.len) (s : Handled) (fuel : ℕ) :
    printC fuel text.mem s = none := by
  have hloop := whileLoop_diverges (c := fun s : BitVec 16 × Handled => text.mem s.1.toNat != 0)
    (f := printRoundC text.mem) (I := fun _ => True)
    (by
      intro t _
      have hi := t.1.isLt
      exact bne_iff_ne.mpr (text.nonzero t.1.toNat (by omega)))
    (fun _ _ _ _ => trivial) (s := (0, s)) trivial fuel
  unfold printC
  rw [hloop]
  rfl

/-- **Printing a string.** -/
theorem handles_iff (text : CString) (s : Handled) : Handles text s ↔ text.len < 2 ^ 16 := by
  constructor
  · rintro ⟨n, hn⟩
    by_contra hlen
    have hrun := hn n le_rfl
    rw [printC_long text (by omega) s n] at hrun
    cases hrun
  · intro hlen
    exact ⟨2 ^ 16, fun fuel hfuel => printC_chars text hlen s hfuel⟩

/-- The shortest string that is not handled. -/
def longString : CString where
  mem i := if i < 2 ^ 16 then 0x41 else 0
  len := 2 ^ 16
  ends := if_neg (Nat.lt_irrefl _)
  nonzero i hi := by
    rw [if_pos hi]
    decide

theorem longString_endless :
    ¬ Handles longString (init 80 25 (fun _ => 0) (fun _ => 0), []) := by
  rintro ⟨n, hn⟩
  have hrun := hn n le_rfl
  rw [printC_long longString le_rfl] at hrun
  cases hrun

/-! ### Hexadecimal numbers -/

/-- A round of the loop of `video_convert_hex`. -/
def convertRound (val : BitVec 64) (i : BitVec 8) (buf : ℕ → BitVec 8) : ℕ → BitVec 8 :=
  let temp : BitVec 8 := ((val >>> (4 * (15 - i.toNat))) &&& 0x0F).setWidth 8
  if temp < 0x0A then Function.update buf i.toNat (temp + 0x30)
  else Function.update buf i.toNat (temp - 10 + 0x41)

/-- The static buffer behind a call that finds `buf` in it. -/
def videoConvertHex (val : BitVec 64) (buf : ℕ → BitVec 8) : ℕ → BitVec 8 :=
  Function.update (rounds (convertRound val) (List.range 16) buf) 16 0

/-- `video_print_hex` with the buffer that `video_convert_hex` finds. -/
def printHexC (fuel : ℕ) (val : BitVec 64) (offset : BitVec 8) (buf : ℕ → BitVec 8) (s : Handled) :
    Option Handled :=
  if offset < 16 then do
    let s ← printC fuel (fun i => [0x30, 0x78].getD i 0) s
    let s ← printC fuel (fun i => videoConvertHex val buf (offset.toNat + i)) s
    printC fuel (fun i => [0x20].getD i 0) s
  else some s

theorem videoConvertHex_eq (val : BitVec 64) (buf : ℕ → BitVec 8) {i : ℕ} (hi : i ≤ 16) :
    videoConvertHex val buf i = convertHex val i := by
  have hround : ∀ j < 16, ∀ a, convertRound val (BitVec.ofNat 8 j) a =
      Function.update a (0 + j) (convertHex val j) := by
    intro j hj a
    have hnat : (BitVec.ofNat 8 j).toNat = j := Nat.mod_eq_of_lt (by omega)
    unfold convertRound convertHex
    rw [hnat, if_pos hj, Nat.zero_add]
    simp only
    split_ifs <;> rfl
  unfold videoConvertHex
  by_cases hlast : i = 16
  · rw [hlast, Function.update_self]
    rfl
  · rw [Function.update_of_ne hlast, rounds_update hround, if_pos (by omega), Nat.sub_zero]

theorem hexDigits_eq (val : BitVec 64) : hexDigits val = upperHex.numeral 16 val.toNat := rfl

theorem videoConvertHex_digits (val : BitVec 64) (buf : ℕ → BitVec 8) :
    (List.range 16).map (videoConvertHex val buf) = upperHex.numeral 16 val.toNat := by
  rw [← hexDigits_eq]
  unfold hexDigits
  apply List.map_congr_left
  intro i hi
  have hlt : i < 16 := List.mem_range.mp hi
  rw [videoConvertHex_eq val buf (by omega), convertHex_eq val hlt]

def Text.toCString (text : Text) : CString where
  mem := text.mem
  len := text.len
  ends := text.ends
  nonzero := text.nonzero

/-- The string in the static buffer, from digit `offset` on. -/
def bufferText (val : BitVec 64) (buf : ℕ → BitVec 8) (offset : BitVec 8) (h : offset < 16) :
    CString where
  mem i := videoConvertHex val buf (offset.toNat + i)
  len := 16 - offset.toNat
  ends := by
    have hlt : offset.toNat < 16 := h
    rw [videoConvertHex_eq val buf (by omega)]
    exact (hexText val offset h).ends
  nonzero i hi := by
    rw [videoConvertHex_eq val buf (by omega)]
    exact (hexText val offset h).nonzero i hi

theorem bufferText_chars (val : BitVec 64) (buf : ℕ → BitVec 8) {offset : BitVec 8}
    (h : offset < 16) :
    (bufferText val buf offset h).chars = (hexDigits val).drop offset.toNat := by
  have hlt : offset.toNat < 16 := h
  rw [← hexText_bytes val offset h]
  apply List.map_congr_left
  intro i hi
  have hi' : i < 16 - offset.toNat := List.mem_range.mp hi
  exact videoConvertHex_eq val buf (by omega)

theorem hexBytes_chars (val : BitVec 64) {offset : BitVec 8} (h : offset < 16) :
    hexBytes val offset = prefixText.toCString.chars ++
      (hexText val offset h).toCString.chars ++ spaceText.toCString.chars := by
  have hdigits : (hexText val offset h).toCString.chars = (hexDigits val).drop offset.toNat :=
    hexText_bytes val offset h
  rw [hexBytes, if_pos h, hdigits]
  rfl

theorem hexText_len (val : BitVec 64) {offset : BitVec 8} (h : offset < 16) :
    (hexText val offset h).toCString.len < 2 ^ 16 :=
  Nat.lt_succ_of_le (hexText val offset h).short

/-- **Printing a number** handles the characters of `hexBytes`, whatever was in the buffer. -/
theorem printHexC_chars (val : BitVec 64) (offset : BitVec 8) (buf : ℕ → BitVec 8) (s : Handled)
    {fuel : ℕ} (hfuel : 2 ^ 16 ≤ fuel) : printHexC fuel val offset buf s =
      some ((hexBytes val offset).foldl handle s.1, s.2 ++ hexBytes val offset) := by
  unfold printHexC
  by_cases hoff : offset < 16
  · have hbuf : (bufferText val buf offset hoff).chars =
        (hexText val offset hoff).toCString.chars :=
      (bufferText_chars val buf hoff).trans (hexText_bytes val offset hoff).symm
    have h₁ := fun s => printC_chars prefixText.toCString (by decide) s hfuel
    have h₂ := fun s => printC_chars (bufferText val buf offset hoff) (hexText_len val hoff) s hfuel
    have h₃ := fun s => printC_chars spaceText.toCString (by decide) s hfuel
    rw [if_pos hoff, hexBytes_chars val hoff, ← hbuf, List.foldl_append, List.foldl_append,
      ← List.append_assoc, ← List.append_assoc]
    exact Option.bind_eq_some_iff.mpr ⟨_, h₁ s, Option.bind_eq_some_iff.mpr ⟨_, h₂ _, h₃ _⟩⟩
  · rw [if_neg hoff, hexBytes, if_neg hoff, List.append_nil]
    rfl

theorem printHexC_val (val : BitVec 64) (offset : BitVec 8) (buf : ℕ → BitVec 8) (s : Handled)
    {fuel : ℕ} (hfuel : 2 ^ 16 ≤ fuel) :
    (printHexC fuel val offset buf s).map Prod.fst = s.1.printHex fuel val offset := by
  rw [printHexC_chars val offset buf s hfuel, Option.map_some]
  unfold printHex
  by_cases hoff : offset < 16
  · have h₁ := fun v => print_chars prefixText.toCString (by decide) v hfuel
    have h₂ := fun v =>
      print_chars (hexText val offset hoff).toCString (hexText_len val hoff) v hfuel
    have h₃ := fun v => print_chars spaceText.toCString (by decide) v hfuel
    rw [if_pos hoff, hexBytes_chars val hoff, List.foldl_append, List.foldl_append]
    exact (Option.bind_eq_some_iff.mpr
      ⟨_, h₁ s.1, Option.bind_eq_some_iff.mpr ⟨_, h₂ _, h₃ _⟩⟩).symm
  · rw [if_neg hoff, hexBytes, if_neg hoff]
    rfl

end Ziemniak.Stage2.Video
