import Ziemniak.Stage2.VideoText

/-! # Numbers in the logs

The kernel has its own `hex`, beside `video_convert_hex` of the loader.  Both fill a static
buffer from the highest digit down, the kernel behind a `0x` and with the test for a letter the
other way round.  `hexPrinters_agree` says that they write the same digits, that these read as
the number, and what `video_print_hex` shows of them. -/

namespace Ziemniak.Kernel

open BareMetal
open Stage2.Video (Handled convertHex hexBytes hexDigits handle videoConvertHex printHexC)

/-- A round of the loop of `hex`. -/
def hexRound (num i : BitVec 64) (buf : ℕ → BitVec 8) : ℕ → BitVec 8 :=
  let tmp : BitVec 8 := ((num >>> (4 * (15 - i)).toNat) &&& 0x0F).setWidth 8
  if tmp > 9 then Function.update buf (i + 2).toNat (tmp - 10 + 0x41)
  else Function.update buf (i + 2).toNat (tmp + 0x30)

/-- The static buffer behind a call that finds `buf` in it. -/
def hex (num : BitVec 64) (buf : ℕ → BitVec 8) : ℕ → BitVec 8 :=
  let buf := Function.update buf 0 0x30
  let buf := Function.update buf 1 0x78
  let buf := Function.update buf 18 0
  rounds (hexRound num) (List.range 16) buf

theorem hexRound_eq (num : BitVec 64) {j : ℕ} (hj : j < 16) (a : ℕ → BitVec 8) :
    hexRound num (BitVec.ofNat 64 j) a = Function.update a (2 + j) (convertHex num j) := by
  have hshift : (4 * (15 - BitVec.ofNat 64 j)).toNat = 4 * (15 - j) := by bv_omega
  have hindex : (BitVec.ofNat 64 j + 2).toNat = 2 + j := by bv_omega
  have htest : ∀ t : BitVec 8, t > 9 ↔ ¬ t < 0x0A := by
    intro t
    rw [gt_iff_lt, BitVec.lt_def, BitVec.lt_def]
    exact ⟨fun h => Nat.not_lt.mpr h, fun h => Nat.not_lt.mp h⟩
  unfold hexRound convertHex
  rw [hshift, hindex, if_pos hj]
  simp only [htest]
  split_ifs <;> rfl

theorem hex_apply (num : BitVec 64) (buf : ℕ → BitVec 8) (x : ℕ) : hex num buf x =
    if 2 ≤ x ∧ x < 2 + 16 then convertHex num (x - 2)
    else Function.update (Function.update (Function.update buf 0 0x30) 1 0x78) 18 0 x :=
  rounds_update (fun _ hj a => hexRound_eq num hj a) _ x

/-- The characters `0` to `9` and `A` to `F`. -/
def hexCharacters : List (BitVec 8) :=
  [0x30, 0x31, 0x32, 0x33, 0x34, 0x35, 0x36, 0x37, 0x38, 0x39, 0x41, 0x42, 0x43, 0x44, 0x45, 0x46]

theorem char_mem_hexCharacters {d : ℕ} (hd : d < 16) : upperHex.char d ∈ hexCharacters := by
  interval_cases d <;> decide

/-- Sixteen digits and a zero, which read as the number. -/
structure Converted (val : BitVec 64) (buf : ℕ → BitVec 8) : Prop where
  digit : ∀ i < 16, buf i ∈ hexCharacters
  ends : buf 16 = 0
  reads : upperHex.read ((List.range 16).map buf) = some val.toNat

/-- The same digits behind a `0x`. -/
structure SameDigits (buf kbuf : ℕ → BitVec 8) : Prop where
  prefix_zero : kbuf 0 = 0x30
  prefix_x : kbuf 1 = 0x78
  digit : ∀ i < 16, kbuf (i + 2) = buf i
  ends : kbuf 18 = 0

/-- What `video_print_hex` handles: the last `16 - offset` digits, between `0x` and a blank. -/
def ShowsLast (val : BitVec 64) (offset : BitVec 8) (shown : List (BitVec 8)) : Prop :=
  ∃ digits, shown = [0x30, 0x78] ++ digits ++ [0x20] ∧ digits.length = 16 - offset.toNat ∧
    upperHex.read digits = some (val.toNat % 16 ^ (16 - offset.toNat))

theorem converted (val : BitVec 64) (buf : ℕ → BitVec 8) :
    Converted val (videoConvertHex val buf) := by
  have hdigits := Stage2.Video.videoConvertHex_digits val buf
  refine ⟨?_, ?_, ?_⟩
  · intro i hi
    have hmem : videoConvertHex val buf i ∈ upperHex.numeral 16 val.toNat := by
      rw [← hdigits]
      exact List.mem_map_of_mem (List.mem_range.mpr hi)
    obtain ⟨d, hd, heq⟩ := upperHex.mem_numeral (by norm_num) hmem
    rw [heq]
    exact char_mem_hexCharacters hd
  · rw [Stage2.Video.videoConvertHex_eq val buf le_rfl]
    rfl
  · have hlt : val.toNat < 16 ^ 16 := val.isLt
    rw [hdigits, upperHex.read_numeral (by norm_num), Nat.mod_eq_of_lt hlt]

theorem sameDigits (val : BitVec 64) (buf kbuf : ℕ → BitVec 8) :
    SameDigits (videoConvertHex val buf) (hex val kbuf) := by
  refine ⟨?_, ?_, ?_, ?_⟩
  · rw [hex_apply]
    rfl
  · rw [hex_apply]
    rfl
  · intro i hi
    rw [hex_apply, if_pos (by omega), Nat.add_sub_cancel,
      Stage2.Video.videoConvertHex_eq val buf (by omega)]
  · rw [hex_apply]
    rfl

theorem showsLast (val : BitVec 64) {offset : BitVec 8} (h : offset < 16) :
    ShowsLast val offset (hexBytes val offset) := by
  refine ⟨(hexDigits val).drop offset.toNat, ?_, ?_, ?_⟩
  · rw [hexBytes, if_pos h]
  · rw [Stage2.Video.hexDigits_eq, upperHex.numeral_drop, upperHex.numeral_length]
  · rw [Stage2.Video.hexDigits_eq, upperHex.numeral_drop, upperHex.read_numeral (by norm_num)]

/-- **The two printers.**  For every number, whatever the static buffers held: the loader's digits
read as the number, the kernel's are the same, and `video_print_hex` shows the last ones, or
nothing. -/
theorem hexPrinters_agree (val : BitVec 64) (buf kbuf : ℕ → BitVec 8) :
    Converted val (videoConvertHex val buf) ∧
      SameDigits (videoConvertHex val buf) (hex val kbuf) ∧
      ∀ (offset : BitVec 8) (s : Handled), ∃ n shown, (∀ fuel, n ≤ fuel →
          printHexC fuel val offset buf s = some (shown.foldl handle s.1, s.2 ++ shown)) ∧
        if offset < 16 then ShowsLast val offset shown else shown = [] := by
  refine ⟨converted val buf, sameDigits val buf kbuf, ?_⟩
  intro offset s
  refine ⟨2 ^ 16, hexBytes val offset, ?_, ?_⟩
  · intro fuel hfuel
    exact Stage2.Video.printHexC_chars val offset buf s hfuel
  · split_ifs with hoff
    · exact showsLast val hoff
    · exact if_neg hoff

end Ziemniak.Kernel
