import Ziemniak.BareMetal.RealMode

/-! # Real-mode code

What the first programs of a boot do with memory before there is a flat one: copying with `movsb`,
the stack, and the loop that hands a string to the BIOS byte by byte.  Below the first megabyte an
address through a segment is a plain one (`linear_low`), so words in segments are little-endian
numbers (`store16_low`, `load16_low`).

The print loop has no bound.  What it prints is the string that memory holds at its address
(`printLoop_iff`); where there is none, it goes round its segment forever. -/

namespace BareMetal.RealMode

variable {a20 : Bool} {m : Mem}

/-- Below the first megabyte the A20 line does not matter. -/
theorem linear_low {seg off : BitVec 16} (h : seg.toNat * 16 + off.toNat < 2 ^ 20) :
    linear a20 seg off = seg.toNat * 16 + off.toNat := by
  unfold linear
  rw [Nat.mod_eq_of_lt h, ite_self]

section words

variable {seg off : BitVec 16} (hoff : off.toNat + 1 < 2 ^ 16)
  (hlow : seg.toNat * 16 + off.toNat + 1 < 2 ^ 20)

include hoff hlow

theorem linear_succ : linear a20 seg (off + 1) = seg.toNat * 16 + off.toNat + 1 := by
  have hnext : (off + 1).toNat = off.toNat + 1 := toNat_add_ofNat (n := 1) hoff
  rw [linear_low (by omega), hnext, Nat.add_assoc]

theorem store16_low (v : BitVec 16) :
    store16 a20 m seg off v = writeLE 2 m (seg.toNat * 16 + off.toNat) v.toNat := by
  obtain ⟨a, ha⟩ : ∃ a, a = seg.toNat * 16 + off.toNat := ⟨_, rfl⟩
  have h0 : linear a20 seg off = a := by rw [linear_low (by omega), ha]
  have h1 : linear a20 seg (off + 1) = a + 1 := by rw [linear_succ hoff hlow, ha]
  have hv := v.isLt
  unfold store16 store8
  rw [h0, h1, ← ha]
  funext x
  unfold write8 writeLE
  by_cases hx1 : x = a + 1
  · have hd : x - a = 1 := by omega
    rw [if_pos hx1, if_pos (by omega), hd]
    apply BitVec.eq_of_toNat_eq
    rw [BitVec.toNat_setWidth, BitVec.toNat_ushiftRight, Nat.shiftRight_eq_div_pow,
      BitVec.toNat_ofNat]
    omega
  · rw [if_neg hx1]
    by_cases hx0 : x = a
    · have hd : x - a = 0 := by omega
      rw [if_pos hx0, if_pos (by omega), hd]
      apply BitVec.eq_of_toNat_eq
      rw [BitVec.toNat_setWidth, BitVec.toNat_ofNat]
      omega
    · rw [if_neg hx0, if_neg (by omega)]

theorem load16_low : (load16 a20 m seg off).toNat = readLE 2 m (seg.toNat * 16 + off.toNat) := by
  unfold load16 load8
  rw [linear_succ hoff hlow, linear_low (by omega), toNat_append_eq]
  simp only [readLE, Nat.mul_zero, Nat.add_zero]
  omega

end words

/-! ### Copying -/

/-- `rep movsb` upwards. -/
def repMovsb (a20 : Bool) (ds es : BitVec 16) : ℕ → BitVec 16 → BitVec 16 → Mem → Mem
  | 0, _, _, m => m
  | n + 1, si, di, m =>
      repMovsb a20 ds es n (si + 1) (di + 1) (store8 a20 m es di (load8 a20 m ds si))

/-- A copy to other bytes, inside both segments and the first megabyte. -/
theorem repMovsb_apply {ds es si di : BitVec 16} {n src dst : ℕ}
    (hsrc : src = ds.toNat * 16 + si.toNat) (hdst : dst = es.toNat * 16 + di.toNat)
    (hsi : si.toNat + n ≤ 2 ^ 16) (hdi : di.toNat + n ≤ 2 ^ 16) (hlow : src + n ≤ 2 ^ 20)
    (hlow' : dst + n ≤ 2 ^ 20) (hdisj : src + n ≤ dst ∨ dst + n ≤ src) (x : ℕ) :
    repMovsb a20 ds es n si di m x =
      if dst ≤ x ∧ x < dst + n then m (src + (x - dst)) else m x := by
  induction n generalizing si di src dst m with
  | zero => rw [repMovsb, if_neg (by omega)]
  | succ n ih =>
      have hl : linear a20 ds si = src := by rw [linear_low (by omega), hsrc]
      have hd : linear a20 es di = dst := by rw [linear_low (by omega), hdst]
      rw [repMovsb]
      by_cases hn : n = 0
      · subst hn
        rw [repMovsb, store8, load8, hl, hd, write8]
        by_cases hx : x = dst
        · rw [if_pos hx, if_pos (by omega), hx, Nat.sub_self, Nat.add_zero]
        · rw [if_neg hx, if_neg (by omega)]
      · have hsi' : (si + 1).toNat = si.toNat + 1 := toNat_add_ofNat (n := 1) (by omega)
        have hdi' : (di + 1).toNat = di.toNat + 1 := toNat_add_ofNat (n := 1) (by omega)
        have hkeep : ∀ y, y ≠ dst → store8 a20 m es di (load8 a20 m ds si) y = m y := by
          intro y hy
          exact store8_ne (by rw [hd]; exact hy)
        rw [ih (show src + 1 = ds.toNat * 16 + (si + 1).toNat by omega)
          (show dst + 1 = es.toNat * 16 + (di + 1).toNat by omega) (by omega) (by omega) (by omega)
          (by omega) (by omega)]
        by_cases hx : x = dst
        · rw [if_neg (by omega), if_pos (by omega), hx, Nat.sub_self, Nat.add_zero, ← hd,
            store8_same, load8, hl]
        · by_cases hin : dst + 1 ≤ x ∧ x < dst + 1 + n
          · rw [if_pos hin, if_pos (by omega), hkeep _ (by omega)]
            congr 1
            omega
          · rw [if_neg hin, if_neg (by omega), hkeep _ hx]

/-! ### The stack -/

/-- The stack in its segment. -/
structure Stack where
  ss : BitVec 16
  sp : BitVec 16
deriving DecidableEq, Repr

/-- The stack of a segment with its top at address `a`. -/
def Stack.topAt (ss : BitVec 16) (a : ℕ) : Stack where
  ss := ss
  sp := BitVec.ofNat 16 (a - ss.toNat * 16)

def Stack.push (a20 : Bool) (s : Stack) (v : BitVec 16) (m : Mem) : Stack × Mem :=
  ({ s with sp := s.sp - 2 }, store16 a20 m s.ss (s.sp - 2) v)

def Stack.pop (a20 : Bool) (s : Stack) (m : Mem) : BitVec 16 × Stack :=
  (load16 a20 m s.ss s.sp, { s with sp := s.sp + 2 })

/-! ### Printing -/

/-- `lodsb` and a call of the BIOS for each byte, up to a zero byte. -/
def printLoop (a20 : Bool) (m : Mem) (ds : BitVec 16) : ℕ → BitVec 16 → Option (List (BitVec 8))
  | 0, _ => none
  | fuel + 1, si =>
      let al := load8 a20 m ds si
      if al = 0 then some [] else (printLoop a20 m ds fuel (si + 1)).map (al :: ·)

/-- A string with its terminator, in one segment. -/
def StringAt (a20 : Bool) (m : Mem) (ds : BitVec 16) : BitVec 16 → List (BitVec 8) → Prop
  | si, [] => load8 a20 m ds si = 0
  | si, c :: text => c ≠ 0 ∧ load8 a20 m ds si = c ∧ StringAt a20 m ds (si + 1) text

instance StringAt.decidable {ds : BitVec 16} : (si : BitVec 16) → (text : List (BitVec 8)) →
    Decidable (StringAt a20 m ds si text)
  | si, [] => inferInstanceAs (Decidable (load8 a20 m ds si = 0))
  | si, c :: text =>
      have : Decidable (StringAt a20 m ds (si + 1) text) := StringAt.decidable (si + 1) text
      inferInstanceAs (Decidable (c ≠ 0 ∧ load8 a20 m ds si = c ∧ StringAt a20 m ds (si + 1) text))

/-- **What is printed** is the string in memory. -/
theorem printLoop_iff {ds si : BitVec 16} {text : List (BitVec 8)} :
    (∃ fuel, printLoop a20 m ds fuel si = some text) ↔ StringAt a20 m ds si text := by
  constructor
  · rintro ⟨fuel, h⟩
    induction fuel generalizing si text with
    | zero => cases h
    | succ fuel ih =>
        unfold printLoop at h
        simp only at h
        split_ifs at h with hal
        · obtain rfl := Option.some.inj h
          exact hal
        · obtain ⟨rest, hrest, rfl⟩ := Option.map_eq_some_iff.mp h
          exact ⟨hal, rfl, ih hrest⟩
  · intro h
    induction text generalizing si with
    | nil => exact ⟨1, if_pos h⟩
    | cons c text ih =>
        obtain ⟨hc, hload, hrest⟩ := h
        obtain ⟨fuel, hfuel⟩ := ih hrest
        refine ⟨fuel + 1, ?_⟩
        unfold printLoop
        simp only [hload, hfuel, if_neg hc, Option.map_some]

theorem StringAt.shift {a20' : Bool} {m' : Mem} {ds ds' si si' : BitVec 16}
    {text : List (BitVec 8)} (h : ∀ i ≤ text.length, load8 a20 m ds (si + BitVec.ofNat 16 i) =
      load8 a20' m' ds' (si' + BitVec.ofNat 16 i)) (hs : StringAt a20 m ds si text) :
    StringAt a20' m' ds' si' text := by
  induction text generalizing si si' with
  | nil =>
      have h0 : load8 a20 m ds si = load8 a20' m' ds' si' := by simpa using h 0 le_rfl
      exact h0.symm.trans hs
  | cons c text ih =>
      obtain ⟨hc, hload, hrest⟩ := hs
      have h0 : load8 a20 m ds si = load8 a20' m' ds' si' := by simpa using h 0 (Nat.zero_le _)
      refine ⟨hc, h0.symm.trans hload, ih ?_ hrest⟩
      intro i hi
      have hnext : ∀ x : BitVec 16, x + 1 + BitVec.ofNat 16 i = x + BitVec.ofNat 16 (i + 1) := by
        intro x
        rw [BitVec.add_assoc, BitVec.add_comm 1, BitVec.ofNat_add]
        rfl
      rw [hnext, hnext]
      exact h (i + 1) (by simpa using hi)

/-! ### The machine -/

/-- The registers that 16-bit code goes through memory with. -/
structure Cpu16 where
  ds : BitVec 16
  es : BitVec 16
  fs : BitVec 16
  si : BitVec 16
  di : BitVec 16
  stack : Stack
  a20 : Bool
  mem : Mem

namespace Cpu16

def byte (s : Cpu16) (seg off : BitVec 16) : BitVec 8 := load8 s.a20 s.mem seg off

def word (s : Cpu16) (seg off : BitVec 16) : BitVec 16 := load16 s.a20 s.mem seg off

def dword (s : Cpu16) (seg off : BitVec 16) : BitVec 32 := s.word seg (off + 2) ++ s.word seg off

def setByte (s : Cpu16) (seg off : BitVec 16) (v : BitVec 8) : Cpu16 :=
  { s with mem := store8 s.a20 s.mem seg off v }

def setWord (s : Cpu16) (seg off v : BitVec 16) : Cpu16 :=
  { s with mem := store16 s.a20 s.mem seg off v }

def setDword (s : Cpu16) (seg off : BitVec 16) (v : BitVec 32) : Cpu16 :=
  (s.setWord seg off (v.setWidth 16)).setWord seg (off + 2) ((v >>> 16).setWidth 16)

def push (s : Cpu16) (v : BitVec 16) : Cpu16 :=
  { s with
    stack := (s.stack.push s.a20 v s.mem).1
    mem := (s.stack.push s.a20 v s.mem).2 }

def pop (s : Cpu16) : BitVec 16 × Cpu16 :=
  ((s.stack.pop s.a20 s.mem).1, { s with stack := (s.stack.pop s.a20 s.mem).2 })

/-- `push` of 32 bits. -/
def pushd (s : Cpu16) (v : BitVec 32) : Cpu16 :=
  (s.push ((v >>> 16).setWidth 16)).push (v.setWidth 16)

def popd (s : Cpu16) : BitVec 32 × Cpu16 := (s.pop.2.pop.1 ++ s.pop.1, s.pop.2.pop.2)

/-! Accesses in the first megabyte. -/

section low

variable {s : Cpu16} {seg off : BitVec 16}

theorem byte_low (hlow : seg.toNat * 16 + off.toNat < 2 ^ 20) :
    s.byte seg off = s.mem (seg.toNat * 16 + off.toNat) := by
  unfold byte load8
  rw [linear_low hlow]

theorem setByte_low (hlow : seg.toNat * 16 + off.toNat < 2 ^ 20) (v : BitVec 8) :
    s.setByte seg off v = { s with mem := write8 s.mem (seg.toNat * 16 + off.toNat) v } := by
  unfold setByte store8
  rw [linear_low hlow]

section word

variable (hoff : off.toNat + 1 < 2 ^ 16) (hlow : seg.toNat * 16 + off.toNat + 1 < 2 ^ 20)

include hoff hlow

theorem word_bytes : s.word seg off =
    s.mem (seg.toNat * 16 + off.toNat + 1) ++ s.mem (seg.toNat * 16 + off.toNat) := by
  unfold word load16 load8
  rw [linear_succ hoff hlow, linear_low (by omega)]

theorem word_low :
    s.word seg off = BitVec.ofNat 16 (readLE 2 s.mem (seg.toNat * 16 + off.toNat)) := by
  have hload : (load16 s.a20 s.mem seg off).toNat = _ := load16_low hoff hlow
  unfold word
  rw [← hload, BitVec.ofNat_toNat, BitVec.setWidth_eq]

theorem setWord_low (v : BitVec 16) : s.setWord seg off v =
    { s with mem := writeLE 2 s.mem (seg.toNat * 16 + off.toNat) v.toNat } := by
  unfold setWord
  rw [store16_low hoff hlow]

end word

section dword

variable (hoff : off.toNat + 3 < 2 ^ 16) (hlow : seg.toNat * 16 + off.toNat + 3 < 2 ^ 20)

include hoff hlow

theorem dword_low :
    s.dword seg off = BitVec.ofNat 32 (readLE 4 s.mem (seg.toNat * 16 + off.toNat)) := by
  have hnext : (off + 2).toNat = off.toNat + 2 := toNat_add_ofNat (n := 2) (by omega)
  obtain ⟨a, ha⟩ : ∃ a, a = seg.toNat * 16 + off.toNat := ⟨_, rfl⟩
  have hplace : seg.toNat * 16 + (off.toNat + 2) = a + 2 := by omega
  have hlow' := readLE_lt s.mem 2 a
  have hhigh := readLE_lt s.mem 2 (a + 2)
  unfold dword
  rw [word_low (by omega) (by omega), word_low (by omega) (by omega), hnext, hplace, ← ha]
  apply BitVec.eq_of_toNat_eq
  rw [toNat_append_eq, BitVec.toNat_ofNat, BitVec.toNat_ofNat, BitVec.toNat_ofNat,
    readLE_add s.mem 2 2 a]
  omega

theorem setDword_low (v : BitVec 32) : s.setDword seg off v =
    { s with mem := writeLE 4 s.mem (seg.toNat * 16 + off.toNat) v.toNat } := by
  have hnext : (off + 2).toNat = off.toNat + 2 := toNat_add_ofNat (n := 2) (by omega)
  have hlow' : (v.setWidth 16).toNat = v.toNat % 256 ^ 2 := BitVec.toNat_setWidth ..
  have hhigh : ((v >>> 16).setWidth 16).toNat = v.toNat / 256 ^ 2 % 256 ^ 2 := by
    rw [BitVec.toNat_setWidth, BitVec.toNat_ushiftRight, Nat.shiftRight_eq_div_pow]
    rfl
  unfold setDword
  rw [setWord_low (by omega) (by omega), setWord_low (by omega) (by omega)]
  simp only [hnext, hlow', hhigh, writeLE_mod, ← Nat.add_assoc]
  rw [writeLE_add s.mem 2 2]

end dword

end low

/-! The stack in the first megabyte, with its top at `a`. -/

section stack

variable {ds es fs si di ss : BitVec 16} {a : ℕ} {a20 : Bool} {m : Mem}

theorem push_topAt (hlo : ss.toNat * 16 + 2 ≤ a) (hhi : a < ss.toNat * 16 + 2 ^ 16)
    (hlow : a ≤ 2 ^ 20) (v : BitVec 16) : Cpu16.push ⟨ds, es, fs, si, di, .topAt ss a, a20, m⟩ v =
      ⟨ds, es, fs, si, di, .topAt ss (a - 2), a20, writeLE 2 m (a - 2) v.toNat⟩ := by
  have hsp : BitVec.ofNat 16 (a - ss.toNat * 16) - 2 = BitVec.ofNat 16 (a - 2 - ss.toNat * 16) := by
    bv_omega
  have hoff : (BitVec.ofNat 16 (a - 2 - ss.toNat * 16)).toNat = a - 2 - ss.toNat * 16 := by
    rw [BitVec.toNat_ofNat, Nat.mod_eq_of_lt (by omega)]
  have hplace : ss.toNat * 16 + (a - 2 - ss.toNat * 16) = a - 2 := by omega
  unfold push Stack.push
  simp only [Stack.topAt, hsp]
  rw [store16_low (by omega) (by omega), hoff, hplace]

theorem pop_topAt (hlo : ss.toNat * 16 ≤ a) (hhi : a + 2 < ss.toNat * 16 + 2 ^ 16)
    (hlow : a + 2 ≤ 2 ^ 20) : Cpu16.pop ⟨ds, es, fs, si, di, .topAt ss a, a20, m⟩ =
      (BitVec.ofNat 16 (readLE 2 m a), ⟨ds, es, fs, si, di, .topAt ss (a + 2), a20, m⟩) := by
  have hsp : BitVec.ofNat 16 (a - ss.toNat * 16) + 2 = BitVec.ofNat 16 (a + 2 - ss.toNat * 16) := by
    bv_omega
  have hoff : (BitVec.ofNat 16 (a - ss.toNat * 16)).toNat = a - ss.toNat * 16 := by
    rw [BitVec.toNat_ofNat, Nat.mod_eq_of_lt (by omega)]
  have hplace : ss.toNat * 16 + (BitVec.ofNat 16 (a - ss.toNat * 16)).toNat = a := by omega
  have hval : load16 a20 m ss (BitVec.ofNat 16 (a - ss.toNat * 16)) =
      BitVec.ofNat 16 (readLE 2 m a) := by
    have hword : Cpu16.word ⟨ds, es, fs, si, di, .topAt ss a, a20, m⟩ ss
        (BitVec.ofNat 16 (a - ss.toNat * 16)) = _ := word_low (by omega) (by omega)
    rw [hplace] at hword
    exact hword
  unfold pop Stack.pop
  simp only [Stack.topAt, hsp, hval]

theorem pushd_topAt (hlo : ss.toNat * 16 + 4 ≤ a) (hhi : a < ss.toNat * 16 + 2 ^ 16)
    (hlow : a ≤ 2 ^ 20) (v : BitVec 32) : Cpu16.pushd ⟨ds, es, fs, si, di, .topAt ss a, a20, m⟩ v =
      ⟨ds, es, fs, si, di, .topAt ss (a - 4), a20, writeLE 4 m (a - 4) v.toNat⟩ := by
  obtain ⟨a, rfl⟩ : ∃ b, a = b + 4 := ⟨a - 4, by omega⟩
  have hlow' : (v.setWidth 16).toNat = v.toNat % 256 ^ 2 := BitVec.toNat_setWidth ..
  have hhigh : ((v >>> 16).setWidth 16).toNat = v.toNat / 256 ^ 2 % 256 ^ 2 := by
    rw [BitVec.toNat_setWidth, BitVec.toNat_ushiftRight, Nat.shiftRight_eq_div_pow]
    rfl
  have hmem : writeLE 2 (writeLE 2 m (a + 2) (v.toNat / 256 ^ 2)) a v.toNat =
      writeLE 4 m a v.toNat := by
    rw [writeLE_comm (b := a + 2) (Or.inr (by omega)), writeLE_add m 2 2 a]
  unfold pushd
  rw [push_topAt (by omega) hhi hlow, push_topAt (by omega) (by omega) (by omega)]
  simp only [Nat.add_sub_cancel_right, show a + 4 - 2 = a + 2 from rfl, hlow', hhigh, writeLE_mod,
    hmem]

theorem popd_topAt (hlo : ss.toNat * 16 ≤ a) (hhi : a + 4 < ss.toNat * 16 + 2 ^ 16)
    (hlow : a + 4 ≤ 2 ^ 20) : Cpu16.popd ⟨ds, es, fs, si, di, .topAt ss a, a20, m⟩ =
      (BitVec.ofNat 32 (readLE 4 m a), ⟨ds, es, fs, si, di, .topAt ss (a + 4), a20, m⟩) := by
  have hlow' := readLE_lt m 2 a
  have hhigh := readLE_lt m 2 (a + 2)
  have hval : (BitVec.ofNat 16 (readLE 2 m (a + 2)) ++ BitVec.ofNat 16 (readLE 2 m a) :
      BitVec 32) = BitVec.ofNat 32 (readLE 4 m a) := by
    apply BitVec.eq_of_toNat_eq
    rw [toNat_append_eq, BitVec.toNat_ofNat, BitVec.toNat_ofNat, BitVec.toNat_ofNat,
      readLE_add m 2 2 a]
    omega
  unfold popd
  rw [pop_topAt hlo (by omega) (by omega)]
  simp only
  rw [pop_topAt (by omega) hhi hlow]
  simp only [hval]

end stack

end Cpu16

end BareMetal.RealMode
