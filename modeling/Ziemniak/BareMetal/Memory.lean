import Ziemniak.BareMetal.Words

/-! # Byte-addressed memory

`Mem` is the physical memory: every address holds a byte.  Multi-byte accesses are little
endian.  `readLE n m a` is the number stored in the `n` bytes at `a`; `writeLE n m a v` stores
the low `n` bytes of `v` there.  Reading back a write gives the value (`readLE_writeLE`), and
an access to other bytes does not see it (`readLE_writeLE_disjoint`).

A block of 16-bit words arrives through a 32-bit pointer that wraps (`storeWords`);
`storeWords_apply` says which byte every address holds afterwards.

Descriptor tables are filled by aligned 64-bit stores.  `writeAll m ws` performs a list of
them in order, and two lemmas read it back at aligned addresses: an address no store names
keeps its word (`read64_writeAll_of_not_mem`), and when no address is named twice every store
is still there at the end (`read64_writeAll_of_mem`). -/

namespace BareMetal

/-- Physical memory: a byte at every address. -/
abbrev Mem := ℕ → BitVec 8

/-- Store one byte. -/
def write8 (m : Mem) (a : ℕ) (v : BitVec 8) : Mem := fun x => if x = a then v else m x

/-- Store the byte `v` at every address of `[lo, hi)`. -/
def fill (m : Mem) (lo hi : ℕ) (v : BitVec 8) : Mem := fun x => if lo ≤ x ∧ x < hi then v else m x

theorem fill_empty (m : Mem) {lo hi : ℕ} (h : hi ≤ lo) (v : BitVec 8) : fill m lo hi v = m := by
  funext x
  unfold fill
  rw [if_neg (by omega)]

theorem fill_write8 (m : Mem) {lo hi : ℕ} (h : lo < hi) (v : BitVec 8) :
    fill (write8 m lo v) (lo + 1) hi v = fill m lo hi v := by
  funext x
  unfold fill write8
  split_ifs <;> first | rfl | omega

theorem foldl_write8 (v : BitVec 8) (n lo : ℕ) (m : Mem) :
    (List.range' lo n).foldl (fun m a => write8 m a v) m = fill m lo (lo + n) v := by
  induction n generalizing lo m with
  | zero => exact (fill_empty m (by omega) v).symm
  | succ n ih =>
      rw [List.range'_succ, List.foldl_cons, ih, Nat.add_right_comm lo 1 n, Nat.add_assoc lo n 1,
        fill_write8 m (by omega)]

/-! ### Little-endian numbers -/

/-- The number in the `n` bytes at `a`. -/
def readLE : ℕ → Mem → ℕ → ℕ
  | 0, _, _ => 0
  | n + 1, m, a => (m a).toNat + 256 * readLE n m (a + 1)

/-- Store the low `n` bytes of `v` at `a`. -/
def writeLE (n : ℕ) (m : Mem) (a v : ℕ) : Mem := fun x =>
  if a ≤ x ∧ x < a + n then BitVec.ofNat 8 (v / 256 ^ (x - a)) else m x

theorem readLE_shift {m m' : Mem} {n a b : ℕ} (h : ∀ i < n, m (a + i) = m' (b + i)) :
    readLE n m a = readLE n m' b := by
  induction n generalizing a b with
  | zero => rfl
  | succ n ih =>
      have h0 : m a = m' b := h 0 (Nat.succ_pos n)
      have h1 : readLE n m (a + 1) = readLE n m' (b + 1) := by
        apply ih
        intro i hi
        rw [Nat.add_assoc, Nat.add_assoc, Nat.add_comm 1 i]
        exact h (i + 1) (Nat.succ_lt_succ hi)
      rw [readLE, readLE, h0, h1]

theorem readLE_congr {m m' : Mem} {n a : ℕ} (h : ∀ x, a ≤ x → x < a + n → m x = m' x) :
    readLE n m a = readLE n m' a := by
  apply readLE_shift
  intro i hi
  exact h (a + i) (by omega) (by omega)

theorem readLE_lt (m : Mem) (n a : ℕ) : readLE n m a < 256 ^ n := by
  induction n generalizing a with
  | zero => simp [readLE]
  | succ n ih =>
      have h0 := (m a).isLt
      have h1 := ih (a + 1)
      rw [readLE, Nat.pow_succ]
      omega

theorem readLE_of_digits {m : Mem} {n a v : ℕ}
    (h : ∀ i, i < n → m (a + i) = BitVec.ofNat 8 (v / 256 ^ i)) : readLE n m a = v % 256 ^ n := by
  induction n generalizing a v with
  | zero => simp [readLE, Nat.mod_one]
  | succ n ih =>
      have h0 : (m a).toNat = v % 256 := by
        have := h 0 (Nat.succ_pos n)
        simp only [Nat.add_zero, Nat.pow_zero, Nat.div_one] at this
        rw [this, BitVec.toNat_ofNat]
      have h1 : readLE n m (a + 1) = v / 256 % 256 ^ n := by
        apply ih
        intro i hi
        have := h (i + 1) (by omega)
        rw [show a + 1 + i = a + (i + 1) by omega, this, Nat.pow_succ, Nat.mul_comm,
          Nat.div_div_eq_div_mul]
      rw [readLE, h0, h1, Nat.pow_succ, Nat.mul_comm (256 ^ n) 256, Nat.mod_mul]

@[simp] theorem readLE_writeLE (n : ℕ) (m : Mem) (a v : ℕ) :
    readLE n (writeLE n m a v) a = v % 256 ^ n := by
  apply readLE_of_digits
  intro i hi
  unfold writeLE
  rw [if_pos (by omega), Nat.add_sub_cancel_left]

theorem readLE_writeLE_inside {n k o : ℕ} (h : o + k ≤ n) (m : Mem) (a v : ℕ) :
    readLE k (writeLE n m a v) (a + o) = v / 256 ^ o % 256 ^ k := by
  apply readLE_of_digits
  intro i hi
  unfold writeLE
  rw [if_pos (by omega), Nat.add_assoc, Nat.add_sub_cancel_left, Nat.pow_add,
    Nat.div_div_eq_div_mul]

theorem writeLE_of_not_mem {n : ℕ} {m : Mem} {a v x : ℕ} (h : x < a ∨ a + n ≤ x) :
    writeLE n m a v x = m x := by
  unfold writeLE
  rw [if_neg (by omega)]

theorem readLE_write8 {n : ℕ} {m : Mem} {a b : ℕ} {v : BitVec 8} (h : b < a ∨ a + n ≤ b) :
    readLE n (write8 m b v) a = readLE n m a := by
  apply readLE_congr
  intro x hx hx'
  exact if_neg (by omega)

theorem readLE_writeLE_disjoint {k n : ℕ} {m : Mem} {a b v : ℕ} (h : b + k ≤ a ∨ a + n ≤ b) :
    readLE k (writeLE n m a v) b = readLE k m b := by
  apply readLE_congr
  intro x hx hx'
  exact writeLE_of_not_mem (by omega)

/-- A number is read in two parts, the low bytes first. -/
theorem readLE_add (m : Mem) (n k a : ℕ) :
    readLE (n + k) m a = readLE n m a + 256 ^ n * readLE k m (a + n) := by
  induction n generalizing a with
  | zero => simp [readLE]
  | succ n ih =>
      rw [Nat.add_right_comm, readLE, ih, readLE, Nat.pow_succ, Nat.add_right_comm a 1 n,
        Nat.add_assoc a n 1]
      ring

theorem write8_eq_writeLE (m : Mem) (a : ℕ) (v : BitVec 8) :
    write8 m a v = writeLE 1 m a v.toNat := by
  funext x
  unfold write8 writeLE
  refine if_ctx_congr (by omega) (fun hx => ?_) (fun _ => rfl)
  have ha : x - a = 0 := by omega
  rw [ha, Nat.pow_zero, Nat.div_one, BitVec.ofNat_toNat, BitVec.setWidth_eq]

theorem writeLE_add (m : Mem) (n k a v : ℕ) :
    writeLE k (writeLE n m a v) (a + n) (v / 256 ^ n) = writeLE (n + k) m a v := by
  funext x
  unfold writeLE
  by_cases hlow : x < a + n
  · rw [if_neg (by omega)]
    exact if_congr (by omega) rfl rfl
  · rw [if_neg (show ¬ (a ≤ x ∧ x < a + n) by omega)]
    refine if_congr (by omega) ?_ rfl
    rw [Nat.div_div_eq_div_mul, ← Nat.pow_add]
    congr 3
    omega

@[simp] theorem writeLE_writeLE (n : ℕ) (m : Mem) (a v w : ℕ) :
    writeLE n (writeLE n m a v) a w = writeLE n m a w := by
  funext x
  unfold writeLE
  split_ifs <;> rfl

theorem writeLE_comm {n k : ℕ} {m : Mem} {a b v w : ℕ} (h : b + k ≤ a ∨ a + n ≤ b) :
    writeLE n (writeLE k m b w) a v = writeLE k (writeLE n m a v) b w := by
  funext x
  unfold writeLE
  split_ifs <;> first | rfl | omega

theorem writeLE_mod (m : Mem) (n a v : ℕ) : writeLE n m a (v % 256 ^ n) = writeLE n m a v := by
  funext x
  unfold writeLE
  split_ifs with hx
  · obtain ⟨k, hk⟩ : ∃ k, n = x - a + (k + 1) := ⟨n - (x - a) - 1, by omega⟩
    apply BitVec.eq_of_toNat_eq
    rw [BitVec.toNat_ofNat, BitVec.toNat_ofNat]
    conv_lhs => rw [hk, Nat.pow_add, Nat.mod_mul_right_div_self, Nat.pow_succ]
    exact Nat.mod_mod_of_dvd _ (Dvd.intro_left _ rfl)
  · rfl

/-! ### 32-bit words -/

def read32 (m : Mem) (a : ℕ) : BitVec 32 := BitVec.ofNat 32 (readLE 4 m a)

theorem read32_congr {b c : Mem} {o : ℕ} (h : ∀ x, o ≤ x → x < o + 4 → b x = c x) :
    read32 b o = read32 c o := by
  rw [read32, readLE_congr h, read32]

theorem read32_toNat (m : Mem) (a : ℕ) : (read32 m a).toNat = readLE 4 m a := by
  have := readLE_lt m 4 a
  unfold read32
  rw [BitVec.toNat_ofNat, Nat.mod_eq_of_lt (by omega)]

theorem read32_mod_two (m : Mem) (a : ℕ) : (read32 m a).toNat % 2 = (m a).toNat % 2 := by
  rw [read32_toNat, readLE]
  omega

/-! ### 64-bit words -/

def read64 (m : Mem) (a : ℕ) : BitVec 64 := BitVec.ofNat 64 (readLE 8 m a)

def write64 (m : Mem) (a : ℕ) (v : BitVec 64) : Mem := writeLE 8 m a v.toNat

@[simp] theorem read64_write64 (m : Mem) (a : ℕ) (v : BitVec 64) :
    read64 (write64 m a v) a = v := by
  apply BitVec.eq_of_toNat_eq
  have := v.isLt
  unfold read64 write64
  simp only [readLE_writeLE, BitVec.toNat_ofNat]
  omega

theorem read64_write64_disjoint {m : Mem} {a b : ℕ} {v : BitVec 64} (h : b + 8 ≤ a ∨ a + 8 ≤ b) :
    read64 (write64 m a v) b = read64 m b := by
  unfold read64 write64
  rw [readLE_writeLE_disjoint (by omega)]

theorem read64_write64_aligned {m : Mem} {a b : ℕ} {v : BitVec 64} (ha : 8 ∣ a) (hb : 8 ∣ b) :
    read64 (write64 m a v) b = if b = a then v else read64 m b := by
  split_ifs with h
  · rw [h, read64_write64]
  · exact read64_write64_disjoint (by omega)

theorem read64_congr {m m' : Mem} {a : ℕ} (h : ∀ x, a ≤ x → x < a + 8 → m x = m' x) :
    read64 m a = read64 m' a := by
  unfold read64
  rw [readLE_congr h]

theorem read64_toNat (m : Mem) (a : ℕ) :
    (read64 m a).toNat = (read32 m a).toNat + 2 ^ 32 * (read32 m (a + 4)).toNat := by
  have h0 := readLE_lt m 4 a
  have h1 := readLE_lt m 4 (a + 4)
  have e : readLE 8 m a = readLE 4 m a + 256 ^ 4 * readLE 4 m (a + 4) := readLE_add m 4 4 a
  unfold read64
  rw [BitVec.toNat_ofNat, read32_toNat, read32_toNat, e]
  omega

theorem readLE_zero {n : ℕ} {m : Mem} {a : ℕ} (h : ∀ x, a ≤ x → x < a + n → m x = 0#8) :
    readLE n m a = 0 := by
  induction n generalizing a with
  | zero => rfl
  | succ n ih =>
      have h0 : m a = 0#8 := h a le_rfl (by omega)
      have h1 : readLE n m (a + 1) = 0 := ih (fun x hx hx' => h x (by omega) (by omega))
      simp [readLE, h0, h1]

theorem read64_zero {m : Mem} {a : ℕ} (h : ∀ x, a ≤ x → x < a + 8 → m x = 0#8) :
    read64 m a = 0#64 := by
  unfold read64
  rw [readLE_zero h]

/-! ### Blocks of bytes -/

/-- Store `bs` one after the other, the first at `a`. -/
def writeBytes (m : Mem) (a : ℕ) (bs : List (BitVec 8)) : Mem := fun x =>
  if a ≤ x ∧ x < a + bs.length then bs.getD (x - a) 0 else m x

theorem writeBytes_of_not_mem {m : Mem} {a x : ℕ} {bs : List (BitVec 8)}
    (h : x < a ∨ a + bs.length ≤ x) : writeBytes m a bs x = m x := by
  unfold writeBytes
  rw [if_neg (by omega)]

/-! ### Blocks of 16-bit words -/

/-- Store `ws` one after the other, the first at `p`; the pointer wraps at `2 ^ 32`. -/
def storeWords (m : Mem) (p : BitVec 32) : List (BitVec 16) → Mem
  | [] => m
  | w :: ws => storeWords (writeLE 2 m p.toNat w.toNat) (p + 2) ws

/-- Byte `j` of a block of words, the low byte of each word first. -/
def byteOf (ws : List (BitVec 16)) (j : ℕ) : BitVec 8 :=
  BitVec.ofNat 8 ((ws.getD (j / 2) 0).toNat / 256 ^ (j % 2))

theorem byteOf_cons_zero (w : BitVec 16) (ws : List (BitVec 16)) {j : ℕ} (hj : j < 2) :
    byteOf (w :: ws) j = BitVec.ofNat 8 (w.toNat / 256 ^ j) := by
  unfold byteOf
  rw [Nat.div_eq_of_lt hj, Nat.mod_eq_of_lt hj]
  rfl

theorem byteOf_cons_add (w : BitVec 16) (ws : List (BitVec 16)) (j : ℕ) :
    byteOf (w :: ws) (j + 2) = byteOf ws j := by
  rw [byteOf, byteOf, Nat.add_div_right j (by norm_num), Nat.add_mod_right]
  rfl

/-- How far `x` is above the pointer `p`, around the end of the 4 GiB. -/
def above (p : BitVec 32) (x : ℕ) : ℕ := (x + (2 ^ 32 - p.toNat)) % 2 ^ 32

/-- The bytes after a block of words was stored at an even pointer. -/
theorem storeWords_apply {x : ℕ} {ws : List (BitVec 16)} {m : Mem} {p : BitVec 32}
    (hp : 2 ∣ p.toNat) (hlen : 2 * ws.length ≤ 2 ^ 32) : storeWords m p ws x =
      if x < 2 ^ 32 ∧ above p x < 2 * ws.length then byteOf ws (above p x) else m x := by
  induction ws generalizing m p with
  | nil => simp [storeWords]
  | cons w ws ih =>
      have hlt := p.isLt
      have hp' : (p + 2).toNat = (p.toNat + 2) % 2 ^ 32 := BitVec.toNat_add ..
      rw [List.length_cons] at hlen
      rw [storeWords, ih (by omega) (by omega), List.length_cons]
      have ha : above p x = (x + (2 ^ 32 - p.toNat)) % 2 ^ 32 := rfl
      have hb : above (p + 2) x = (x + (2 ^ 32 - (p + 2).toNat)) % 2 ^ 32 := rfl
      by_cases hx : x < 2 ^ 32
      · by_cases h0 : above p x < 2
        · rw [if_neg (by omega), if_pos ⟨hx, by omega⟩, byteOf_cons_zero w ws h0, writeLE,
            if_pos (by omega), show x - p.toNat = above p x by omega]
        · have e : above p x = above (p + 2) x + 2 := by omega
          rw [writeLE_of_not_mem (by omega), e, byteOf_cons_add]
          simp only [hx, true_and]
          split_ifs <;> first | rfl | omega
      · rw [if_neg (by omega), if_neg (by omega), writeLE_of_not_mem (by omega)]

/-! ### Lists of 64-bit stores -/

/-- The stores of `ws`, in order. -/
def writeAll (m : Mem) (ws : List (ℕ × BitVec 64)) : Mem :=
  ws.foldl (fun m w => write64 m w.1 w.2) m

@[simp] theorem writeAll_cons (m : Mem) (w : ℕ × BitVec 64) (ws : List (ℕ × BitVec 64)) :
    writeAll m (w :: ws) = writeAll (write64 m w.1 w.2) ws := rfl

theorem writeAll_append (m : Mem) (ws ws' : List (ℕ × BitVec 64)) :
    writeAll m (ws ++ ws') = writeAll (writeAll m ws) ws' := List.foldl_append ..

theorem writeAll_of_forall {m : Mem} {ws : List (ℕ × BitVec 64)} {x : ℕ}
    (h : ∀ w ∈ ws, x < w.1 ∨ w.1 + 8 ≤ x) : writeAll m ws x = m x := by
  induction ws generalizing m with
  | nil => rfl
  | cons w ws ih =>
      rw [writeAll_cons, ih (fun w' hw' => h w' (List.mem_cons_of_mem _ hw'))]
      exact writeLE_of_not_mem (h w List.mem_cons_self)

/-- Every stored word is aligned. -/
def Aligned (ws : List (ℕ × BitVec 64)) : Prop := ∀ w ∈ ws, 8 ∣ w.1

theorem read64_writeAll_of_not_mem {m : Mem} {ws : List (ℕ × BitVec 64)} {a : ℕ}
    (hws : Aligned ws) (ha : 8 ∣ a) (h : a ∉ ws.map Prod.fst) :
    read64 (writeAll m ws) a = read64 m a := by
  induction ws generalizing m with
  | nil => rfl
  | cons w ws ih =>
      simp only [List.map_cons, List.mem_cons, not_or] at h
      rw [writeAll_cons, ih (fun w' hw' => hws w' (List.mem_cons_of_mem _ hw')) h.2,
        read64_write64_aligned (hws w List.mem_cons_self) ha, if_neg h.1]

theorem read64_writeAll_of_mem {m : Mem} {ws : List (ℕ × BitVec 64)} {w : ℕ × BitVec 64}
    (hws : Aligned ws) (hnd : (ws.map Prod.fst).Nodup) (h : w ∈ ws) :
    read64 (writeAll m ws) w.1 = w.2 := by
  induction ws generalizing m with
  | nil => cases h
  | cons w' ws ih =>
      have hws' : Aligned ws := by
        intro v hv
        exact hws v (List.mem_cons_of_mem _ hv)
      rw [List.map_cons, List.nodup_cons] at hnd
      rw [writeAll_cons]
      cases List.mem_cons.mp h with
      | inl heq =>
          subst heq
          rw [read64_writeAll_of_not_mem hws' (hws w List.mem_cons_self) hnd.1, read64_write64]
      | inr h => exact ih hws' hnd.2 h

end BareMetal
