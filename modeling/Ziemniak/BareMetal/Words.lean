import Mathlib.Data.BitVec
import Mathlib.Tactic.Ring
import Mathlib.Tactic.NormNum
import Mathlib.Tactic.Linarith

/-! # Machine words

Facts about fixed-width words that the library and the models share.  A word is a `BitVec w`;
every fact is stated on its value `toNat`, where `omega` finishes.

* Masking with `allOnes w <<< k` rounds down to a multiple of `2 ^ k` (`toNat_and_highMask`);
  masking with `2 ^ k - 1` gives the remainder (`toNat_and_lowMask`).
* Concatenation is a weighted sum (`toNat_append_eq`), which turns a record of bit fields
  into arithmetic.
* `roundUp n x` and `roundDown n x` are the rounded values themselves; `roundUp_le_iff` is the
  Galois law of the first. -/

namespace BareMetal

/-- Clearing the low `k` bits rounds down to a multiple of `2 ^ k`. -/
theorem toNat_and_highMask {w : ℕ} (x : BitVec w) (k : ℕ) :
    (x &&& (BitVec.allOnes w <<< k)).toNat = x.toNat / 2 ^ k * 2 ^ k := by
  have h : x &&& (BitVec.allOnes w <<< k) = (x >>> k) <<< k := by
    ext i hi
    simp
    grind
  have hle : x.toNat / 2 ^ k * 2 ^ k ≤ x.toNat := Nat.div_mul_le_self _ _
  rw [h]
  simp only [BitVec.toNat_shiftLeft, BitVec.toNat_ushiftRight, Nat.shiftRight_eq_div_pow,
    Nat.shiftLeft_eq]
  exact Nat.mod_eq_of_lt (lt_of_le_of_lt hle x.isLt)

theorem toNat_and_lowMask {w : ℕ} (x : BitVec w) (k : ℕ) (hk : k ≤ w) :
    (x &&& BitVec.ofNat w (2 ^ k - 1)).toNat = x.toNat % 2 ^ k := by
  have hle := Nat.pow_le_pow_right (n := 2) (by norm_num) hk
  have hpos := Nat.two_pow_pos k
  rw [BitVec.toNat_and, BitVec.toNat_ofNat, Nat.mod_eq_of_lt (by omega),
    Nat.and_two_pow_sub_one_eq_mod]

theorem toNat_shift_lowMask {w : ℕ} (x : BitVec w) (s k : ℕ) (hk : k ≤ w) :
    ((x >>> s) &&& BitVec.ofNat w (2 ^ k - 1)).toNat = x.toNat / 2 ^ s % 2 ^ k := by
  rw [toNat_and_lowMask _ k hk, BitVec.toNat_ushiftRight, Nat.shiftRight_eq_div_pow]

theorem toNat_append_eq {m n : ℕ} (x : BitVec m) (y : BitVec n) :
    (x ++ y).toNat = x.toNat * 2 ^ n + y.toNat := by
  rw [BitVec.toNat_append, ← Nat.shiftLeft_add_eq_or_of_lt y.isLt, Nat.shiftLeft_eq]

theorem setWidth_append_low {m n : ℕ} (x : BitVec m) (y : BitVec n) : (x ++ y).setWidth n = y := by
  apply BitVec.eq_of_toNat_eq
  rw [BitVec.toNat_setWidth, toNat_append_eq, Nat.mul_add_mod_of_lt y.isLt]

theorem setWidth_append_high {m n : ℕ} (x : BitVec m) (y : BitVec n) :
    ((x ++ y) >>> n).setWidth m = x := by
  apply BitVec.eq_of_toNat_eq
  rw [BitVec.toNat_setWidth, BitVec.toNat_ushiftRight, toNat_append_eq, Nat.shiftRight_eq_div_pow,
    Nat.mul_comm, Nat.mul_add_div (Nat.two_pow_pos n), Nat.div_eq_of_lt y.isLt, Nat.add_zero,
    Nat.mod_eq_of_lt x.isLt]

theorem toNat_add_ofNat {w n : ℕ} {x : BitVec w} (h : x.toNat + n < 2 ^ w) :
    (x + BitVec.ofNat w n).toNat = x.toNat + n := by
  rw [BitVec.toNat_add, BitVec.toNat_ofNat, Nat.add_mod_mod, Nat.mod_eq_of_lt h]

theorem toNat_mul_setWidth {w w' : ℕ} (hw : 2 * w ≤ w') (x y : BitVec w) :
    (x.setWidth w' * y.setWidth w').toNat = x.toNat * y.toNat := by
  have hlt : x.toNat * y.toNat < 2 ^ w' := by
    calc x.toNat * y.toNat < 2 ^ w * 2 ^ w := Nat.mul_lt_mul'' x.isLt y.isLt
      _ = 2 ^ (2 * w) := by rw [← Nat.pow_add, Nat.two_mul]
      _ ≤ 2 ^ w' := Nat.pow_le_pow_right (by omega) hw
  rw [BitVec.toNat_mul, BitVec.toNat_setWidth_of_le (by omega),
    BitVec.toNat_setWidth_of_le (by omega), Nat.mod_eq_of_lt hlt]

/-! ### Rounding -/

/-- The greatest multiple of `n` that is at most `x`. -/
def roundDown (n x : ℕ) : ℕ := x / n * n

/-- The least multiple of `n` that is at least `x`. -/
def roundUp (n x : ℕ) : ℕ := (x + (n - 1)) / n * n

theorem dvd_roundUp (n x : ℕ) : n ∣ roundUp n x := Dvd.intro_left _ rfl

theorem roundUp_le_iff {n x y : ℕ} (hn : 0 < n) (hy : n ∣ y) : roundUp n x ≤ y ↔ x ≤ y := by
  obtain ⟨c, rfl⟩ := hy
  unfold roundUp
  rw [Nat.mul_comm n c, Nat.mul_le_mul_right_iff hn]
  have h : (x + (n - 1)) / n < c + 1 ↔ x + (n - 1) < (c + 1) * n := Nat.div_lt_iff_lt_mul hn
  have e : (c + 1) * n = c * n + n := by ring
  omega

theorem le_roundUp {n : ℕ} (hn : 0 < n) (x : ℕ) : x ≤ roundUp n x :=
  (roundUp_le_iff hn (dvd_roundUp n x)).mp le_rfl

end BareMetal
