import Mathlib.Tactic.IntervalCases
import Mathlib.Tactic.Ring

/-! # Numerals

Numbers written with the digits of a base, the highest digit first.  An `Alphabet` gives every
digit its character and takes a character back to its digit; no other character is a digit.

`read` takes a text back to its number and fails when a character is no digit.  A numeral of `k`
digits reads as the number modulo `b ^ k` (`read_numeral`). -/

namespace BareMetal

/-- The digits of base `b`. -/
structure Alphabet (α : Type) (b : ℕ) where
  char : ℕ → α
  value : α → Option ℕ
  value_char : ∀ d < b, value (char d) = some d
  value_lt : ∀ c d, value c = some d → d < b
  char_value : ∀ c d, value c = some d → char d = c

namespace Alphabet

variable {α : Type} {b : ℕ} (A : Alphabet α b)

/-- The last `k` digits of `n`. -/
def numeral (k n : ℕ) : List α := (List.range k).map (fun i => A.char (n / b ^ (k - 1 - i) % b))

/-- The number that is written. -/
def read (l : List α) : Option ℕ := l.foldlM (fun n c => (A.value c).map (fun d => n * b + d)) 0

@[simp] theorem numeral_length (k n : ℕ) : (A.numeral k n).length = k := by
  simp [numeral]

theorem numeral_succ (k n : ℕ) : A.numeral (k + 1) n = A.numeral k (n / b) ++ [A.char (n % b)] := by
  unfold numeral
  rw [List.range_succ, List.map_append, List.map_singleton, Nat.add_sub_cancel, Nat.sub_self,
    Nat.pow_zero, Nat.div_one]
  congr 1
  apply List.map_congr_left
  intro i hi
  have hlt : i < k := List.mem_range.mp hi
  have hexp : k - i = k - 1 - i + 1 := by omega
  rw [hexp, Nat.pow_succ, Nat.mul_comm, Nat.div_div_eq_div_mul]

theorem read_append_singleton (l : List α) (c : α) : A.read (l ++ [c]) =
    (A.read l).bind (fun n => (A.value c).map (fun d => n * b + d)) := by
  unfold read
  rw [List.foldlM_append]
  simp

/-- **Reading a numeral.** -/
theorem read_numeral (hb : 0 < b) (k n : ℕ) : A.read (A.numeral k n) = some (n % b ^ k) := by
  induction k generalizing n with
  | zero =>
      rw [Nat.pow_zero, Nat.mod_one]
      rfl
  | succ k ih =>
      have hdigit : A.value (A.char (n % b)) = some (n % b) := A.value_char _ (Nat.mod_lt n hb)
      have hmod : n % b ^ (k + 1) = n / b % b ^ k * b + n % b := by
        rw [Nat.pow_succ, Nat.mul_comm (b ^ k) b, Nat.mod_mul]
        ring
      rw [numeral_succ, read_append_singleton, ih, hdigit, hmod]
      rfl

theorem numeral_drop (k j n : ℕ) : (A.numeral k n).drop j = A.numeral (k - j) n := by
  apply List.ext_getElem
  · simp
  · intro i hi _
    have hlt : i < k - j := by simpa using hi
    have hexp : k - 1 - (j + i) = k - j - 1 - i := by omega
    simp only [numeral, List.getElem_drop, List.getElem_map, List.getElem_range, hexp]

theorem mem_numeral (hb : 0 < b) {k n : ℕ} {c : α} (hc : c ∈ A.numeral k n) :
    ∃ d < b, c = A.char d := by
  obtain ⟨i, -, rfl⟩ := List.mem_map.mp hc
  exact ⟨_, Nat.mod_lt _ hb, rfl⟩

end Alphabet

/-- The digits `0` to `9` and `A` to `F`. -/
def upperHex : Alphabet (BitVec 8) 16 where
  char d := BitVec.ofNat 8 (if d < 10 then 48 + d else 55 + d)
  value c :=
    if 48 ≤ c.toNat ∧ c.toNat ≤ 57 then some (c.toNat - 48)
    else if 65 ≤ c.toNat ∧ c.toNat ≤ 70 then some (c.toNat - 55)
    else none
  value_char d hd := by interval_cases d <;> rfl
  value_lt c d h := by grind
  char_value c d h := by
    apply BitVec.eq_of_toNat_eq
    have hc := c.isLt
    rw [BitVec.toNat_ofNat]
    grind

end BareMetal
