import Ziemniak.BareMetal.Words

/-! # Bit fields

How a compiler lays out the bit fields of a record: one after the other from the lowest bit up,
and a field that would cross from one storage unit into the next begins the next.  `storeFields`
is the number that holds them all.

The places of the fields do not overlap (`placeFrom_apart`), so that every field is read as it was
stored, whatever the others hold (`read_storeFields`). -/

namespace BareMetal

/-- The bit fields of a record in order, with their widths. -/
abbrev BitFields (φ : Type) := List (φ × ℕ)

/-- The bits of a field. -/
structure FieldAt (φ : Type) where
  field : φ
  low : ℕ
  width : ℕ
deriving DecidableEq, Repr

section fields

variable {φ : Type}

/-- The fields from bit `o` on, in units of `u` bits. -/
def BitFields.placeFrom (u : ℕ) : ℕ → BitFields φ → List (FieldAt φ)
  | _, [] => []
  | o, (f, w) :: s =>
      let o := if o % u + w ≤ u then o else roundUp u o
      { field := f, low := o, width := w } :: placeFrom u (o + w) s

/-- The bits of a field in a number. -/
def FieldAt.read (p : FieldAt φ) (n : ℕ) : ℕ := n / 2 ^ p.low % 2 ^ p.width

/-- What a field adds to the number; a value that is too wide is cut off. -/
def FieldAt.store (v : φ → ℕ) (p : FieldAt φ) : ℕ := v p.field % 2 ^ p.width * 2 ^ p.low

def storeFields (v : φ → ℕ) (l : List (FieldAt φ)) : ℕ := (l.map (FieldAt.store v)).sum

@[simp] theorem storeFields_nil (v : φ → ℕ) : storeFields v [] = 0 := rfl

@[simp] theorem storeFields_cons (v : φ → ℕ) (p : FieldAt φ) (l : List (FieldAt φ)) :
    storeFields v (p :: l) = p.store v + storeFields v l := List.sum_cons

/-- Every field ends before the next ones begin. -/
def Apart (l : List (FieldAt φ)) : Prop := l.Pairwise (fun p q => p.low + p.width ≤ q.low)

theorem BitFields.placeFrom_low {u : ℕ} (hu : 0 < u) {o : ℕ} {s : BitFields φ} {p : FieldAt φ}
    (hp : p ∈ s.placeFrom u o) : o ≤ p.low := by
  induction s generalizing o with
  | nil => cases hp
  | cons m s ih =>
      have hup : o ≤ if o % u + m.2 ≤ u then o else roundUp u o := by
        split_ifs
        · exact le_rfl
        · exact le_roundUp hu o
      cases List.mem_cons.mp hp with
      | inl h =>
          rw [h]
          exact hup
      | inr h => exact hup.trans ((Nat.le_add_right _ _).trans (ih h))

theorem BitFields.placeFrom_apart {u : ℕ} (hu : 0 < u) (o : ℕ) (s : BitFields φ) :
    Apart (s.placeFrom u o) := by
  induction s generalizing o with
  | nil => exact List.Pairwise.nil
  | cons m s ih => exact List.Pairwise.cons (fun q hq => placeFrom_low hu hq) (ih _)

/-- Fields from bit `o` on add a multiple of `2 ^ o`. -/
theorem dvd_storeFields {v : φ → ℕ} {o : ℕ} {l : List (FieldAt φ)} (h : ∀ p ∈ l, o ≤ p.low) :
    2 ^ o ∣ storeFields v l := by
  induction l with
  | nil => exact Nat.dvd_zero _
  | cons p l ih =>
      obtain ⟨hp, hl⟩ := List.forall_mem_cons.mp h
      rw [storeFields_cons]
      exact Nat.dvd_add (Dvd.dvd.mul_left (Nat.pow_dvd_pow 2 hp) _) (ih hl)

theorem FieldAt.store_lt (v : φ → ℕ) (p : FieldAt φ) : p.store v < 2 ^ (p.low + p.width) := by
  unfold store
  rw [Nat.pow_add, Nat.mul_comm (2 ^ p.low)]
  exact Nat.mul_lt_mul_of_pos_right (Nat.mod_lt _ (Nat.two_pow_pos _)) (Nat.two_pow_pos _)

theorem FieldAt.read_store (v : φ → ℕ) (p : FieldAt φ) {n : ℕ} (h : 2 ^ (p.low + p.width) ∣ n) :
    p.read (p.store v + n) = v p.field % 2 ^ p.width := by
  obtain ⟨c, rfl⟩ := h
  have hsum : p.store v + 2 ^ (p.low + p.width) * c =
      2 ^ p.low * (v p.field % 2 ^ p.width + 2 ^ p.width * c) := by
    unfold store
    rw [Nat.pow_add]
    ring
  unfold read
  rw [hsum, Nat.mul_div_cancel_left _ (Nat.two_pow_pos _), Nat.add_mul_mod_self_left, Nat.mod_mod]

theorem FieldAt.read_add {p : FieldAt φ} {m a n : ℕ} (ha : a < 2 ^ m) (hn : 2 ^ m ∣ n)
    (hm : m ≤ p.low) : p.read (a + n) = p.read n := by
  obtain ⟨c, rfl⟩ := hn
  obtain ⟨j, hj⟩ := Nat.exists_eq_add_of_le hm
  unfold read
  rw [hj, Nat.pow_add, ← Nat.div_div_eq_div_mul, ← Nat.div_div_eq_div_mul,
    Nat.add_mul_div_left _ _ (Nat.two_pow_pos m), Nat.div_eq_of_lt ha, Nat.zero_add,
    Nat.mul_div_cancel_left _ (Nat.two_pow_pos m)]

/-- **Reading a field.** -/
theorem read_storeFields {l : List (FieldAt φ)} (hl : Apart l) (v : φ → ℕ) {p : FieldAt φ}
    (hp : p ∈ l) : p.read (storeFields v l) = v p.field % 2 ^ p.width := by
  induction l with
  | nil => cases hp
  | cons q l ih =>
      obtain ⟨hhead, htail⟩ := List.pairwise_cons.mp hl
      rw [storeFields_cons]
      cases List.mem_cons.mp hp with
      | inl h =>
          rw [h]
          exact q.read_store v (dvd_storeFields hhead)
      | inr h =>
          rw [FieldAt.read_add (q.store_lt v) (dvd_storeFields hhead) (hhead p h)]
          exact ih htail h

end fields

end BareMetal
