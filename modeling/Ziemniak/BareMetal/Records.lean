import Mathlib.Data.Finset.Card
import Ziemniak.BareMetal.Memory

/-! # Records of variable length

A block of `size` bytes that holds records one after the other.  `len o` is the length of the
record at offset `o`, and `Chain len least size o offs e` says that the records from `o` on are
those at `offs`, that none is shorter than `least`, that all lie in the block, and that the last
one ends at `e`. -/

namespace BareMetal

/-- The `n` bytes from `a` on. -/
def bytesAt (m : Mem) (a : ℕ) : ℕ → List (BitVec 8)
  | 0 => []
  | n + 1 => m a :: bytesAt m (a + 1) n

theorem bytesAt_congr {m m' : Mem} {a n : ℕ} (h : ∀ x, a ≤ x → x < a + n → m x = m' x) :
    bytesAt m a n = bytesAt m' a n := by
  induction n generalizing a with
  | zero => rfl
  | succ n ih =>
      rw [bytesAt, bytesAt, h a le_rfl (by omega), ih (fun x hx hx' => h x (by omega) (by omega))]

theorem bytesAt_shift (m : Mem) (a b n : ℕ) :
    bytesAt (fun i => m (a + i)) b n = bytesAt m (a + b) n := by
  induction n generalizing b with
  | zero => rfl
  | succ n ih =>
      rw [bytesAt, bytesAt, ih]
      rfl

theorem bytesAt_eq_iff {m : Mem} {a : ℕ} {l : List (BitVec 8)} :
    bytesAt m a l.length = l ↔ ∀ k < l.length, m (a + k) = l.getD k 0 := by
  induction l generalizing a with
  | nil => simp [bytesAt]
  | cons b l ih =>
      rw [List.length_cons, bytesAt, List.cons.injEq, ih]
      constructor
      · rintro ⟨h0, hrest⟩ k hk
        cases k with
        | zero => exact h0
        | succ k =>
            rw [← Nat.add_assoc, Nat.add_right_comm]
            exact hrest k (by omega)
      · intro h
        refine ⟨h 0 (by omega), ?_⟩
        intro k hk
        rw [Nat.add_right_comm, Nat.add_assoc]
        exact h (k + 1) (by omega)

theorem exists_byte_notMem {l : List (BitVec 8)} (h : l.length < 256) : ∃ b, b ∉ l := by
  have hle : (l.map BitVec.toNat).toFinset.card ≤ l.length := by
    rw [← List.length_map (f := BitVec.toNat)]
    exact List.toFinset_card_le _
  have hcard : (l.map BitVec.toNat).toFinset.card < (Finset.range 256).card := by
    rw [Finset.card_range]
    omega
  obtain ⟨n, hn, hnot⟩ := Finset.exists_mem_notMem_of_card_lt_card hcard
  refine ⟨BitVec.ofNat 8 n, ?_⟩
  intro hmem
  apply hnot
  rw [List.mem_toFinset, List.mem_map]
  exact ⟨_, hmem, by rw [BitVec.toNat_ofNat, Nat.mod_eq_of_lt (Finset.mem_range.mp hn)]⟩

theorem exists_first {p : ℕ → Prop} {n : ℕ} (h : ¬ ∀ i < n, p i) :
    ∃ i < n, ¬ p i ∧ ∀ j < i, p j := by
  classical
  push Not at h
  obtain ⟨hi, hnot⟩ := Nat.find_spec h
  refine ⟨Nat.find h, hi, hnot, ?_⟩
  intro j hj
  by_contra hne
  exact Nat.find_min h hj ⟨by omega, hne⟩

/-- The records from one offset to another. -/
inductive Chain (len : ℕ → ℕ) (least size : ℕ) : ℕ → List ℕ → ℕ → Prop
  | stop (o : ℕ) : Chain len least size o [] o
  | record {o e : ℕ} {offs : List ℕ} (hleast : least ≤ len o) (hin : o + len o ≤ size)
      (rest : Chain len least size (o + len o) offs e) : Chain len least size o (o :: offs) e

namespace Chain

variable {len : ℕ → ℕ} {least size o e : ℕ} {offs : List ℕ}

theorem le (h : Chain len least size o offs e) : o ≤ e := by
  induction h with
  | stop o => exact le_rfl
  | record _ _ _ ih => exact le_trans (Nat.le_add_right _ _) ih

theorem le_size (h : Chain len least size o offs e) (ho : o ≤ size) : e ≤ size := by
  induction h with
  | stop o => exact ho
  | record _ hin _ ih => exact ih hin

theorem congr {len' : ℕ → ℕ} (h : Chain len least size o offs e) (hpos : 0 < least)
    (hlen : ∀ x < size, len x = len' x) : Chain len' least size o offs e := by
  induction h with
  | stop o => exact .stop o
  | @record o e offs hleast hin _ ih =>
      have ho : len o = len' o := hlen o (by omega)
      rw [ho] at hleast hin ih
      exact .record hleast hin ih

theorem cons {x : ℕ} (h : Chain len least size o (x :: offs) e) :
    x = o ∧ least ≤ len o ∧ o + len o ≤ size ∧ Chain len least size (o + len o) offs e := by
  cases h with
  | record hleast hin rest => exact ⟨rfl, hleast, hin, rest⟩

theorem split {offs' : List ℕ} (h : Chain len least size o (offs ++ offs') e) :
    ∃ e', Chain len least size o offs e' ∧ Chain len least size e' offs' e := by
  induction offs generalizing o with
  | nil => exact ⟨o, .stop o, h⟩
  | cons x offs ih =>
      obtain ⟨rfl, hleast, hin, rest⟩ := h.cons
      obtain ⟨e', h₁, h₂⟩ := ih rest
      exact ⟨e', .record hleast hin h₁, h₂⟩

theorem mem (h : Chain len least size o offs e) {x : ℕ} (hx : x ∈ offs) :
    o ≤ x ∧ x + len x ≤ e ∧ least ≤ len x ∧ x + len x ≤ size := by
  induction h with
  | stop o => cases hx
  | record hleast hin rest ih =>
      cases hx with
      | head => exact ⟨le_rfl, rest.le, hleast, hin⟩
      | tail _ hx =>
          have := ih hx
          omega

/-- Records whose lengths are multiples of `k` keep to the multiples of `k`. -/
theorem dvd {k : ℕ} (h : Chain len least size o offs e) (hpos : 0 < least)
    (hlen : ∀ x < size, k ∣ x → k ∣ len x) (ho : k ∣ o) : k ∣ e := by
  induction h with
  | stop o => exact ho
  | record hleast hin _ ih => exact ih (Nat.dvd_add ho (hlen _ (by omega) ho))

theorem length_le (h : Chain len least size o offs e) : offs.length * least + o ≤ e := by
  induction h with
  | stop o => simp
  | record hleast _ _ ih =>
      rw [List.length_cons, Nat.succ_mul]
      omega

end Chain

end BareMetal
