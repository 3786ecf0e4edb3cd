import Mathlib.Data.List.Induction
import Mathlib.Tactic.Common

/-! # The first best entry of a list

A scan that keeps what it has until something strictly better comes finds the first entry of
maximal score (`firstBest_scan`).  Entries of score zero are never taken. -/

namespace BareMetal

variable {α : Type}

/-- `b` is the first entry of maximal score, `none` when every score is zero. -/
def FirstBest (score : α → ℕ) (xs : List α) : Option α → Prop
  | none => ∀ x ∈ xs, score x = 0
  | some w => ∃ before after, xs = before ++ w :: after ∧ 0 < score w ∧
      (∀ x ∈ before, score x < score w) ∧ ∀ x ∈ after, score x ≤ score w

/-- Keep the better one, the older one of equals. -/
def better (score : α → ℕ) (b : Option α) (x : α) : Option α :=
  if b.elim 0 score < score x then some x else b

variable {score : α → ℕ} {xs : List α}

theorem better_of_le {b : Option α} {x : α} (h : score x ≤ b.elim 0 score) :
    better score b x = b := if_neg (Nat.not_lt.mpr h)

theorem FirstBest.le {b : Option α} (h : FirstBest score xs b) {x : α} (hx : x ∈ xs) :
    score x ≤ b.elim 0 score := by
  cases b with
  | none => exact Nat.le_of_eq (h x hx)
  | some w =>
      obtain ⟨before, after, rfl, -, hbefore, hafter⟩ := h
      rcases List.mem_append.mp hx with hx | hx
      · exact Nat.le_of_lt (hbefore x hx)
      · rcases List.mem_cons.mp hx with rfl | hx
        · exact Nat.le_refl _
        · exact hafter x hx

theorem FirstBest.snoc {b : Option α} (h : FirstBest score xs b) (x : α) :
    FirstBest score (xs ++ [x]) (better score b x) := by
  unfold better
  split_ifs with hlt
  · refine ⟨xs, [], rfl, Nat.zero_lt_of_lt hlt, ?_, List.forall_mem_nil _⟩
    intro y hy
    exact Nat.lt_of_le_of_lt (h.le hy) hlt
  · have hle : score x ≤ b.elim 0 score := Nat.le_of_not_lt hlt
    cases b with
    | none =>
        intro y hy
        rcases List.mem_append.mp hy with hy | hy
        · exact h y hy
        · obtain rfl := List.mem_singleton.mp hy
          exact Nat.le_zero.mp hle
    | some w =>
        obtain ⟨before, after, rfl, hpos, hbefore, hafter⟩ := h
        refine ⟨before, after ++ [x], by simp, hpos, hbefore, ?_⟩
        intro y hy
        rcases List.mem_append.mp hy with hy | hy
        · exact hafter y hy
        · obtain rfl := List.mem_singleton.mp hy
          exact hle

/-- **The scan** finds the first maximum. -/
theorem firstBest_scan (score : α → ℕ) (xs : List α) :
    FirstBest score xs (xs.foldl (better score) none) := by
  induction xs using List.reverseRecOn with
  | nil => exact List.forall_mem_nil _
  | append_singleton xs x ih =>
      rw [List.foldl_append]
      exact ih.snoc x

theorem FirstBest.none_iff {b : Option α} (h : FirstBest score xs b) :
    b = none ↔ ∀ x ∈ xs, score x = 0 := by
  cases b with
  | none => exact iff_of_true rfl h
  | some w =>
      obtain ⟨before, after, rfl, hpos, -⟩ := h
      refine iff_of_false (by simp) ?_
      intro hzero
      have hw := hzero w (by simp)
      omega

theorem FirstBest.head {b : Option α} {x : α} (h : FirstBest score (x :: xs) b)
    (hpos : 0 < score x) (hle : ∀ y ∈ xs, score y ≤ score x) : b = some x := by
  cases b with
  | none => exact absurd (h x List.mem_cons_self) (Nat.ne_of_gt hpos)
  | some w =>
      obtain ⟨before, after, heq, -, hbefore, -⟩ := h
      cases before with
      | nil => rw [(List.cons.inj heq).1]
      | cons y before =>
          obtain ⟨rfl, rfl⟩ := List.cons.inj heq
          have hw := hle w (by simp)
          have hx := hbefore x List.mem_cons_self
          omega

theorem FirstBest.lower_head {b : Option α} {x x' : α} (h : FirstBest score (x :: xs) b)
    (hle : score x' ≤ score x) (hbeaten : ∃ y ∈ xs, score x < score y) :
    FirstBest score (x' :: xs) b := by
  obtain ⟨y, hy, hlt⟩ := hbeaten
  have hybest := h.le (List.mem_cons_of_mem x hy)
  cases b with
  | none => exact absurd hybest (Nat.not_le.mpr (Nat.zero_lt_of_lt hlt))
  | some w =>
      obtain ⟨before, after, heq, hpos, hbefore, hafter⟩ := h
      cases before with
      | nil =>
          obtain ⟨rfl, rfl⟩ := List.cons.inj heq
          exact absurd hybest (Nat.not_le.mpr hlt)
      | cons z before =>
          obtain ⟨rfl, rfl⟩ := List.cons.inj heq
          refine ⟨x' :: before, after, rfl, hpos, ?_, hafter⟩
          intro v hv
          rcases List.mem_cons.mp hv with rfl | hv
          · exact Nat.lt_of_le_of_lt hle (hbefore x List.mem_cons_self)
          · exact hbefore v (List.mem_cons_of_mem x hv)

theorem FirstBest.of_map {β : Type} {f : α → β} {score : β → ℕ} {b : Option β}
    (h : FirstBest score (xs.map f) b) :
    ∃ a, b = a.map f ∧ FirstBest (fun x => score (f x)) xs a := by
  cases b with
  | none => exact ⟨none, rfl, fun x hx => h (f x) (List.mem_map_of_mem hx)⟩
  | some w =>
      obtain ⟨before, after, heq, hpos, hbefore, hafter⟩ := h
      obtain ⟨l₁, l₂, rfl, rfl, htail⟩ := List.map_eq_append_iff.mp heq
      obtain ⟨a, l₃, rfl, rfl, rfl⟩ := List.map_eq_cons_iff.mp htail
      refine ⟨some a, rfl, l₁, l₃, rfl, hpos, ?_, ?_⟩
      · exact fun x hx => hbefore (f x) (List.mem_map_of_mem hx)
      · exact fun x hx => hafter (f x) (List.mem_map_of_mem hx)

end BareMetal
