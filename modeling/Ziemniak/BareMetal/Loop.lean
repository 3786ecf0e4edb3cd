import Mathlib.Data.BitVec
import Mathlib.Logic.Function.Iterate
import Mathlib.Tactic.Common

/-! # While loops

`whileLoop c f n s` runs `while (c s) s := f s` for at most `n` rounds.  It is `none` when the
rounds run out, and also when a round itself does not return (`f s = none`: the body waits for
something that never comes).  `Ends c f s t` says that the loop returns `t` for some number of
rounds; more rounds change nothing (`whileLoop_mono`), so `t` is unique (`Ends.unique`).

Proofs about a loop that returns go by `whileLoop_run`, the induction on its rounds.  Three rules
carry the others: `Ends.of_count` for a loop whose number of rounds is known,
`whileLoop_diverges` for a guard that an invariant keeps true, and `whileLoop_follow` for two
loops that run in step.  A body may itself wait or loop and need fuel: `Settles` gives both the
same large amount.  `forUp` and `forDown` are the counting loops of C whose counter is narrower
than their bound: the counter wraps, so `forUp` ends exactly when the bound fits in it
(`forUp_ends`, `forUp_diverges`). -/

namespace BareMetal

variable {σ : Type}

/-- `while (c s) s := f s`, at most `n` rounds. -/
def whileLoop (c : σ → Bool) (f : σ → Option σ) : ℕ → σ → Option σ
  | 0, s => if c s then none else some s
  | n + 1, s => if c s then (f s).bind (whileLoop c f n) else some s

/-- The loop started in `s` returns `t`. -/
def Ends (c : σ → Bool) (f : σ → Option σ) (s t : σ) : Prop :=
  ∃ n, whileLoop c f n s = some t

variable {c : σ → Bool} {f : σ → Option σ}

theorem whileLoop_of_not {s : σ} (h : c s = false) (n : ℕ) : whileLoop c f n s = some s := by
  cases n <;> simp [whileLoop, h]

theorem whileLoop_succ {s s' : σ} (h : c s = true) (hs : f s = some s') (n : ℕ) :
    whileLoop c f (n + 1) s = whileLoop c f n s' := by
  simp [whileLoop, h, hs]

/-- Induction on a run that returns `t`: its rounds from the last one to the first. -/
theorem whileLoop_run {t : σ} {P : ℕ → σ → Prop} (hexit : ∀ n, c t = false → P n t)
    (hround : ∀ n s s', c s = true → f s = some s' → P n s' → P (n + 1) s) {n : ℕ} {s : σ}
    (h : whileLoop c f n s = some t) : P n s := by
  induction n generalizing s with
  | zero =>
      cases hc : c s with
      | false =>
          rw [whileLoop_of_not hc] at h
          obtain rfl := Option.some.inj h
          exact hexit 0 hc
      | true => simp [whileLoop, hc] at h
  | succ n ih =>
      cases hc : c s with
      | false =>
          rw [whileLoop_of_not hc] at h
          obtain rfl := Option.some.inj h
          exact hexit (n + 1) hc
      | true =>
          simp only [whileLoop, hc, if_true] at h
          obtain ⟨s', hs, hrest⟩ := Option.bind_eq_some_iff.mp h
          exact hround n s s' hc hs (ih hrest)

/-- More rounds, and a body that returns more often, change nothing in what was returned. -/
theorem whileLoop_le {g : σ → Option σ} (hf : ∀ s t, f s = some t → g s = some t) {n m : ℕ}
    (h : n ≤ m) {s t : σ} (hn : whileLoop c f n s = some t) : whileLoop c g m s = some t := by
  refine whileLoop_run (P := fun n s => ∀ m, n ≤ m → whileLoop c g m s = some t) ?_ ?_ hn m h
  · intro n hc m _
    exact whileLoop_of_not hc m
  · intro n s s' hc hs ih m hm
    obtain ⟨m, rfl⟩ : ∃ k, m = k + 1 := ⟨m - 1, by omega⟩
    rw [whileLoop_succ hc (hf s s' hs)]
    exact ih m (Nat.le_of_succ_le_succ hm)

theorem whileLoop_mono {n m : ℕ} (h : n ≤ m) {s t : σ} (hn : whileLoop c f n s = some t) :
    whileLoop c f m s = some t := whileLoop_le (fun _ _ hs => hs) h hn

theorem Ends.unique {s t t' : σ} (h : Ends c f s t) (h' : Ends c f s t') : t = t' := by
  obtain ⟨n, hn⟩ := h
  obtain ⟨m, hm⟩ := h'
  have e1 := whileLoop_mono (Nat.le_max_left n m) hn
  have e2 := whileLoop_mono (Nat.le_max_right n m) hm
  rw [e1] at e2
  exact Option.some.inj e2

theorem whileLoop_invariant {I : σ → Prop}
    (hstep : ∀ s s', I s → c s = true → f s = some s' → I s') {n : ℕ} {s t : σ} (hs : I s)
    (h : whileLoop c f n s = some t) : I t ∧ c t = false := by
  refine whileLoop_run (P := fun _ s => I s → I t ∧ c t = false) ?_ ?_ h hs
  · intro n hc ht
    exact ⟨ht, hc⟩
  · intro n s s' hc hf ih hs
    exact ih (hstep s s' hs hc hf)

theorem whileLoop_diverges {I : σ → Prop} (hguard : ∀ s, I s → c s = true)
    (hstep : ∀ s s', I s → f s = some s' → I s') {s : σ} (hs : I s) (n : ℕ) :
    whileLoop c f n s = none := by
  cases h : whileLoop c f n s with
  | none => rfl
  | some t =>
      obtain ⟨ht, hc⟩ := whileLoop_invariant (fun s s' hI _ hf => hstep s s' hI hf) hs h
      rw [hguard t ht] at hc
      cases hc

/-- A counting loop: `I k s` describes the state with `k` rounds still to run. -/
theorem whileLoop_of_count (I : ℕ → σ → Prop)
    (hstep : ∀ k s, I (k + 1) s → c s = true ∧ ∃ s', f s = some s' ∧ I k s')
    (hexit : ∀ s, I 0 s → c s = false) :
    ∀ k s, I k s → ∃ t, whileLoop c f k s = some t ∧ I 0 t := by
  intro k
  induction k with
  | zero =>
      intro s hs
      exact ⟨s, whileLoop_of_not (hexit s hs) 0, hs⟩
  | succ k ih =>
      intro s hs
      obtain ⟨hc, s', hf, hs'⟩ := hstep k s hs
      obtain ⟨t, ht, h0⟩ := ih s' hs'
      exact ⟨t, by rw [whileLoop_succ hc hf, ht], h0⟩

theorem Ends.of_count (I : ℕ → σ → Prop)
    (hstep : ∀ k s, I (k + 1) s → c s = true ∧ ∃ s', f s = some s' ∧ I k s')
    (hexit : ∀ s, I 0 s → c s = false) {k : ℕ} {s : σ} (hs : I k s) :
    ∃ t, Ends c f s t ∧ I 0 t := by
  obtain ⟨t, ht, h0⟩ := whileLoop_of_count I hstep hexit k s hs
  exact ⟨t, ⟨k, ht⟩, h0⟩

/-- Two loops that run in step as long as the first one is going to end well (`G`): related states
take the same decision, and a step on the way to a good end is matched by one of the second. -/
theorem whileLoop_follow {τ : Type} {d : τ → Bool} {g : τ → Option τ} {R : σ → τ → Prop}
    {G : σ → Prop} (hc : ∀ s u, R s u → d u = c s) (hback : ∀ s s', f s = some s' → G s' → G s)
    (hstep : ∀ s u s', R s u → f s = some s' → G s' → ∃ u', g u = some u' ∧ R s' u') {n : ℕ}
    {s t : σ} (h : whileLoop c f n s = some t) (ht : G t) :
    G s ∧ ∀ u, R s u → ∃ v, whileLoop d g n u = some v ∧ R t v := by
  refine whileLoop_run
    (P := fun n s => G s ∧ ∀ u, R s u → ∃ v, whileLoop d g n u = some v ∧ R t v) ?_ ?_ h
  · intro n hs
    exact ⟨ht, fun u hR => ⟨u, whileLoop_of_not (by rw [hc t u hR, hs]) n, hR⟩⟩
  · rintro n s s' hs hf ⟨hg', ih⟩
    refine ⟨hback s s' hf hg', ?_⟩
    intro u hR
    obtain ⟨u', hg, hR'⟩ := hstep s u s' hR hf hg'
    obtain ⟨v, hv, hRv⟩ := ih u' hR'
    exact ⟨v, by rw [whileLoop_succ (by rw [hc s u hR, hs]) hg, hv], hRv⟩

/-- Two loops that run in step whatever happens. -/
theorem whileLoop_rel {τ : Type} {d : τ → Bool} {g : τ → Option τ} {R : σ → τ → Prop}
    (hc : ∀ s u, R s u → d u = c s)
    (hstep : ∀ s u t, R s u → f s = some t → ∃ v, g u = some v ∧ R t v) {n : ℕ} {s t : σ}
    {u : τ} (hR : R s u) (h : whileLoop c f n s = some t) :
    ∃ v, whileLoop d g n u = some v ∧ R t v :=
  (whileLoop_follow (G := fun _ => True) hc (fun _ _ _ _ => trivial)
    (fun s u t hR hf _ => hstep s u t hR hf) h trivial).2 u hR

/-- A loop that carries something more along: forgetting it leaves the other loop. -/
theorem whileLoop_map {τ : Type} {d : τ → Bool} {g : τ → Option τ} (π : σ → τ)
    (hc : ∀ s, d (π s) = c s) (hf : ∀ s, (f s).map π = g (π s)) (n : ℕ) (s : σ) :
    (whileLoop c f n s).map π = whileLoop d g n (π s) := by
  induction n generalizing s with
  | zero =>
      unfold whileLoop
      rw [hc]
      cases c s <;> rfl
  | succ n ih =>
      unfold whileLoop
      rw [hc]
      cases c s with
      | false => rfl
      | true =>
          simp only [if_true]
          rw [← hf, Option.map_bind, Option.bind_map]
          congr 1
          funext s'
          exact ih s'

/-! ### On the way -/

/-- The states at which the loop tests its guard, whether or not it ever ends. -/
inductive Visits (c : σ → Bool) (f : σ → Option σ) (s : σ) : σ → Prop
  | start : Visits c f s s
  | round {t t' : σ} (before : Visits c f s t) (hc : c t = true) (hf : f t = some t') :
      Visits c f s t'

theorem Visits.invariant {I : σ → Prop}
    (hstep : ∀ s s', I s → c s = true → f s = some s' → I s') {s t : σ} (hs : I s)
    (h : Visits c f s t) : I t := by
  induction h with
  | start => exact hs
  | round _ hc hf ih => exact hstep _ _ ih hc hf

theorem visits_of_whileLoop {n : ℕ} {s t : σ} (h : whileLoop c f n s = some t) :
    Visits c f s t :=
  (whileLoop_invariant (I := Visits c f s) (fun _ _ hv hc hf => .round hv hc hf) .start h).1

/-! ### Enough fuel -/

/-- A body that needs fuel itself: the loop returns `t` for all large amounts of fuel. -/
def Settles (c : σ → Bool) (f : ℕ → σ → Option σ) (s t : σ) : Prop :=
  ∃ n, ∀ fuel, n ≤ fuel → ∀ m, n ≤ m → whileLoop c (f fuel) m s = some t

theorem Settles.exit {f : ℕ → σ → Option σ} {s : σ} (h : c s = false) : Settles c f s s :=
  ⟨0, fun _ _ m _ => whileLoop_of_not h m⟩

theorem Settles.round {f : ℕ → σ → Option σ} {s s' t : σ} (h : c s = true)
    (hs : ∃ n, ∀ fuel, n ≤ fuel → f fuel s = some s') (ht : Settles c f s' t) :
    Settles c f s t := by
  obtain ⟨n, hn⟩ := hs
  obtain ⟨k, hk⟩ := ht
  refine ⟨max n k + 1, ?_⟩
  intro fuel hfuel m hm
  obtain ⟨m, rfl⟩ : ∃ j, m = j + 1 := ⟨m - 1, by omega⟩
  rw [whileLoop_succ h (hn fuel (by omega))]
  exact hk fuel (by omega) m (by omega)

/-- Two loops that run in step, the second with a body that needs fuel. -/
theorem whileLoop_settles {τ : Type} {d : τ → Bool} {g : ℕ → τ → Option τ} {R : σ → τ → Prop}
    (hc : ∀ s u, R s u → d u = c s)
    (hstep : ∀ s u t, R s u → f s = some t →
      ∃ v, (∃ n, ∀ fuel, n ≤ fuel → g fuel u = some v) ∧ R t v) {n : ℕ} {s t : σ} {u : τ}
    (hR : R s u) (h : whileLoop c f n s = some t) : ∃ v, Settles d g u v ∧ R t v := by
  refine whileLoop_run (P := fun _ s => ∀ u, R s u → ∃ v, Settles d g u v ∧ R t v) ?_ ?_ h u hR
  · intro n ht u hR
    exact ⟨u, Settles.exit (by rw [hc t u hR, ht]), hR⟩
  · intro n s s' hs hf ih u hR
    obtain ⟨u', hg, hR'⟩ := hstep s u s' hR hf
    obtain ⟨v, hv, hRv⟩ := ih u' hR'
    exact ⟨v, Settles.round (by rw [hc s u hR, hs]) hg hv, hRv⟩

/-! ### Rounds that always return -/

/-- Such a loop goes through the iterates of its body, up to the first where the guard fails. -/
theorem ends_iff_iterate {g : σ → σ} {s t : σ} : Ends c (fun s => some (g s)) s t ↔
    ∃ k, (∀ j < k, c (g^[j] s) = true) ∧ c (g^[k] s) = false ∧ t = g^[k] s := by
  constructor
  · rintro ⟨n, h⟩
    refine whileLoop_run (P := fun _ s => ∃ k, (∀ j < k, c (g^[j] s) = true) ∧
      c (g^[k] s) = false ∧ t = g^[k] s) ?_ ?_ h
    · intro n ht
      exact ⟨0, by simp, ht, rfl⟩
    · rintro n s s' hs hs' ⟨k, hbefore, hk, ht⟩
      obtain rfl : g s = s' := Option.some.inj hs'
      refine ⟨k + 1, ?_, hk, ht⟩
      intro j hj
      cases j with
      | zero => exact hs
      | succ j => exact hbefore j (by omega)
  · rintro ⟨k, hbefore, hk, rfl⟩
    refine ⟨k, ?_⟩
    induction k generalizing s with
    | zero => exact whileLoop_of_not hk 0
    | succ k ih =>
        have hs : c s = true := hbefore 0 (Nat.succ_pos k)
        rw [whileLoop_succ (f := fun s => some (g s)) hs rfl]
        exact ih (fun j hj => hbefore (j + 1) (by omega)) hk

/-! ### Counting loops -/

section counting

variable {w w' : ℕ} {μ : Type}

/-- `for (i = start; i < bound; i++) m := f i m` with a `w`-bit counter. -/
def forUp (bound : BitVec w') (f : BitVec w → μ → μ) (fuel : ℕ) (start : BitVec w) (m : μ) :
    Option μ :=
  (whileLoop (fun s : BitVec w × μ => decide (s.1.setWidth w' < bound))
    (fun s => some (s.1 + 1, f s.1 s.2)) fuel (start, m)).map Prod.snd

/-- `for (i = start; i > bound; i--) m := f i m` with a `w`-bit counter. -/
def forDown (bound : BitVec w') (f : BitVec w → μ → μ) (fuel : ℕ) (start : BitVec w) (m : μ) :
    Option μ :=
  (whileLoop (fun s : BitVec w × μ => decide (s.1.setWidth w' > bound))
    (fun s => some (s.1 - 1, f s.1 s.2)) fuel (start, m)).map Prod.snd

/-- The effect of the rounds whose counter takes the values of `l`. -/
def rounds (f : BitVec w → μ → μ) (l : List ℕ) (m : μ) : μ :=
  l.foldl (fun m j => f (BitVec.ofNat w j) m) m

theorem rounds_zero (f : BitVec w → μ → μ) (m : μ) : rounds f (List.range 0) m = m := rfl

theorem rounds_succ (f : BitVec w → μ → μ) (n : ℕ) (m : μ) :
    rounds f (List.range (n + 1)) m = f (BitVec.ofNat w n) (rounds f (List.range n) m) := by
  unfold rounds
  rw [List.range_succ, List.foldl_append]
  rfl

theorem toNat_one_of_pos (h : 1 < 2 ^ w) : (1#w).toNat = 1 := by
  rw [BitVec.toNat_ofNat]
  exact Nat.mod_eq_of_lt h

theorem toNat_succ_of_lt {i : BitVec w} {n : ℕ} (h : i.toNat < n) (hn : n < 2 ^ w) :
    (i + 1).toNat = i.toNat + 1 := by
  have e : (i + 1#w).toNat = (i.toNat + (1#w).toNat) % 2 ^ w := BitVec.toNat_add ..
  rw [toNat_one_of_pos (by omega), Nat.mod_eq_of_lt (by omega)] at e
  exact e

theorem toNat_pred_of_pos {i : BitVec w} (h : 0 < i.toNat) : (i - 1).toNat = i.toNat - 1 := by
  have hi := i.isLt
  have h1 := toNat_one_of_pos (w := w) (by omega)
  have hle : 1#w ≤ i := by rw [BitVec.le_def, h1]; exact h
  have e : (i - 1#w).toNat = i.toNat - (1#w).toNat := BitVec.toNat_sub_of_le hle
  rw [h1] at e
  exact e

/-- Rounds that each set one element of an array, the first at `o`. -/
theorem rounds_update {β : Type} {f : BitVec w → (ℕ → β) → ℕ → β} {o n : ℕ} {v : ℕ → β}
    (hf : ∀ j < n, ∀ a, f (BitVec.ofNat w j) a = Function.update a (o + j) (v j)) (a : ℕ → β)
    (x : ℕ) : rounds f (List.range n) a x = if o ≤ x ∧ x < o + n then v (x - o) else a x := by
  induction n with
  | zero =>
      rw [rounds_zero, if_neg (by omega)]
  | succ n ih =>
      rw [rounds_succ, hf n (Nat.lt_succ_self n)]
      by_cases hx : x = o + n
      · rw [hx, Function.update_self, if_pos (by omega), Nat.add_sub_cancel_left]
      · rw [Function.update_of_ne hx, ih (fun j hj => hf j (by omega))]
        exact if_congr (by omega) rfl rfl

theorem rounds_update_index {β : Type} {g : BitVec w → β} {n : ℕ} (hn : n ≤ 2 ^ w) (a : ℕ → β)
    (x : ℕ) : rounds (fun i a => Function.update a i.toNat (g i)) (List.range n) a x =
      if x < n then g (BitVec.ofNat w x) else a x := by
  have hround : ∀ j < n, ∀ a : ℕ → β, Function.update a (BitVec.ofNat w j).toNat
      (g (BitVec.ofNat w j)) = Function.update a (0 + j) (g (BitVec.ofNat w j)) := by
    intro j hj a
    rw [BitVec.toNat_ofNat, Nat.mod_eq_of_lt (by omega), Nat.zero_add]
  rw [rounds_update hround]
  exact if_congr (by omega) rfl rfl

theorem rounds_invariant {f : BitVec w → μ → μ} {I : μ → Prop} {l : List ℕ}
    (hf : ∀ j ∈ l, ∀ m, I m → I (f (BitVec.ofNat w j) m)) {m : μ} (hm : I m) :
    I (rounds f l m) := by
  induction l generalizing m with
  | nil => exact hm
  | cons j l ih =>
      obtain ⟨hj, hl⟩ := List.forall_mem_cons.mp hf
      exact ih hl (hj m hm)

theorem rounds_map {ν : Type} {f : BitVec w → μ → μ} {g : BitVec w → ν → ν} (π : μ → ν)
    (hf : ∀ i m, π (f i m) = g i (π m)) (l : List ℕ) (m : μ) :
    π (rounds f l m) = rounds g l (π m) := by
  induction l generalizing m with
  | nil => rfl
  | cons j l ih =>
      have hrest := ih (f (BitVec.ofNat w j) m)
      rw [hf] at hrest
      exact hrest

/-- Rounds that also note a value each: the notes are in the order of the rounds. -/
theorem rounds_log {ν : Type} (f : BitVec w → μ → μ) (g : BitVec w → ν) (l : List ℕ) (m : μ)
    (log : List ν) : rounds (fun i (s : μ × List ν) => (f i s.1, s.2 ++ [g i])) l (m, log) =
      (rounds f l m, log ++ l.map (fun j => g (BitVec.ofNat w j))) := by
  induction l generalizing m log with
  | nil => simp [rounds]
  | cons j l ih =>
      have hrest := ih (f (BitVec.ofNat w j) m) (log ++ [g (BitVec.ofNat w j)])
      unfold rounds at hrest ⊢
      rw [List.foldl_cons, List.foldl_cons, hrest, List.map_cons, List.append_assoc,
        List.singleton_append]

variable {bound : BitVec w'} {f : BitVec w → μ → μ}

theorem forUp_map {ν : Type} {g : BitVec w → ν → ν} (π : μ → ν)
    (hf : ∀ i m, π (f i m) = g i (π m)) (n : ℕ) (start : BitVec w) (m : μ) :
    (forUp bound f n start m).map π = forUp bound g n start (π m) := by
  have hround : ∀ s : BitVec w × μ, (some (s.1 + 1, f s.1 s.2)).map (fun s => (s.1, π s.2)) =
      some (s.1 + 1, g s.1 (π s.2)) := by
    intro s
    rw [Option.map_some, hf]
  unfold forUp
  rw [← whileLoop_map (fun s : BitVec w × μ => (s.1, π s.2)) (fun _ => rfl) hround n (start, m),
    Option.map_map, Option.map_map]
  rfl

theorem forDown_map {ν : Type} {g : BitVec w → ν → ν} (π : μ → ν)
    (hf : ∀ i m, π (f i m) = g i (π m)) (n : ℕ) (start : BitVec w) (m : μ) :
    (forDown bound f n start m).map π = forDown bound g n start (π m) := by
  have hround : ∀ s : BitVec w × μ, (some (s.1 - 1, f s.1 s.2)).map (fun s => (s.1, π s.2)) =
      some (s.1 - 1, g s.1 (π s.2)) := by
    intro s
    rw [Option.map_some, hf]
  unfold forDown
  rw [← whileLoop_map (fun s : BitVec w × μ => (s.1, π s.2)) (fun _ => rfl) hround n (start, m),
    Option.map_map, Option.map_map]
  rfl

theorem forUp_ends (hw : w ≤ w') (hb : bound.toNat < 2 ^ w) (start : BitVec w) (m : μ) :
    ∃ fuel, forUp bound f fuel start m =
      some (rounds f (List.range' start.toNat (bound.toNat - start.toNat)) m) := by
  obtain ⟨t, ⟨fuel, ht⟩, -, hm⟩ := Ends.of_count
    (c := fun s : BitVec w × μ => decide (s.1.setWidth w' < bound))
    (f := fun s => some (s.1 + 1, f s.1 s.2))
    (fun k s => k = bound.toNat - s.1.toNat ∧ rounds f (List.range' s.1.toNat k) s.2 =
      rounds f (List.range' start.toNat (bound.toNat - start.toNat)) m)
    (by
      rintro k ⟨i, mem⟩ ⟨hk, hm⟩
      simp only at hk hm
      have hlt : i.toNat < bound.toNat := by omega
      have hi := toNat_succ_of_lt hlt hb
      refine ⟨?_, (i + 1, f i mem), rfl, ?_, ?_⟩
      · rw [decide_eq_true_iff, BitVec.lt_def, BitVec.toNat_setWidth_of_le hw]
        exact hlt
      · simp only [hi]; omega
      · rw [List.range'_succ] at hm
        unfold rounds at hm
        simp only [List.foldl_cons, BitVec.ofNat_toNat, BitVec.setWidth_eq] at hm
        unfold rounds
        simp only [hi]
        exact hm)
    (by
      rintro ⟨i, mem⟩ ⟨hk, -⟩
      simp only at hk
      simp only [decide_eq_false_iff_not, BitVec.lt_def, BitVec.toNat_setWidth_of_le hw]
      omega)
    (s := (start, m)) ⟨rfl, rfl⟩
  refine ⟨fuel, ?_⟩
  rw [forUp, ht, Option.map_some, ← hm]
  rfl

theorem forUp_diverges (hw : w ≤ w') (hb : 2 ^ w ≤ bound.toNat) (start : BitVec w) (m : μ)
    (fuel : ℕ) : forUp bound f fuel start m = none := by
  have h := whileLoop_diverges (c := fun s : BitVec w × μ => decide (s.1.setWidth w' < bound))
    (f := fun s => some (s.1 + 1, f s.1 s.2)) (I := fun _ => True)
    (by
      rintro ⟨i, mem⟩ -
      have hi := i.isLt
      rw [decide_eq_true_iff, BitVec.lt_def, BitVec.toNat_setWidth_of_le hw]
      omega)
    (fun _ _ _ _ => trivial) (s := (start, m)) trivial fuel
  rw [forUp, h, Option.map_none]

/-- Whether the loop returns does not depend on what its body does to `m`. -/
theorem forUp_any {f' : BitVec w → μ → μ} {n : ℕ} {start : BitVec w} {m m₁ : μ}
    (h : forUp bound f n start m = some m₁) (m' : μ) :
    ∃ m₁', forUp bound f' n start m' = some m₁' := by
  obtain ⟨t, ht, -⟩ := Option.map_eq_some_iff.mp h
  obtain ⟨t', ht', -⟩ := whileLoop_rel
    (d := fun s : BitVec w × μ => decide (s.1.setWidth w' < bound))
    (g := fun s => some (s.1 + 1, f' s.1 s.2)) (R := fun s s' => s'.1 = s.1)
    (by rintro ⟨i, mem⟩ ⟨i', mem'⟩ rfl; rfl)
    (by
      rintro ⟨i, mem⟩ ⟨i', mem'⟩ t rfl hs
      obtain rfl := Option.some.inj hs
      exact ⟨_, rfl, rfl⟩)
    (u := (start, m')) rfl ht
  exact ⟨t'.2, by rw [forUp, ht', Option.map_some]⟩

theorem forUp_mono {n k : ℕ} (h : n ≤ k) {start : BitVec w} {m m' : μ}
    (hn : forUp bound f n start m = some m') : forUp bound f k start m = some m' := by
  obtain ⟨t, ht, rfl⟩ := Option.map_eq_some_iff.mp hn
  rw [forUp, whileLoop_mono h ht, Option.map_some]

theorem forUp_iff (hw : w ≤ w') {start : BitVec w} {m m' : μ} :
    (∃ fuel, forUp bound f fuel start m = some m') ↔ bound.toNat < 2 ^ w ∧
      m' = rounds f (List.range' start.toNat (bound.toNat - start.toNat)) m := by
  constructor
  · rintro ⟨n, hn⟩
    have hb : bound.toNat < 2 ^ w := by
      by_contra hb
      rw [forUp_diverges hw (Nat.not_lt.mp hb)] at hn
      cases hn
    obtain ⟨k, hk⟩ := forUp_ends (f := f) hw hb start m
    have e1 := forUp_mono (Nat.le_max_left n k) hn
    have e2 := forUp_mono (Nat.le_max_right n k) hk
    rw [e1] at e2
    exact ⟨hb, Option.some.inj e2⟩
  · rintro ⟨hb, rfl⟩
    exact forUp_ends hw hb start m

theorem forDown_any {f' : BitVec w → μ → μ} {n : ℕ} {start : BitVec w} {m m₁ : μ}
    (h : forDown bound f n start m = some m₁) (m' : μ) :
    ∃ m₁', forDown bound f' n start m' = some m₁' := by
  obtain ⟨t, ht, -⟩ := Option.map_eq_some_iff.mp h
  obtain ⟨t', ht', -⟩ := whileLoop_rel
    (d := fun s : BitVec w × μ => decide (s.1.setWidth w' > bound))
    (g := fun s => some (s.1 - 1, f' s.1 s.2)) (R := fun s s' => s'.1 = s.1)
    (by rintro ⟨i, mem⟩ ⟨i', mem'⟩ rfl; rfl)
    (by
      rintro ⟨i, mem⟩ ⟨i', mem'⟩ t rfl hs
      obtain rfl := Option.some.inj hs
      exact ⟨_, rfl, rfl⟩)
    (u := (start, m')) rfl ht
  exact ⟨t'.2, by rw [forDown, ht', Option.map_some]⟩

theorem forDown_mono {n k : ℕ} (h : n ≤ k) {start : BitVec w} {m m' : μ}
    (hn : forDown bound f n start m = some m') : forDown bound f k start m = some m' := by
  obtain ⟨t, ht, rfl⟩ := Option.map_eq_some_iff.mp hn
  rw [forDown, whileLoop_mono h ht, Option.map_some]

/-- Counting down never passes the bound, so the loop always ends. -/
theorem forDown_ends (hw : w ≤ w') (start : BitVec w) (m : μ) :
    ∃ fuel, forDown bound f fuel start m = some (rounds f
      ((List.range (start.toNat - bound.toNat)).map (fun j => start.toNat - j)) m) := by
  obtain ⟨t, ⟨fuel, ht⟩, -, hm⟩ := Ends.of_count
    (c := fun s : BitVec w × μ => decide (s.1.setWidth w' > bound))
    (f := fun s => some (s.1 - 1, f s.1 s.2))
    (fun k s => k = s.1.toNat - bound.toNat ∧
      rounds f ((List.range k).map (fun j => s.1.toNat - j)) s.2 = rounds f
        ((List.range (start.toNat - bound.toNat)).map (fun j => start.toNat - j)) m)
    (by
      rintro k ⟨i, mem⟩ ⟨hk, hm⟩
      simp only at hk hm
      have hi := toNat_pred_of_pos (i := i) (by omega)
      refine ⟨?_, (i - 1, f i mem), rfl, ?_, ?_⟩
      · simp only [decide_eq_true_iff, gt_iff_lt, BitVec.lt_def, BitVec.toNat_setWidth_of_le hw]
        omega
      · simp only [hi]; omega
      · have e : (fun j => i.toNat - j) ∘ Nat.succ = fun j => i.toNat - 1 - j := by
          funext j
          simp only [Function.comp_apply]
          omega
        rw [List.range_succ_eq_map, List.map_cons, List.map_map, e] at hm
        unfold rounds at hm
        simp only [List.foldl_cons, Nat.sub_zero, BitVec.ofNat_toNat, BitVec.setWidth_eq] at hm
        unfold rounds
        simp only [hi]
        exact hm)
    (by
      rintro ⟨i, mem⟩ ⟨hk, -⟩
      simp only at hk
      simp only [decide_eq_false_iff_not, gt_iff_lt, BitVec.lt_def,
        BitVec.toNat_setWidth_of_le hw]
      omega)
    (s := (start, m)) ⟨rfl, rfl⟩
  refine ⟨fuel, ?_⟩
  rw [forDown, ht, Option.map_some, ← hm]
  rfl

theorem forDown_iff (hw : w ≤ w') {start : BitVec w} {m m' : μ} :
    (∃ fuel, forDown bound f fuel start m = some m') ↔ m' = rounds f
      ((List.range (start.toNat - bound.toNat)).map (fun j => start.toNat - j)) m := by
  obtain ⟨k, hk⟩ : ∃ k, forDown bound f k start m = _ := forDown_ends hw start m
  constructor
  · rintro ⟨n, hn⟩
    have e1 := forDown_mono (Nat.le_max_left n k) hn
    have e2 := forDown_mono (Nat.le_max_right n k) hk
    rw [e1] at e2
    exact Option.some.inj e2
  · rintro rfl
    exact ⟨k, hk⟩

end counting

/-! ### Strings -/

/-- A loop over what comes before the end of a string, with a `w`-bit index: each character is
handled once and in order. -/
theorem whileLoop_scan {w : ℕ} {μ α : Type} {a : ℕ → α} {g : α → Bool} {f : μ → α → μ} {len : ℕ}
    (hlen : len < 2 ^ w) (hends : g (a len) = false) (hbefore : ∀ i < len, g (a i) = true)
    (m : μ) {fuel : ℕ} (hfuel : len ≤ fuel) :
    whileLoop (fun s : BitVec w × μ => g (a s.1.toNat))
        (fun s => some (s.1 + 1, f s.2 (a s.1.toNat))) fuel (0, m) =
      some (BitVec.ofNat w len, ((List.range len).map a).foldl f m) := by
  obtain ⟨⟨i, t⟩, hrun, hi, ht⟩ := whileLoop_of_count
    (c := fun s : BitVec w × μ => g (a s.1.toNat))
    (f := fun s => some (s.1 + 1, f s.2 (a s.1.toNat)))
    (fun k s => s.1.toNat + k = len ∧ s.2 = ((List.range s.1.toNat).map a).foldl f m)
    (by
      rintro k ⟨i, t⟩ ⟨hk, ht⟩
      simp only at hk ht
      have hnext : (i + 1).toNat = i.toNat + 1 := toNat_succ_of_lt (n := len) (by omega) hlen
      refine ⟨hbefore i.toNat (by omega), _, rfl, ?_, ?_⟩
      · simp only [hnext]
        omega
      · simp only [hnext, ht, List.range_succ, List.map_append, List.foldl_append]
        rfl)
    (by
      rintro ⟨i, t⟩ ⟨hk, -⟩
      simp only [Nat.add_zero] at hk
      simp only [hk, hends])
    len (0, m) ⟨by simp, rfl⟩
  simp only [Nat.add_zero] at hi ht
  rw [whileLoop_mono hfuel hrun, ht, hi, ← hi, BitVec.ofNat_toNat, BitVec.setWidth_eq]

end BareMetal
