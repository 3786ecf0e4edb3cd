import Mathlib.Data.List.Basic
import Mathlib.Tactic.Common

/-! # Programs in stages

A program that goes through its stages one after the other, each of which may give up with an
error, or wait for something that never comes.  The state where a stage gave up is kept, because
the report of the error still runs there.

`Spec P p Q E` says what a stage does that is entered in a state of `P`: it leaves one of `Q` for
the next stage, or gives up in one of `E`; `Decides P p o` says that it returns, and with which
error.  The two together are the contract of a stage, and contracts of the stages make up that of
the program: it gives up at the first requirement that is not met (`Contract.cons`). -/

namespace BareMetal

variable {ε σ : Type}

/-- `none`: the stage never returns. -/
abbrev Stage (ε σ : Type) := σ → Option (Except (ε × σ) σ)

namespace Stage

/-- Work that cannot fail. -/
def work (f : σ → σ) : Stage ε σ := fun s => some (.ok (f s))

/-- A test that gives up with `e`. -/
def test (c : σ → Bool) (e : ε) : Stage ε σ := fun s =>
  if c s then some (.ok s) else some (.error (e, s))

/-- The stages in order, up to the first error. -/
def run : List (Stage ε σ) → Stage ε σ
  | [], s => some (.ok s)
  | p :: ps, s =>
      match p s with
      | none => none
      | some (.error e) => some (.error e)
      | some (.ok s) => run ps s

section run

variable {p : Stage ε σ} {ps : List (Stage ε σ)} {s s' : σ}

theorem run_cons_of_ok (h : p s = some (.ok s')) : run (p :: ps) s = run ps s' := by
  rw [run, h]

theorem run_cons_of_error {e : ε × σ} (h : p s = some (.error e)) :
    run (p :: ps) s = some (.error e) := by
  rw [run, h]

theorem run_cons_ok_iff : run (p :: ps) s = some (.ok s') ↔
    ∃ t, p s = some (.ok t) ∧ run ps t = some (.ok s') := by
  constructor
  · intro h
    cases hp : p s with
    | none =>
        rw [run, hp] at h
        cases h
    | some r =>
        cases r with
        | error e =>
            rw [run_cons_of_error hp] at h
            cases h
        | ok t =>
            rw [run_cons_of_ok hp] at h
            exact ⟨t, rfl, h⟩
  · rintro ⟨t, hp, h⟩
    rw [run_cons_of_ok hp, h]

theorem test_ok_iff {c : σ → Bool} {e : ε} : test c e s = some (.ok s') ↔ c s = true ∧ s' = s := by
  unfold test
  by_cases hc : c s = true
  · rw [if_pos hc]
    simp [hc, eq_comm]
  · rw [if_neg hc]
    simp [hc]

end run

/-! ### What stages do -/

/-- A stage that is entered in `P` leaves `Q`, or gives up in `E`. -/
structure Spec (P : σ → Prop) (p : Stage ε σ) (Q : σ → Prop) (E : ε × σ → Prop) : Prop where
  ok : ∀ s t, P s → p s = some (.ok t) → Q t
  error : ∀ s e, P s → p s = some (.error e) → E e

section spec

variable {P Q R : σ → Prop} {E : ε × σ → Prop} {p : Stage ε σ} {ps : List (Stage ε σ)}

theorem Spec.work {f : σ → σ} (h : ∀ s, P s → Q (f s)) : Spec P (work f) Q E where
  ok s t hs ht := by
    obtain rfl := Except.ok.inj (Option.some.inj ht)
    exact h s hs
  error s e hs he := by cases Option.some.inj he

theorem Spec.test {c : σ → Bool} {e : ε} (h : ∀ s, P s → E (e, s)) : Spec P (test c e) P E where
  ok s t hs ht := by
    obtain ⟨-, rfl⟩ := test_ok_iff.mp ht
    exact hs
  error s e hs he := by
    unfold Stage.test at he
    split_ifs at he
    · cases he
    · obtain rfl := Except.error.inj (Option.some.inj he)
      exact h s hs

theorem Spec.nil : Spec P (run []) P E where
  ok s t hs ht := by
    obtain rfl := Except.ok.inj (Option.some.inj ht)
    exact hs
  error s e hs he := by cases Option.some.inj he

theorem Spec.mono {P' Q' : σ → Prop} {E' : ε × σ → Prop} (h : Spec P p Q E) (hP : ∀ s, P' s → P s)
    (hQ : ∀ s, Q s → Q' s) (hE : ∀ e, E e → E' e) : Spec P' p Q' E' where
  ok s t hs ht := hQ t (h.ok s t (hP s hs) ht)
  error s e hs he := hE e (h.error s e (hP s hs) he)

/-- **One stage, and the rest.** -/
theorem Spec.cons (hp : Spec P p Q E) (hps : Spec Q (run ps) R E) : Spec P (run (p :: ps)) R E where
  ok s t hs ht := by
    obtain ⟨u, hu, hrest⟩ := run_cons_ok_iff.mp ht
    exact hps.ok u t (hp.ok s u hs hu) hrest
  error s e hs he := by
    cases hr : p s with
    | none =>
        rw [run, hr] at he
        cases he
    | some r =>
        cases r with
        | error e' =>
            rw [run_cons_of_error hr] at he
            obtain rfl := Except.error.inj (Option.some.inj he)
            exact hp.error s e' hs hr
        | ok u =>
            rw [run_cons_of_ok hr] at he
            exact hps.error u e (hp.ok s u hs hr) he

end spec

/-! ### How a run ends -/

/-- The error that a run ends with. -/
def errorOf : Except (ε × σ) σ → Option ε
  | .ok _ => none
  | .error e => some e.1

/-- A stage that is entered in `P` returns, and gives up with `o` or not at all. -/
def Decides (P : σ → Prop) (p : Stage ε σ) (o : Option ε) : Prop :=
  ∀ s, P s → ∃ r, p s = some r ∧ errorOf r = o

/-- The error of the first requirement that is not met. -/
def firstUnmet : List (Bool × ε) → Option ε
  | [] => none
  | (met, e) :: l => if met = true then firstUnmet l else some e

theorem firstUnmet_eq_none {l : List (Bool × ε)} (h : ∀ q ∈ l, q.1 = true) :
    firstUnmet l = none := by
  induction l with
  | nil => rfl
  | cons q l ih =>
      obtain ⟨hq, hl⟩ := List.forall_mem_cons.mp h
      rw [firstUnmet, if_pos hq, ih hl]

section decides

variable {P Q : σ → Prop} {E : ε × σ → Prop} {p : Stage ε σ} {ps : List (Stage ε σ)}
  {o : Option ε} {l : List (Bool × ε)}

theorem Decides.work {f : σ → σ} : Decides P (Stage.work f : Stage ε σ) none :=
  fun _ _ => ⟨_, rfl, rfl⟩

theorem Decides.test (b : Bool) (e : ε) :
    Decides P (test (fun _ => b) e) (if b = true then none else some e) := by
  intro s _
  unfold Stage.test
  split_ifs
  · exact ⟨_, rfl, rfl⟩
  · exact ⟨_, rfl, rfl⟩

theorem Decides.nil : Decides P (run ([] : List (Stage ε σ))) (firstUnmet []) :=
  fun _ _ => ⟨_, rfl, rfl⟩

theorem Decides.skip (hp : Decides P p none) (hspec : Spec P p Q E) (hps : Decides Q (run ps) o) :
    Decides P (run (p :: ps)) o := by
  intro s hs
  obtain ⟨r, hr, hnone⟩ := hp s hs
  cases r with
  | error e => cases hnone
  | ok t =>
      rw [run_cons_of_ok hr]
      exact hps t (hspec.ok s t hs hr)

/-- **A stage with a requirement.** -/
theorem Decides.cons {b : Bool} {e : ε} (hspec : Spec P p Q E)
    (hp : Decides P p (if b = true then none else some e))
    (hps : Decides Q (run ps) (firstUnmet l)) :
    Decides P (run (p :: ps)) (firstUnmet ((b, e) :: l)) := by
  cases b with
  | true => exact hp.skip hspec hps
  | false =>
      intro s hs
      obtain ⟨r, hr, hsome⟩ := hp s hs
      cases r with
      | ok t => cases hsome
      | error e' => exact ⟨_, run_cons_of_error hr, hsome⟩

end decides

/-! ### Contracts -/

/-- What a stage does, and when it gives up. -/
structure Contract (P : σ → Prop) (p : Stage ε σ) (Q : σ → Prop) (E : ε × σ → Prop)
    (o : Option ε) : Prop where
  spec : Spec P p Q E
  decides : Decides P p o

section contract

variable {P Q R : σ → Prop} {E : ε × σ → Prop} {p : Stage ε σ} {ps : List (Stage ε σ)}
  {o : Option ε} {l : List (Bool × ε)}

theorem Contract.nil : Contract P (run ([] : List (Stage ε σ))) P E (firstUnmet []) :=
  ⟨.nil, .nil⟩

theorem Contract.skip (hp : Contract P p Q E none) (hps : Contract Q (run ps) R E o) :
    Contract P (run (p :: ps)) R E o :=
  ⟨hp.spec.cons hps.spec, hp.decides.skip hp.spec hps.decides⟩

theorem Contract.cons {b : Bool} {e : ε}
    (hp : Contract P p Q E (if b = true then none else some e))
    (hps : Contract Q (run ps) R E (firstUnmet l)) :
    Contract P (run (p :: ps)) R E (firstUnmet ((b, e) :: l)) :=
  ⟨hp.spec.cons hps.spec, .cons hp.spec hp.decides hps.decides⟩

/-- When every requirement is met the run comes to its end. -/
theorem Contract.reaches (h : Contract P p Q E none) {s : σ} (hs : P s) :
    ∃ t, p s = some (.ok t) ∧ Q t := by
  obtain ⟨r, hr, hnone⟩ := h.decides s hs
  cases r with
  | error e => cases hnone
  | ok t => exact ⟨t, hr, h.spec.ok s t hs hr⟩

theorem Contract.fails {e : ε} (h : Contract P p Q E (some e)) {s : σ} (hs : P s) :
    ∃ t, p s = some (.error (e, t)) ∧ E (e, t) := by
  obtain ⟨r, hr, hsome⟩ := h.decides s hs
  cases r with
  | ok t => cases hsome
  | error e' =>
      obtain rfl : e'.1 = e := Option.some.inj hsome
      exact ⟨e'.2, hr, h.spec.error s e' hs hr⟩

end contract

end Stage

end BareMetal
