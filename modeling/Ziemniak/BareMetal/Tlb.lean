import Mathlib.Order.BooleanAlgebra.Set

/-! # A table and the translations cached from it

A processor may keep the entries of a table in a translation cache (TLB).  A program stores into
the table and invalidates single indices; between any two of these operations the processor may
cache the current entry of an index that it has not cached, or drop a cached one (`Loads`).
`Runs ops c c'` is every execution of the operations `ops` with loads anywhere among them.

A store leaves the cached translation of its index behind the table until that index is
invalidated: `pending ops S` are the indices for which this may be so after `ops`.  Every run
keeps the others current (`Runs.coherentOff`). -/

namespace BareMetal

variable {α : Type}

/-- A table and, for each index, the entry that is cached for it. -/
structure Cached (α : Type) where
  table : ℕ → α
  tlb : ℕ → Option α

/-- The operations of a program. -/
inductive TlbOp (α : Type)
  | store (i : ℕ) (e : α)
  | invalidate (i : ℕ)

namespace Cached

def exec (c : Cached α) : TlbOp α → Cached α
  | .store i e => { c with table := Function.update c.table i e }
  | .invalidate i => { c with tlb := Function.update c.tlb i none }

/-- The entry that serves an access to index `i`. -/
def lookup (c : Cached α) (i : ℕ) : α := (c.tlb i).getD (c.table i)

/-- What the processor may do by itself. -/
inductive Loads : Cached α → Cached α → Prop
  | fill (c : Cached α) (i : ℕ) (h : c.tlb i = none) :
      Loads c { c with tlb := Function.update c.tlb i (some (c.table i)) }
  | evict (c : Cached α) (i : ℕ) : Loads c { c with tlb := Function.update c.tlb i none }

/-- The executions of a list of operations. -/
inductive Runs : List (TlbOp α) → Cached α → Cached α → Prop
  | done (c : Cached α) : Runs [] c c
  | load {ops : List (TlbOp α)} {c c' c'' : Cached α} :
      Loads c c' → Runs ops c' c'' → Runs ops c c''
  | op {o : TlbOp α} {ops : List (TlbOp α)} {c c' : Cached α} :
      Runs ops (c.exec o) c' → Runs (o :: ops) c c'

theorem Runs.straight (ops : List (TlbOp α)) (c : Cached α) : Runs ops c (ops.foldl exec c) := by
  induction ops generalizing c with
  | nil => exact .done c
  | cons o ops ih => exact .op (ih (c.exec o))

/-- Outside `S` every cached entry is the one in the table. -/
def CoherentOff (S : Set ℕ) (c : Cached α) : Prop :=
  ∀ i ∉ S, ∀ e, c.tlb i = some e → e = c.table i

/-- Every cached entry is the one in the table. -/
def Coherent (c : Cached α) : Prop := CoherentOff ∅ c

theorem Coherent.lookup {c : Cached α} (h : Coherent c) (i : ℕ) : c.lookup i = c.table i := by
  unfold Cached.lookup
  cases he : c.tlb i with
  | none => rfl
  | some e => exact h i (Set.notMem_empty i) e he

theorem coherent_empty (table : ℕ → α) : Coherent ⟨table, fun _ => none⟩ := by
  intro i _ e h
  cases h

/-! ### Invalidation -/

/-- The indices that have been stored into and not been invalidated since. -/
def pending : List (TlbOp α) → Set ℕ → Set ℕ
  | [], S => S
  | .store i _ :: ops, S => pending ops (insert i S)
  | .invalidate i :: ops, S => pending ops (S \ {i})

theorem pending_append (l l' : List (TlbOp α)) (S : Set ℕ) :
    pending (l ++ l') S = pending l' (pending l S) := by
  induction l generalizing S with
  | nil => rfl
  | cons o l ih =>
      cases o with
      | store i e => exact ih (insert i S)
      | invalidate i => exact ih (S \ {i})

theorem pending_flatMap {β : Type} {f : β → List (TlbOp α)} (l : List β)
    (h : ∀ b ∈ l, pending (f b) ∅ = ∅) : pending (l.flatMap f) ∅ = ∅ := by
  induction l with
  | nil => rfl
  | cons b l ih =>
      rw [List.flatMap_cons, pending_append, h b List.mem_cons_self]
      exact ih (fun b' hb' => h b' (List.mem_cons_of_mem b hb'))

theorem pending_store_invalidate (i : ℕ) (e : α) :
    pending [.store i e, .invalidate i] ∅ = ∅ := by
  unfold pending pending pending
  simp only [insert_empty_eq, Set.sdiff_self]

theorem CoherentOff.drop {S : Set ℕ} {c : Cached α} (h : CoherentOff S c) (i : ℕ) :
    CoherentOff (S \ {i}) { c with tlb := Function.update c.tlb i none } := by
  intro j hj e he
  simp only at he
  by_cases hji : j = i
  · rw [hji, Function.update_self] at he
    cases he
  · rw [Function.update_of_ne hji] at he
    exact h j (fun hS => hj ⟨hS, hji⟩) e he

theorem Loads.coherentOff {S : Set ℕ} {c c' : Cached α} (h : Loads c c')
    (hc : CoherentOff S c) : CoherentOff S c' := by
  cases h with
  | fill i _ =>
      intro j hj e he
      simp only at he
      by_cases hji : j = i
      · rw [hji, Function.update_self] at he
        rw [hji]
        exact (Option.some.inj he).symm
      · rw [Function.update_of_ne hji] at he
        exact hc j hj e he
  | evict i => exact fun j hj => hc.drop i j (fun hS => hj hS.1)

theorem CoherentOff.exec {S : Set ℕ} {c : Cached α} (hc : CoherentOff S c) (o : TlbOp α) :
    CoherentOff (pending [o] S) (c.exec o) := by
  cases o with
  | store i e =>
      intro j hj e' he
      have hne : j ≠ i := fun h => hj (Or.inl h)
      have htable : (c.exec (.store i e)).table j = c.table j := by
        simp only [Cached.exec]
        exact Function.update_of_ne hne e c.table
      rw [htable]
      exact hc j (fun hS => hj (Or.inr hS)) e' he
  | invalidate i => exact hc.drop i

/-- **A run** leaves only pending indices behind the table. -/
theorem Runs.coherentOff {ops : List (TlbOp α)} {c c' : Cached α} (h : Runs ops c c')
    {S : Set ℕ} (hc : CoherentOff S c) : CoherentOff (pending ops S) c' := by
  induction h generalizing S with
  | done c => exact hc
  | load hl _ ih => exact ih (hl.coherentOff hc)
  | @op o ops c c' _ ih =>
      have hstep := ih (hc.exec o)
      rw [← pending_append] at hstep
      exact hstep

/-! ### The table -/

/-- The table after the stores among `ops`. -/
def stores : List (TlbOp α) → (ℕ → α) → ℕ → α
  | [], t => t
  | .store i e :: ops, t => stores ops (Function.update t i e)
  | .invalidate _ :: ops, t => stores ops t

theorem stores_append (l l' : List (TlbOp α)) (t : ℕ → α) :
    stores (l ++ l') t = stores l' (stores l t) := by
  induction l generalizing t with
  | nil => rfl
  | cons o l ih =>
      cases o with
      | store i e => exact ih (Function.update t i e)
      | invalidate i => exact ih t

theorem Runs.table {ops : List (TlbOp α)} {c c' : Cached α} (h : Runs ops c c') :
    c'.table = stores ops c.table := by
  induction h with
  | done c => rfl
  | load hl _ ih =>
      cases hl with
      | fill i hi => exact ih
      | evict i => exact ih
  | @op o ops c c' _ ih =>
      cases o with
      | store i e => exact ih
      | invalidate i => exact ih

end Cached

end BareMetal
