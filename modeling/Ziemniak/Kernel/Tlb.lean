import Ziemniak.BareMetal.Tlb
import Ziemniak.Kernel.Peek

/-! # The window and the translation cache

A call of `mm_peek` stores each entry and invalidates the block it maps (`mmPeekOps`).
`PeekHistory` are the histories of calls, whose operations run with loads among them: after each
of them the cached translations of the window are those of the table, and the table holds in
each entry what the last call that reached it has stored. -/

namespace Ziemniak.Kernel

open BareMetal BareMetal.Cached

/-! ### The operations of a call -/

/-- The block of the window that holds a virtual address. -/
def windowBlock (v : BitVec 64) : ℕ := (v - PEEK_ADDR).toNat / 2 ^ 21

/-- One round: the store, and `invlpg` of the block's first byte. -/
def peekBlockOps (addr i : BitVec 64) : List (TlbOp (BitVec 64)) :=
  [.store i.toNat (peekEntry addr i), .invalidate (windowBlock (PEEK_ADDR + i * BLOCK_SIZE))]

/-- The operations of a call: a failing one has none. -/
def mmPeekOps (s : Peek) (phys size : BitVec 64) : List (TlbOp (BitVec 64)) :=
  if (mmPeek s phys size).1 = 0 then
    (List.range (blockCnt phys size).toNat).flatMap
      (fun i => peekBlockOps phys (BitVec.ofNat 64 i))
  else []

theorem windowBlock_block {i : ℕ} (hi : i < 512) :
    windowBlock (PEEK_ADDR + BitVec.ofNat 64 i * BLOCK_SIZE) = i := by
  have hsub : PEEK_ADDR + BitVec.ofNat 64 i * BLOCK_SIZE - PEEK_ADDR =
      BitVec.ofNat 64 i * BLOCK_SIZE := by
    rw [BitVec.add_comm, BitVec.add_sub_cancel]
  have hmul : (BitVec.ofNat 64 i * BLOCK_SIZE).toNat = i % 2 ^ 64 * 2097152 % 2 ^ 64 := by
    rw [BitVec.toNat_mul, BitVec.toNat_ofNat]
    rfl
  unfold windowBlock
  rw [hsub, hmul]
  omega

/-- The operations store what the loop stores. -/
theorem stores_peekBlockOps (addr : BitVec 64) (t : PeekTable) (l : List (BitVec 64)) (n : ℕ) :
    stores ((List.range n).flatMap (fun i => peekBlockOps addr (BitVec.ofNat 64 i))) t =
      (rounds (peekBlock addr) (List.range n) (t, l)).1 := by
  induction n with
  | zero => rfl
  | succ n ih =>
      rw [rounds_succ, List.range_succ, List.flatMap_append, stores_append, ih]
      rfl

theorem mmPeek_cnt_le {s : Peek} {phys size : BitVec 64} (h : (mmPeek s phys size).1 = 0) :
    (blockCnt phys size).toNat ≤ 512 := by
  have hzero : mmPeek s phys size = (0, (mmPeek s phys size).2) := Prod.ext h rfl
  obtain ⟨_, _, _, hcnt, _⟩ := mmPeek_zero hzero
  exact hcnt

theorem mmPeekOps_pending (s : Peek) (phys size : BitVec 64) :
    pending (mmPeekOps s phys size) ∅ = ∅ := by
  unfold mmPeekOps
  by_cases h : (mmPeek s phys size).1 = 0
  · have hcnt := mmPeek_cnt_le h
    rw [if_pos h]
    apply pending_flatMap
    intro i hi
    have hi512 : i < 512 := Nat.lt_of_lt_of_le (List.mem_range.mp hi) hcnt
    have hnat : (BitVec.ofNat 64 i).toNat = i := Nat.mod_eq_of_lt (by omega)
    rw [peekBlockOps, windowBlock_block hi512, hnat]
    exact pending_store_invalidate i _
  · rw [if_neg h]
    rfl

/-! ### Histories -/

structure PeekCall where
  virt : Option (BitVec 64)
  phys : BitVec 64
  size : BitVec 64

/-- A call with the pointer `virt` that the caller passes. -/
def PeekCall.run (c : PeekCall) (s : Peek) : ℕ × Peek :=
  mmPeek { s with virt := c.virt } c.phys c.size

def PeekCall.ops (c : PeekCall) (s : Peek) : List (TlbOp (BitVec 64)) :=
  mmPeekOps { s with virt := c.virt } c.phys c.size

/-- A call that has returned, with its result and what is then behind `virt`. -/
structure PeekReturn extends PeekCall where
  ret : ℕ
  out : Option (BitVec 64)

def PeekCall.returned (c : PeekCall) (s : Peek) : PeekReturn :=
  { c with ret := (c.run s).1, out := (c.run s).2.virt }

/-- The histories from `s₀` with nothing cached, the latest call first. -/
inductive PeekHistory (s₀ : Peek) : List PeekReturn → Peek → (ℕ → Option (BitVec 64)) → Prop
  | start : PeekHistory s₀ [] s₀ (fun _ => none)
  | load {calls : List PeekReturn} {s : Peek} {tlb : ℕ → Option (BitVec 64)} {t : PeekTable}
      {c : Cached (BitVec 64)} : PeekHistory s₀ calls s tlb → s.peek_pde = some t →
      Loads ⟨t, tlb⟩ c → PeekHistory s₀ calls s c.tlb
  | call {calls : List PeekReturn} {s : Peek} {tlb : ℕ → Option (BitVec 64)} {t : PeekTable}
      {c : Cached (BitVec 64)} (p : PeekCall) : PeekHistory s₀ calls s tlb →
      s.peek_pde = some t → Runs (p.ops s) ⟨t, tlb⟩ c →
      PeekHistory s₀ (p.returned s :: calls) (p.run s).2 c.tlb
  | callUninit {calls : List PeekReturn} {s : Peek} {tlb : ℕ → Option (BitVec 64)}
      (p : PeekCall) : PeekHistory s₀ calls s tlb → s.peek_pde = none →
      PeekHistory s₀ (p.returned s :: calls) (p.run s).2 tlb

/-- The call was successful and mapped block `i`. -/
def PeekReturn.Mapped (r : PeekReturn) (i : ℕ) : Prop :=
  r.ret = 0 ∧ i < blocksTouched r.phys r.size

instance (r : PeekReturn) (i : ℕ) : Decidable (r.Mapped i) :=
  inferInstanceAs (Decidable (_ ∧ _))

/-- The entry of the last call that mapped block `i`, or the initial one. -/
def lastEntry (t₀ : PeekTable) (calls : List PeekReturn) (i : ℕ) : BitVec 64 :=
  match calls.find? (fun r => r.Mapped i) with
  | some r => peekEntry r.phys (BitVec.ofNat 64 i)
  | none => t₀ i

/-- A call does to the table what `lastEntry` says, and the operations do the same. -/
theorem PeekCall.run_table (p : PeekCall) {s : Peek} {t : PeekTable} (ht : s.peek_pde = some t) :
    (p.run s).2.peek_pde = some (stores (p.ops s) t) ∧
      ∀ i, stores (p.ops s) t i = if (p.returned s).Mapped i then
        peekEntry p.phys (BitVec.ofNat 64 i) else t i := by
  have hres := mmPeek_result { s with virt := p.virt } p.phys p.size
  unfold PeekCall.ops mmPeekOps
  by_cases h : (mmPeek { s with virt := p.virt } p.phys p.size).1 = 0
  · rw [if_pos h]
    have hcnt := mmPeek_cnt_le h
    obtain ⟨t', htab, hsize, -, hpde, -⟩ := mmPeek_zero (Prod.ext h rfl)
    obtain rfl : t = t' := Option.some.inj (ht.symm.trans htab)
    rw [stores_peekBlockOps p.phys t s.flushed]
    refine ⟨hpde, ?_⟩
    intro i
    rw [rounds_peekBlock p.phys t s.flushed (by omega), blockCnt_toNat p.phys hsize]
    refine if_congr ?_ rfl rfl
    exact ⟨fun hi => ⟨h, hi⟩, fun hi => hi.2⟩
  · rw [if_neg h]
    refine ⟨?_, ?_⟩
    · have hs := hres.2.1 h
      unfold PeekCall.run
      rw [hs]
      exact ht
    · intro i
      rw [if_neg (fun hm => h hm.1)]
      rfl

theorem lastEntry_cons (t₀ : PeekTable) (r : PeekReturn) (calls : List PeekReturn) (i : ℕ) :
    lastEntry t₀ (r :: calls) i = if r.Mapped i then
      peekEntry r.phys (BitVec.ofNat 64 i) else lastEntry t₀ calls i := by
  unfold lastEntry
  by_cases h : r.Mapped i
  · rw [List.find?_cons_of_pos (by exact decide_eq_true h), if_pos h]
  · rw [List.find?_cons_of_neg (by simpa using h), if_neg h]

/-- Calls that fail after it do not hide the entries of a successful one. -/
theorem lastEntry_of_latest (t₀ : PeekTable) {later : List PeekReturn} {r : PeekReturn} {i : ℕ}
    (hlater : ∀ r' ∈ later, r'.ret ≠ 0) (hr : r.Mapped i) (earlier : List PeekReturn) :
    lastEntry t₀ (later ++ r :: earlier) i = peekEntry r.phys (BitVec.ofNat 64 i) := by
  induction later with
  | nil =>
      rw [List.nil_append, lastEntry_cons, if_pos hr]
  | cons r' later ih =>
      have hr' : ¬ r'.Mapped i := fun hm => hlater r' List.mem_cons_self hm.1
      rw [List.cons_append, lastEntry_cons, if_neg hr']
      exact ih (fun x hx => hlater x (List.mem_cons_of_mem r' hx))

/-- **The table** after any history. -/
theorem PeekHistory.table {s₀ s : Peek} {calls : List PeekReturn}
    {tlb : ℕ → Option (BitVec 64)} (h : PeekHistory s₀ calls s tlb) :
    s.peek_pde = s₀.peek_pde.map (fun t₀ => lastEntry t₀ calls) := by
  induction h with
  | start =>
      cases s₀.peek_pde with
      | none => rfl
      | some t => rfl
  | load _ _ _ ih => exact ih
  | @call calls s tlb t c p _ ht _ ih =>
      obtain ⟨hpde, hst⟩ := p.run_table ht
      rw [ht] at ih
      obtain ⟨t₀, ht₀, hlast⟩ := Option.map_eq_some_iff.mp ih.symm
      rw [hpde, ht₀, Option.map_some]
      refine congrArg some (funext fun i => ?_)
      rw [hst i, lastEntry_cons, ← hlast]
      rfl
  | @callUninit calls s tlb p _ hnone ih =>
      rw [hnone] at ih
      have hno : s₀.peek_pde = none := Option.map_eq_none_iff.mp ih.symm
      rw [hno, Option.map_none]
      unfold PeekCall.run mmPeek
      simp only [hnone]

/-- **The cache** is coherent after any history. -/
theorem PeekHistory.coherent {s₀ s : Peek} {calls : List PeekReturn}
    {tlb : ℕ → Option (BitVec 64)} (h : PeekHistory s₀ calls s tlb) {t : PeekTable}
    (ht : s.peek_pde = some t) : Coherent ⟨t, tlb⟩ := by
  induction h generalizing t with
  | start => exact coherent_empty t
  | @load calls s tlb t' c _ ht' hl ih =>
      obtain rfl : t = t' := Option.some.inj (ht.symm.trans ht')
      have hc := hl.coherentOff (ih ht')
      cases hl with
      | fill i hi => exact hc
      | evict i => exact hc
  | @call calls s tlb t' c p _ ht' hr ih =>
      obtain ⟨hpde, -⟩ := p.run_table ht'
      obtain rfl : t = stores (p.ops s) t' := Option.some.inj (ht.symm.trans hpde)
      have hc := hr.coherentOff (ih ht')
      unfold PeekCall.ops at hc
      rw [mmPeekOps_pending] at hc
      have htab := hr.table
      obtain ⟨ct, ctlb⟩ := c
      obtain rfl : ct = stores (p.ops s) t' := htab
      exact hc
  | @callUninit calls s tlb p _ hnone _ =>
      have hpde : (p.run s).2.peek_pde = none := by
        unfold PeekCall.run mmPeek
        simp only [hnone]
      rw [hpde] at ht
      cases ht

/-! ### What the accesses use -/

theorem PeekHistory.exists_returned {s₀ s : Peek} {calls : List PeekReturn}
    {tlb : ℕ → Option (BitVec 64)} (h : PeekHistory s₀ calls s tlb) {r : PeekReturn}
    (hr : r ∈ calls) : ∃ (p : PeekCall) (s' : Peek), r = p.returned s' := by
  induction h with
  | start => cases hr
  | load _ _ _ ih => exact ih hr
  | @call calls s tlb t c p _ _ _ ih =>
      cases List.mem_cons.mp hr with
      | inl h => exact ⟨p, s, h⟩
      | inr h => exact ih h
  | @callUninit calls s tlb p _ _ ih =>
      cases List.mem_cons.mp hr with
      | inl h => exact ⟨p, s, h⟩
      | inr h => exact ih h

theorem PeekCall.returned_window (p : PeekCall) (s : Peek) (h : (p.returned s).ret = 0) :
    (p.returned s).out = some (PEEK_ADDR + p.phys % BLOCK_SIZE) ∧ ∀ k < p.size.toNat,
      (p.returned s).Mapped
        (windowBlock (PEEK_ADDR + p.phys % BLOCK_SIZE + BitVec.ofNat 64 k)) := by
  have hzero : mmPeek { s with virt := p.virt } p.phys p.size = (0, (p.run s).2) :=
    Prod.ext h rfl
  obtain ⟨_, -, hsize, -, -, hvirt⟩ := mmPeek_zero hzero
  refine ⟨hvirt, ?_⟩
  intro k hk
  refine ⟨h, ?_⟩
  have hblock : windowBlock (PEEK_ADDR + p.phys % BLOCK_SIZE + BitVec.ofNat 64 k) =
      (p.phys.toNat % 2 ^ 21 + k) / 2 ^ 21 := by
    unfold windowBlock
    rw [window_sub_toNat p.phys (by omega)]
  have hdata : (p.returned s).phys = p.phys ∧ (p.returned s).size = p.size := ⟨rfl, rfl⟩
  rw [hblock, hdata.1, hdata.2, blocksTouched]
  omega

/-- **The window and the cache** after any history: every cached translation is the one in the
table, the table holds the entries last stored, and an access behind the pointer of the latest
successful call uses the entry which that call has stored. -/
theorem peekHistory_coherent {s₀ s : Peek} {calls : List PeekReturn}
    {tlb : ℕ → Option (BitVec 64)} (h : PeekHistory s₀ calls s tlb) :
    s.peek_pde = s₀.peek_pde.map (fun t₀ => lastEntry t₀ calls) ∧
      ∀ t, s.peek_pde = some t → (∀ i e, tlb i = some e → e = t i) ∧
        ∀ later r earlier, calls = later ++ r :: earlier → r.ret = 0 →
          (∀ r' ∈ later, r'.ret ≠ 0) → ∃ virt, r.out = some virt ∧ ∀ k < r.size.toNat,
            (Cached.mk t tlb).lookup (windowBlock (virt + BitVec.ofNat 64 k)) =
              peekEntry r.phys
                (BitVec.ofNat 64 (windowBlock (virt + BitVec.ofNat 64 k))) := by
  refine ⟨h.table, fun t ht => ?_⟩
  have hcoh := h.coherent ht
  refine ⟨fun i => hcoh i (Set.notMem_empty i), ?_⟩
  intro later r earlier hcalls hret hlater
  obtain ⟨p, s', rfl⟩ := h.exists_returned (r := r) (by rw [hcalls]; simp)
  obtain ⟨hout, hmapped⟩ := p.returned_window s' hret
  refine ⟨_, hout, ?_⟩
  intro k hk
  have htable := h.table
  rw [ht] at htable
  obtain ⟨t₀, -, rfl⟩ := Option.map_eq_some_iff.mp htable.symm
  rw [hcalls] at hcoh ⊢
  exact (hcoh.lookup _).trans (lastEntry_of_latest t₀ hlater (hmapped k hk) earlier)

/-- Three megabytes at 16 MiB. -/
def framePeek : PeekCall := { virt := some 0, phys := 0x1000000, size := 0x300000 }

/-- Block 0 was cached before the call; the access afterwards uses the new entry. -/
theorem peekHistory_coherent_cached : ∃ s tlb t,
    PeekHistory freshPeek [framePeek.returned freshPeek] s tlb ∧ s.peek_pde = some t ∧
      (Cached.mk t tlb).lookup (windowBlock PEEK_ADDR) = peekEntry 0x1000000 0 := by
  have hload := PeekHistory.load (.start : PeekHistory freshPeek [] freshPeek _) rfl
    (Loads.fill ⟨fun _ => 0, fun _ => none⟩ 0 rfl)
  have hcall := PeekHistory.call framePeek hload rfl (Runs.straight (framePeek.ops freshPeek) _)
  obtain ⟨htable, hall⟩ := peekHistory_coherent hcall
  refine ⟨_, _, _, hcall, htable, ?_⟩
  obtain ⟨-, hacc⟩ := hall _ htable
  obtain ⟨virt, hvirt, hk⟩ := hacc [] _ [] rfl rfl (fun _ h => by cases h)
  have hret : (framePeek.returned freshPeek).out = some PEEK_ADDR := rfl
  obtain rfl := Option.some.inj (hret.symm.trans hvirt)
  exact hk 0 (by decide)

end Ziemniak.Kernel
