import Ziemniak.BareMetal.Loop
import Ziemniak.BareMetal.Paging
import Ziemniak.Kernel.Defs

/-! # Peeking

`mm_peek` maps a physical range into the window at `PEEK_ADDR` with pages of 2 MiB: the loop
fills the first entries of the table (`rounds_peekBlock`), and `walkPeek` is the processor's walk
from such an entry. -/

namespace Ziemniak.Kernel

open BareMetal BareMetal.Paging

/-! ### The call -/

def PEEK_ADDR : BitVec 64 := 0xFFFF800000000000
def M1GB : BitVec 64 := 0x40000000
def ENTRY_CNT : BitVec 64 := 512

/-- What `mm_peek` works on: the table, `NULL` before `mm_init`; the pointer behind `virt`, which
may be `NULL` itself; and the addresses it has invalidated, the last one at the end. -/
structure Peek where
  peek_pde : Option PeekTable
  virt : Option (BitVec 64)
  flushed : List (BitVec 64)

/-- The entry for block `i` from `addr`. -/
def peekEntry (addr i : BitVec 64) : BitVec 64 :=
  (genPdpePde (pageDown (addr + i * BLOCK_SIZE)) false 0x83).word

/-- The body of the loop. -/
def peekBlock (addr i : BitVec 64) (s : PeekTable × List (BitVec 64)) :
    PeekTable × List (BitVec 64) :=
  (Function.update s.1 i.toNat (peekEntry addr i), s.2 ++ [PEEK_ADDR + i * BLOCK_SIZE])

def blockCnt (addr size : BitVec 64) : BitVec 64 :=
  (blockUp (addr + size) - blockDown addr) / BLOCK_SIZE

def mmPeek (s : Peek) (phys size : BitVec 64) : ℕ × Peek :=
  match s.peek_pde, s.virt with
  | none, _ => (EPERM, s)
  | some _, none => (EINVAL, s)
  | some table, some _ =>
      if M1GB < size then (ENOTSUP, s)
      else
        let cnt := blockCnt phys size
        if ENTRY_CNT < cnt then (ENOTSUP, s)
        else
          let t := rounds (peekBlock phys) (List.range cnt.toNat) (table, s.flushed)
          (0, { peek_pde := some t.1
                virt := some (PEEK_ADDR + phys % BLOCK_SIZE)
                flushed := t.2 })

/-- **The loop** fills the first `n` entries and leaves the others. -/
theorem rounds_peekBlock (addr : BitVec 64) (t : PeekTable) (l : List (BitVec 64)) {n : ℕ}
    (hn : n ≤ 2 ^ 64) (j : ℕ) :
    (rounds (peekBlock addr) (List.range n) (t, l)).1 j =
      if j < n then peekEntry addr (BitVec.ofNat 64 j) else t j := by
  rw [rounds_map (g := fun i (t : PeekTable) => Function.update t i.toNat (peekEntry addr i))
    Prod.fst (fun _ _ => rfl)]
  exact rounds_update_index hn t j

/-- What a call that returns 0 has done. -/
theorem mmPeek_zero {s s' : Peek} {phys size : BitVec 64} (h : mmPeek s phys size = (0, s')) :
    ∃ table, s.peek_pde = some table ∧ size.toNat ≤ 0x40000000 ∧
      (blockCnt phys size).toNat ≤ 512 ∧
      s'.peek_pde = some (rounds (peekBlock phys) (List.range (blockCnt phys size).toNat)
        (table, s.flushed)).1 ∧
      s'.virt = some (PEEK_ADDR + phys % BLOCK_SIZE) := by
  unfold mmPeek at h
  cases htable : s.peek_pde with
  | none =>
      rw [htable] at h
      cases h
  | some table =>
      cases hvirt : s.virt with
      | none =>
          rw [htable, hvirt] at h
          cases h
      | some v =>
          rw [htable, hvirt] at h
          simp only at h
          split_ifs at h with hsize hcnt
          · cases h
          · cases h
          · obtain rfl := (Prod.mk.inj h).2
            exact ⟨table, rfl, BitVec.not_lt.mp hsize, BitVec.not_lt.mp hcnt, rfl, rfl⟩

/-- The number of blocks that a range touches: `⌈(phys mod 2 MiB + size) / 2 MiB⌉`. -/
def blocksTouched (phys size : BitVec 64) : ℕ :=
  (phys.toNat % 2 ^ 21 + size.toNat + (2 ^ 21 - 1)) / 2 ^ 21

/-- The count that the code takes from two rounded addresses, either of which may wrap. -/
theorem blockCnt_toNat (phys : BitVec 64) {size : BitVec 64} (hsize : size.toNat ≤ 0x40000000) :
    (blockCnt phys size).toNat = blocksTouched phys size := by
  have hp := phys.isLt
  have hsum : (phys + size).toNat = (phys.toNat + size.toNat) % 2 ^ 64 := BitVec.toNat_add ..
  have hsub : (blockUp (phys + size) - blockDown phys).toNat =
      (2 ^ 64 - (blockDown phys).toNat + (blockUp (phys + size)).toNat) % 2 ^ 64 :=
    BitVec.toNat_sub ..
  have hdiv : (blockCnt phys size).toNat =
      (blockUp (phys + size) - blockDown phys).toNat / 2097152 := BitVec.toNat_udiv
  unfold blocksTouched
  rw [hdiv, hsub, blockUp_toNat, blockDown_toNat, hsum]
  omega

theorem peekEntry_toNat (addr i : BitVec 64) : (peekEntry addr i).toNat =
    (addr.toNat + i.toNat * 2 ^ 21) % 2 ^ 52 / 4096 * 4096 + 0x83 := by
  have hmul : (addr + i * BLOCK_SIZE).toNat =
      (addr.toNat + i.toNat * 2 ^ 21 % 2 ^ 64) % 2 ^ 64 := by
    rw [BitVec.toNat_add, BitVec.toNat_mul]
    rfl
  have hword := genEntry_word (pageDown (addr + i * BLOCK_SIZE)) false (0x83 &&& PDPE_FLAG_MASK)
  have hflags : (0x83 &&& PDPE_FLAG_MASK : BitVec 16).toNat % 512 = 0x83 := by decide
  have hentry : peekEntry addr i =
      (genEntry (pageDown (addr + i * BLOCK_SIZE)) false (0x83 &&& PDPE_FLAG_MASK)).word := rfl
  rw [hentry, hword, hflags, pageDown_toNat, roundDown, hmul, Bool.toNat_false]
  omega

/-! ### What a call returns and what it changes -/

theorem mmPeek_eq (s : Peek) (phys size : BitVec 64) : mmPeek s phys size =
    match s.peek_pde, s.virt with
    | none, _ => (EPERM, s)
    | some _, none => (EINVAL, s)
    | some table, some _ =>
        if 2 ^ 30 < size.toNat ∨ 512 < blocksTouched phys size then (ENOTSUP, s)
        else
          let t := rounds (peekBlock phys) (List.range (blocksTouched phys size))
            (table, s.flushed)
          (0, { peek_pde := some t.1
                virt := some (PEEK_ADDR + phys % BLOCK_SIZE)
                flushed := t.2 }) := by
  have hsize : M1GB < size ↔ 2 ^ 30 < size.toNat := BitVec.lt_def
  have hcnt : ENTRY_CNT < blockCnt phys size ↔ 512 < (blockCnt phys size).toNat := BitVec.lt_def
  unfold mmPeek
  simp only [hsize, hcnt]
  cases s.peek_pde with
  | none => rfl
  | some table =>
      cases s.virt with
      | none => rfl
      | some v =>
          simp only
          by_cases h : 2 ^ 30 < size.toNat
          · rw [if_pos h, if_pos (Or.inl h)]
          · have hb : (blockCnt phys size).toNat = blocksTouched phys size :=
              blockCnt_toNat phys (by omega)
            simp only [h, hb, if_false, false_or]

theorem rounds_flushed (addr : BitVec 64) (t : PeekTable) (l : List (BitVec 64)) (n : ℕ) :
    (rounds (peekBlock addr) (List.range n) (t, l)).2 =
      l ++ (List.range n).map (fun i => PEEK_ADDR + BitVec.ofNat 64 i * BLOCK_SIZE) := by
  induction n with
  | zero => simp [rounds]
  | succ n ih =>
      rw [rounds_succ, peekBlock, ih, List.range_succ, List.map_append, List.append_assoc]
      rfl

/-- **A call** fails without an effect, or fills exactly the entries of the blocks that the range
touches, all of them in the table. -/
theorem mmPeek_result (s : Peek) (phys size : BitVec 64) :
    (mmPeek s phys size).1 =
        (if s.peek_pde = none then EPERM else if s.virt = none then EINVAL
          else if 2 ^ 30 < size.toNat ∨ 512 < blocksTouched phys size then ENOTSUP else 0) ∧
      ((mmPeek s phys size).1 ≠ 0 → (mmPeek s phys size).2 = s) ∧
      ((mmPeek s phys size).1 = 0 → blocksTouched phys size ≤ 512 ∧
        ∃ table table', s.peek_pde = some table ∧ (mmPeek s phys size).2.peek_pde = some table' ∧
          (∀ j < blocksTouched phys size, table' j = peekEntry phys (BitVec.ofNat 64 j)) ∧
          (∀ j, blocksTouched phys size ≤ j → table' j = table j) ∧
          (mmPeek s phys size).2.flushed = s.flushed ++
            (List.range (blocksTouched phys size)).map
              (fun i => PEEK_ADDR + BitVec.ofNat 64 i * BLOCK_SIZE)) := by
  rw [mmPeek_eq]
  cases htable : s.peek_pde with
  | none => exact ⟨rfl, fun _ => rfl, fun h => nomatch h⟩
  | some table =>
      cases hvirt : s.virt with
      | none => exact ⟨rfl, fun _ => rfl, fun h => nomatch h⟩
      | some v =>
          have hnull : ¬ some table = none := Option.some_ne_none table
          have hnull' : ¬ some v = none := Option.some_ne_none v
          simp only
          rw [if_neg hnull, if_neg hnull']
          by_cases h : 2 ^ 30 < size.toNat ∨ 512 < blocksTouched phys size
          · rw [if_pos h, if_pos h]
            exact ⟨rfl, fun _ => rfl, fun h0 => nomatch h0⟩
          · rw [if_neg h, if_neg h]
            have hcnt : blocksTouched phys size ≤ 512 := Nat.not_lt.mp (not_or.mp h).2
            obtain ⟨n, hn⟩ : ∃ n, n = blocksTouched phys size := ⟨_, rfl⟩
            rw [← hn] at hcnt ⊢
            have hentries := rounds_peekBlock phys table s.flushed (Nat.le_trans hcnt (by norm_num))
            refine ⟨rfl, fun h0 => absurd rfl h0, fun _ => ⟨hcnt, table, _, rfl, rfl, ?_, ?_, ?_⟩⟩
            · intro j hj
              rw [hentries, if_pos hj]
            · intro j hj
              rw [hentries, if_neg (Nat.not_lt.mpr hj)]
            · exact rounds_flushed phys table s.flushed n

/-! ### The walk -/

/-- The walk of an address in the window, from the entry of its block. -/
def walkPeek (m : Mem) (table : PeekTable) (v : BitVec 64) : Option ℕ :=
  walkPde m (table ((v - PEEK_ADDR).toNat / 2 ^ 21)) v

/-- A page of 2 MiB whose entry holds the address of a small page. -/
theorem walkPde_peekEntry (m : Mem) (addr i v : BitVec 64) : walkPde m (peekEntry addr i) v =
    if addr.toNat % 2 ^ 21 < 8192 then
      some ((addr.toNat + i.toNat * 2 ^ 21) % 2 ^ 52 / 2 ^ 21 * 2 ^ 21 + v.toNat % 2 ^ 21)
    else none := by
  have he := peekEntry_toNat addr i
  have hpres : present (peekEntry addr i) = true := by
    unfold present
    rw [beq_iff_eq]
    omega
  have hbig : pageSize (peekEntry addr i) = true := by
    unfold pageSize
    rw [beq_iff_eq]
    omega
  unfold walkPde
  rw [if_pos hpres, if_pos hbig, page]
  refine if_congr ?_ (congrArg some ?_) rfl
  · omega
  · rw [he]
    omega

theorem window_toNat (phys : BitVec 64) {k : ℕ} (hk : k < 2 ^ 31) :
    (PEEK_ADDR + phys % BLOCK_SIZE + BitVec.ofNat 64 k).toNat =
      0xFFFF800000000000 + phys.toNat % 2 ^ 21 + k := by
  have hoff : (phys % BLOCK_SIZE).toNat = phys.toNat % 2 ^ 21 := BitVec.toNat_umod
  have hpeek : PEEK_ADDR.toNat = 0xFFFF800000000000 := rfl
  have hbase : (PEEK_ADDR + phys % BLOCK_SIZE).toNat =
      0xFFFF800000000000 + phys.toNat % 2 ^ 21 := by
    rw [BitVec.toNat_add, hoff, hpeek]
    omega
  rw [toNat_add_ofNat (by omega), hbase]

theorem window_sub_toNat (phys : BitVec 64) {k : ℕ} (hk : k < 2 ^ 31) :
    (PEEK_ADDR + phys % BLOCK_SIZE + BitVec.ofNat 64 k - PEEK_ADDR).toNat =
      phys.toNat % 2 ^ 21 + k := by
  have hpeek : PEEK_ADDR.toNat = 0xFFFF800000000000 := rfl
  rw [BitVec.toNat_sub, window_toNat phys hk, hpeek]
  omega

/-- **The window** after a call that returned 0. -/
theorem walkPeek_eq {s s' : Peek} {phys size : BitVec 64} (h : mmPeek s phys size = (0, s'))
    (m : Mem) {k : ℕ} (hk : k < size.toNat) : ∃ table virt, s'.peek_pde = some table ∧
      s'.virt = some virt ∧ walkPeek m table (virt + BitVec.ofNat 64 k) =
        if phys.toNat % 2 ^ 21 < 8192 then some ((phys.toNat + k) % 2 ^ 52) else none := by
  obtain ⟨table, -, hsize, hcnt, htable, hvirt⟩ := mmPeek_zero h
  refine ⟨_, _, htable, hvirt, ?_⟩
  have hblocks : (blockCnt phys size).toNat =
      (phys.toNat % 2 ^ 21 + size.toNat + (2 ^ 21 - 1)) / 2 ^ 21 := blockCnt_toNat phys hsize
  have hk31 : k < 2 ^ 31 := by omega
  have hv := window_toNat phys hk31
  have hidx := window_sub_toNat phys hk31
  have hi : (BitVec.ofNat 64 ((phys.toNat % 2 ^ 21 + k) / 2 ^ 21)).toNat =
      (phys.toNat % 2 ^ 21 + k) / 2 ^ 21 := Nat.mod_eq_of_lt (by omega)
  unfold walkPeek
  rw [hidx, rounds_peekBlock _ _ _ (by omega), if_pos (by omega), walkPde_peekEntry, hi, hv]
  refine if_congr Iff.rfl (congrArg some ?_) rfl
  omega

/-- The window shows the physical range that was asked for. -/
def PeekFaithful (s : Peek) (phys size : BitVec 64) : Prop :=
  ∃ table virt, s.peek_pde = some table ∧ s.virt = some virt ∧
    ∀ m, ∀ k < size.toNat, walkPeek m table (virt + BitVec.ofNat 64 k) = some (phys.toNat + k)

/-- **Peeking** shows the range exactly when it starts in the first 8 KiB of its block and ends
below the 52-bit limit. -/
theorem mmPeek_faithful_iff {s s' : Peek} {phys size : BitVec 64} (hsize : 1 ≤ size.toNat)
    (h : mmPeek s phys size = (0, s')) : PeekFaithful s' phys size ↔
      phys.toNat % 2 ^ 21 < 8192 ∧ phys.toNat + size.toNat ≤ 2 ^ 52 := by
  obtain ⟨table, virt, htable, hvirt, -⟩ := walkPeek_eq h (fun _ => 0) hsize
  have hwalk : ∀ m, ∀ k < size.toNat, walkPeek m table (virt + BitVec.ofNat 64 k) =
      if phys.toNat % 2 ^ 21 < 8192 then some ((phys.toNat + k) % 2 ^ 52) else none := by
    intro m k hk
    obtain ⟨table', virt', htable', hvirt', hw⟩ := walkPeek_eq h m hk
    obtain rfl := Option.some.inj (htable.symm.trans htable')
    obtain rfl := Option.some.inj (hvirt.symm.trans hvirt')
    exact hw
  constructor
  · rintro ⟨table', virt', htable', hvirt', hall⟩
    obtain rfl := Option.some.inj (htable.symm.trans htable')
    obtain rfl := Option.some.inj (hvirt.symm.trans hvirt')
    have hlast := hall (fun _ => 0) (size.toNat - 1) (by omega)
    rw [hwalk _ _ (by omega)] at hlast
    split_ifs at hlast with hlow
    have hmod := Option.some.inj hlast
    have hlt : (phys.toNat + (size.toNat - 1)) % 2 ^ 52 < 2 ^ 52 := Nat.mod_lt _ (by norm_num)
    exact ⟨hlow, by omega⟩
  · rintro ⟨hlow, hend⟩
    refine ⟨table, virt, htable, hvirt, ?_⟩
    intro m k hk
    rw [hwalk m k hk, if_pos hlow, Nat.mod_eq_of_lt (by omega)]

/-- A window that has not been used. -/
def freshPeek : Peek := { peek_pde := some (fun _ => 0), virt := some 0, flushed := [] }

theorem mmPeek_faithful_iff_aligned : PeekFaithful (mmPeek freshPeek 0x1000000 0x300000).2
    0x1000000 0x300000 := by
  have hret : mmPeek freshPeek 0x1000000 0x300000 =
      (0, (mmPeek freshPeek 0x1000000 0x300000).2) := rfl
  exact (mmPeek_faithful_iff (by decide) hret).mpr (by decide)

/-- A page at 1 MiB is mapped by an entry with a reserved bit: its first byte faults. -/
theorem mmPeek_unaligned : (mmPeek freshPeek 0x100000 4096).1 = 0 ∧
    ∃ table virt, (mmPeek freshPeek 0x100000 4096).2.peek_pde = some table ∧
      (mmPeek freshPeek 0x100000 4096).2.virt = some virt ∧
      walkPeek (fun _ => 0) table virt = none ∧
      ¬ PeekFaithful (mmPeek freshPeek 0x100000 4096).2 0x100000 4096 := by
  have hret : mmPeek freshPeek 0x100000 4096 = (0, (mmPeek freshPeek 0x100000 4096).2) := rfl
  obtain ⟨table, virt, htable, hvirt, hwalk⟩ := walkPeek_eq hret (fun _ => 0) (k := 0) (by decide)
  have hnone : walkPeek (fun _ => 0) table (virt + BitVec.ofNat 64 0) = none :=
    hwalk.trans (if_neg (by decide))
  refine ⟨rfl, table, virt, htable, hvirt, by simpa using hnone, ?_⟩
  rintro ⟨table', virt', htable', hvirt', hall⟩
  obtain rfl := Option.some.inj (htable.symm.trans htable')
  obtain rfl := Option.some.inj (hvirt.symm.trans hvirt')
  have hsome := hall (fun _ => 0) 0 (by decide)
  rw [hnone] at hsome
  cases hsome

end Ziemniak.Kernel
