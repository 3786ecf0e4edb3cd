import Ziemniak.Stage2.Drive
import Ziemniak.Stage2.Main

/-! # Where the loader stores

Every address `main` stores to: the cleared bytes, the entries of the tables and the sectors of
the image.  They are computed from 64-bit numbers through 32-bit variables and casts.

`addressesExact_iff` says when nothing is lost on the way.  `loadSectors_frame` keeps the sectors
of the image inside the kernel area, so the tables are still in memory when `run` is called and
`bootKernel_translation` can read them there. -/

namespace Ziemniak.Stage2

open BareMetal BareMetal.Paging

theorem sectorCount_toNat (load_size : BitVec 32) :
    (sectorCount load_size).toNat = (load_size.toNat + 2047) % 2 ^ 32 / 2048 := by
  unfold sectorCount CD_SECTOR_SIZE
  simp only [BitVec.toNat_udiv, BitVec.toNat_sub, BitVec.toNat_add, BitVec.toNat_ofNat,
    BitVec.ofNat_eq_ofNat, Nat.reducePow, Nat.reduceMod]
  omega

theorem sectorPtr_toNat (load_buf : BitVec 64) (i : BitVec 32) :
    (sectorPtr load_buf i).toNat = (load_buf.toNat + 2048 * i.toNat) % 2 ^ 32 := by
  unfold sectorPtr CD_SECTOR_SIZE
  simp only [BitVec.toNat_add, BitVec.toNat_mul, BitVec.toNat_setWidth, BitVec.toNat_ofNat]
  omega

theorem allocate_load_buf_ge {mem_map : List MemMap} {h : KernelHeader} {lay : Layout}
    (ha : allocate mem_map h = some lay) : 0x100000 ≤ lay.load_buf.toNat := by
  obtain ⟨e, hf, h0, rfl⟩ := allocate_eq_some_iff.mp ha
  have hb := (firstFit_fits hf).2.2.1
  have hlt := e.base.isLt
  have hu := pageUp_toNat e.base
  have hne : (pageUp e.base).toNat ≠ 0 := by
    intro hz
    exact h0 (BitVec.eq_of_toNat_eq hz)
  rw [layout_load_buf]
  omega

/-! ### Addresses that are not truncated -/

/-- The clearing loop ends and clears exactly `[pages, buf)`. -/
def ZeroesExactly (lay : Layout) : Prop :=
  ∀ m, ∃ fuel, zeroPages fuel lay m = some (fill m lay.pages.toNat lay.buf.toNat 0)

/-- `&page_tab[t][i]` is the address it names from the 64-bit `pages`. -/
def EntryExact (lay : Layout) (t i : ℕ) : Prop :=
  (entryPtr lay.page_tab t i).toNat = (lay.pages + BitVec.ofNat 64 (4096 * t + 8 * i)).toNat

/-- So is every entry that the links and the two page-table loops store. -/
def TableStoresExact (h : KernelHeader) (lay : Layout) : Prop :=
  (∀ s ∈ links lay.page_tab, EntryExact lay s.1 s.2.1) ∧
  (∀ i : BitVec 32, i.setWidth 64 < pageCnt (lay.pages - lay.load_buf) →
    EntryExact lay PTE_KER i.toNat) ∧
  (∀ i : BitVec 32, i ≤ 511 → i.setWidth 64 > 511 - pageCnt h.stack_size →
    EntryExact lay PTE_STA i.toNat)

/-- Every sector goes to its address from the 64-bit `load_buf`. -/
def SectorStoresExact (lay : Layout) (load_size : BitVec 32) : Prop :=
  ∀ i : BitVec 32, i < sectorCount load_size →
    (sectorPtr lay.load_buf i).toNat = (lay.load_buf + i.setWidth 64 * 2048).toNat

/-- The allocation, the page-table entries of the kernel and the sectors of the file all end
below 4 GiB. -/
def EndsBelow4GiB (h : KernelHeader) (base : BitVec 64) (load_size : BitVec 32) : Prop :=
  let load_buf := (pageUp base).toNat
  let image := (pageUp (imageSize h)).toNat
  let pages := (load_buf + image) % 2 ^ 64
  let sectors := (load_size.toNat + 2047) % 2 ^ 32 / 2048
  (pages + 10 * 4096 + h.stack_size.toNat) % 2 ^ 64 < 2 ^ 32 ∧
  pages + 8 * 4096 + image / 4096 * 8 ≤ 2 ^ 32 ∧
  (sectors = 0 ∨ load_buf + sectors * 2048 ≤ 2 ^ 32)

theorem entryExact_iff (lay : Layout) {t i : ℕ} (hp : lay.pages.toNat < 2 ^ 32)
    (hi : 4096 * t + 8 * i < 2 ^ 63) :
    EntryExact lay t i ↔ lay.pages.toNat + 4096 * t + 8 * i < 2 ^ 32 := by
  unfold EntryExact entryPtr Layout.page_tab
  rw [BitVec.toNat_add, BitVec.toNat_add, BitVec.toNat_setWidth, BitVec.toNat_ofNat,
    BitVec.toNat_ofNat]
  omega

section exact

variable {h : KernelHeader} {b : BitVec 64}

theorem tableStoresExact_iff (hb : 4096 ∣ b.toNat)
    (hbuf : (layout h b).buf.toNat < 2 ^ 32) :
    TableStoresExact h (layout h b) ↔
      (layout h b).pages.toNat + 8 * 4096 + (pageUp (imageSize h)).toNat / 4096 * 8 ≤ 2 ^ 32 := by
  have hk := pageUp_mod (imageSize h)
  have hp := layout_pages h b
  have hs := layout_stack h b
  have hf := layout_buf h b
  have hcnt := layout_kernelCnt h b
  have hlt := (pageUp (imageSize h)).isLt
  constructor
  · rintro ⟨hlink, hker, -⟩
    have h0 : EntryExact (layout h b) PML4E 0 := hlink
      (PML4E, 0, genPml4ePdpePte (entryPtr (layout h b).page_tab PDPE_B 0)) (by simp [links])
    have hp0 : (layout h b).pages.toNat < 2 ^ 32 := by
      unfold EntryExact entryPtr PML4E Layout.page_tab at h0
      simp only [BitVec.toNat_add, BitVec.toNat_setWidth, BitVec.toNat_ofNat] at h0
      omega
    have h7 : EntryExact (layout h b) PDE_LOW 0 := hlink (PDE_LOW, 0, genPde 0 1) (by simp [links])
    rw [entryExact_iff _ hp0 (by simp [PDE_LOW]), PDE_LOW] at h7
    have hdvd : (layout h b).pages.toNat % 4096 = 0 := by omega
    clear hp hs hf hbuf
    by_contra hover
    have hi : (BitVec.ofNat 32 ((2 ^ 32 - ((layout h b).pages.toNat + 32768)) / 8)).toNat =
        (2 ^ 32 - ((layout h b).pages.toNat + 32768)) / 8 := by
      rw [BitVec.toNat_ofNat]; omega
    have he := hker (BitVec.ofNat 32 ((2 ^ 32 - ((layout h b).pages.toNat + 32768)) / 8)) (by
      rw [BitVec.lt_def, BitVec.toNat_setWidth, hi, hcnt]; omega)
    rw [hi, entryExact_iff _ hp0 (by simp only [PTE_KER]; omega), PTE_KER] at he
    omega
  · intro hle
    have hp0 : (layout h b).pages.toNat < 2 ^ 32 := by omega
    refine ⟨?_, ?_, ?_⟩
    · intro s hs
      have hslot : 512 * s.1 + s.2.1 < 4096 := by
        apply linkSlots_lt
        rw [← linkSlots_fst (layout h b).page_tab, linkSlots, List.map_map]
        exact List.mem_map_of_mem hs
      rw [entryExact_iff _ hp0 (by omega)]
      omega
    · intro i hi
      rw [BitVec.lt_def, BitVec.toNat_setWidth, hcnt] at hi
      rw [entryExact_iff _ hp0 (by simp only [PTE_KER]; omega), PTE_KER]
      omega
    · intro i hi hn
      have hi' : i.toNat ≤ 511 := hi
      have hsub : (511 - pageCnt h.stack_size).toNat =
          (2 ^ 64 - (pageCnt h.stack_size).toNat + 511) % 2 ^ 64 := BitVec.toNat_sub ..
      have hc := pageCnt_toNat h.stack_size
      have hu := pageUp_toNat h.stack_size
      have hlt := h.stack_size.isLt
      rw [gt_iff_lt, BitVec.lt_def, BitVec.toNat_setWidth, hsub] at hn
      rw [entryExact_iff _ hp0 (by simp only [PTE_STA]; omega), PTE_STA]
      omega

theorem sectorExact_iff {load_buf : BitVec 64} (hL : load_buf.toNat < 2 ^ 32) (i : BitVec 32) :
    (sectorPtr load_buf i).toNat = (load_buf + i.setWidth 64 * 2048).toNat ↔
      load_buf.toNat + 2048 * i.toNat < 2 ^ 32 := by
  have hi := i.isLt
  rw [sectorPtr_toNat, BitVec.toNat_add, BitVec.toNat_mul, BitVec.toNat_setWidth,
    show (2048 : BitVec 64).toNat = 2048 from rfl]
  omega

theorem sectorStoresExact_iff (hb : 4096 ∣ b.toNat) (load_size : BitVec 32) :
    SectorStoresExact (layout h b) load_size ↔
      (sectorCount load_size).toNat = 0 ∨
        b.toNat + (sectorCount load_size).toNat * 2048 ≤ 2 ^ 32 := by
  have hlt := (sectorCount load_size).isLt
  have hlb : (layout h b).load_buf = b := rfl
  unfold SectorStoresExact
  simp only [hlb, BitVec.lt_def]
  constructor
  · intro hall
    by_contra hover
    have h0 := hall 0 (by simp; omega)
    have hL : b.toNat < 2 ^ 32 := by
      rw [sectorPtr_toNat] at h0
      simp only [BitVec.toNat_add, BitVec.toNat_mul, BitVec.toNat_setWidth, BitVec.toNat_zero,
        BitVec.ofNat_eq_ofNat] at h0
      omega
    have hi : (BitVec.ofNat 32 ((2 ^ 32 - b.toNat) / 2048)).toNat = (2 ^ 32 - b.toNat) / 2048 := by
      rw [BitVec.toNat_ofNat]; omega
    have he := hall (BitVec.ofNat 32 ((2 ^ 32 - b.toNat) / 2048)) (by rw [hi]; omega)
    rw [sectorExact_iff hL, hi] at he
    omega
  · intro hle i hi
    rw [sectorExact_iff (by omega)]
    omega

end exact

/-- **When no address is truncated.**  The condition names where the three areas end; everything
`main` stores goes to the 64-bit address it computed exactly when all of them end below 4 GiB. -/
theorem addressesExact_iff {mem_map : List MemMap} {h : KernelHeader} {e : MemMap}
    (load_size : BitVec 32) (hf : firstFit (totalSize h).toNat mem_map = some e)
    (h0 : pageUp e.base ≠ 0) :
    allocate mem_map h = some (layout h (pageUp e.base)) ∧
    ((ZeroesExactly (layout h (pageUp e.base)) ∧ TableStoresExact h (layout h (pageUp e.base)) ∧
        SectorStoresExact (layout h (pageUp e.base)) load_size) ↔
      EndsBelow4GiB h e.base load_size) := by
  refine ⟨allocate_eq_some_iff.mpr ⟨e, hf, h0, rfl⟩, ?_⟩
  have hb : 4096 ∣ (pageUp e.base).toNat := Nat.dvd_of_mod_eq_zero (pageUp_mod e.base)
  have hp := layout_pages h (pageUp e.base)
  have hs := layout_stack h (pageUp e.base)
  have hend := layout_buf h (pageUp e.base)
  rw [EndsBelow4GiB, ← sectorCount_toNat, ← hp, ← sectorStoresExact_iff hb]
  have hbuf : ((layout h (pageUp e.base)).pages.toNat + 10 * 4096 + h.stack_size.toNat) % 2 ^ 64 =
      (layout h (pageUp e.base)).buf.toNat := by omega
  simp only [hbuf]
  constructor
  · rintro ⟨hz, ht, hsec⟩
    have hlt := (zeroPages_iff.mp (hz (fun _ => 0))).1
    exact ⟨hlt, (tableStoresExact_iff hb hlt).mp ht, hsec⟩
  · rintro ⟨hlt, ht, hsec⟩
    refine ⟨fun m => zeroPages_iff.mpr ⟨hlt, ?_⟩, (tableStoresExact_iff hb hlt).mpr ht, hsec⟩
    rw [Nat.mod_eq_of_lt (by omega)]

/-- A region that straddles 4 GiB. -/
def straddlingRegion : MemMap := { base := 0xFFFFF000, len := 0x700000, type := 1, attrs := 1 }

/-- There the clearing loop never ends. -/
theorem zeroPages_straddling : firstFit (totalSize smallKernel).toNat [straddlingRegion] =
      some straddlingRegion ∧
    allocate [straddlingRegion] smallKernel = some (layout smallKernel 0xFFFFF000) ∧
    (∀ fuel m, zeroPages fuel (layout smallKernel 0xFFFFF000) m = none) ∧
    ¬ ZeroesExactly (layout smallKernel 0xFFFFF000) := by
  have hnone : ∀ fuel m, zeroPages fuel (layout smallKernel 0xFFFFF000) m = none := by
    intro fuel m
    exact forUp_diverges (by norm_num) (by decide) _ _ fuel
  refine ⟨by decide, by decide, hnone, ?_⟩
  intro hz
  obtain ⟨fuel, hf⟩ := hz (fun _ => 0)
  rw [hnone] at hf
  cases hf

theorem addressesExact_iff_small : EndsBelow4GiB smallKernel 0x100000 0x3000 ∧
    ZeroesExactly smallLayout ∧ TableStoresExact smallKernel smallLayout ∧
    SectorStoresExact smallLayout 0x3000 := by
  have hc : EndsBelow4GiB smallKernel 0x100000 0x3000 := by
    unfold EndsBelow4GiB
    decide
  exact ⟨hc, (addressesExact_iff (h := smallKernel)
    (e := { base := 0x100000, len := 0x700000, type := 1, attrs := 1 }) 0x3000
    (by decide : firstFit _ oneRegion = _) (by decide)).2.mpr hc⟩

/-! ### The sectors of the image -/

section sectors

variable {δ : Type} {read : Reader δ}

/-- Replies of at most a sector stay in the sectors of the image. -/
theorem loadSectors_frame (hlen : ∀ lba d r d', read lba d = some (r, d') → r.words.length ≤ 1024)
    {fuel : ℕ} {kernel_lba load_size : BitVec 32} {load_buf : BitVec 64} {m m' : Mem} {d d' : δ}
    (hL : 2 ∣ load_buf.toNat)
    (hend : 0 < (sectorCount load_size).toNat →
      load_buf.toNat + 2048 * (sectorCount load_size).toNat ≤ 2 ^ 32)
    (h : loadSectors read fuel kernel_lba load_buf load_size m d = some (m', d')) {x : ℕ}
    (hx : x < load_buf.toNat ∨ load_buf.toNat + 2048 * (sectorCount load_size).toNat ≤ x) :
    m' x = m x := by
  obtain ⟨t, ht, he⟩ := Option.map_eq_some_iff.mp h
  apply (congrArg (fun p => p.1 x) he).symm.trans
  refine (whileLoop_invariant (I := fun s : BitVec 32 × Mem × δ => s.2.1 x = m x) ?_ rfl ht).1
  rintro ⟨i, mem, dev⟩ s' hI hc hs
  obtain ⟨⟨r, dev'⟩, hr, rfl⟩ := Option.map_eq_some_iff.mp hs
  simp only [decide_eq_true_iff, BitVec.lt_def] at hc
  have hend' := hend (by omega)
  have hp := sectorPtr_toNat load_buf i
  have hw := hlen _ _ _ _ hr
  have ha : above (sectorPtr load_buf i) x =
      (x + (2 ^ 32 - (sectorPtr load_buf i).toNat)) % 2 ^ 32 := rfl
  simp only
  rw [storeWords_apply (by omega) (by omega), if_neg (by omega)]
  exact hI

/-- With a reader that always answers, the loop over the sectors ends. -/
theorem loadSectors_ends (hread : ∀ lba d, ∃ r d', read lba d = some (r, d')) {fuel : ℕ}
    (kernel_lba : BitVec 32) (load_buf : BitVec 64) (load_size : BitVec 32)
    (hfuel : (sectorCount load_size).toNat ≤ fuel) (m : Mem) (d : δ) :
    ∃ m' d', loadSectors read fuel kernel_lba load_buf load_size m d = some (m', d') := by
  have hlt := (sectorCount load_size).isLt
  obtain ⟨t, ht, -⟩ := whileLoop_of_count
    (c := fun s : BitVec 32 × Mem × δ => decide (s.1 < sectorCount load_size))
    (f := loadSector read kernel_lba load_buf)
    (fun k s => k = (sectorCount load_size).toNat - s.1.toNat)
    (by
      rintro k ⟨i, mem, dev⟩ hk
      simp only at hk
      have hi : i.toNat < (sectorCount load_size).toNat := by omega
      have hsucc := toNat_succ_of_lt hi hlt
      obtain ⟨r, dev', hr⟩ := hread (kernel_lba + i) dev
      refine ⟨by simpa [BitVec.lt_def] using hi, _,
        Option.map_eq_some_iff.mpr ⟨(r, dev'), hr, rfl⟩, ?_⟩
      simp only [hsucc]
      omega)
    (by
      rintro ⟨i, mem, dev⟩ hk
      simp only at hk
      simp only [decide_eq_false_iff_not, BitVec.lt_def]
      omega)
    (sectorCount load_size).toNat (0, m, d) rfl
  refine ⟨t.2.1, t.2.2, ?_⟩
  unfold loadSectors
  rw [whileLoop_mono hfuel ht, Option.map_some]

/-- With such a reader a kernel whose tables get built is reached. -/
theorem bootKernel_reaches (st : Statics) {mem_map : List MemMap} {h : KernelHeader}
    {lay : Layout} {m m' : Mem} (ha : allocate mem_map h = some lay) (hb : Builds h lay m m')
    (kernel_lba load_size : BitVec 32) : ∃ n, ∀ (read : Reader δ),
      (∀ lba d, ∃ r d', read lba d = some (r, d')) → ∀ fuel ≥ n, ∀ d,
        ∃ j, bootKernel read fuel st mem_map h kernel_lba load_size m d = some (.running j) := by
  obtain ⟨n, hn⟩ := hb
  refine ⟨max n (sectorCount load_size).toNat, ?_⟩
  intro read hread fuel hfuel d
  obtain ⟨m₂, d', hl⟩ := loadSectors_ends hread kernel_lba lay.load_buf load_size
    (le_trans (le_max_right _ _) hfuel) m' d
  exact ⟨_, bootKernel_running.mpr
    ⟨lay, m', m₂, d', ha, buildTables_mono (by omega) hn, hl, rfl⟩⟩

end sectors

/-! ### The tables when the kernel starts -/

theorem storeLongModeData_of_le (m : Mem) {a : ℕ} (lm : LongModeData) {x : ℕ}
    (hx : a + LM_DATA_SIZE ≤ x) : storeLongModeData m a lm x = m x := by
  unfold LM_DATA_SIZE at hx
  unfold storeLongModeData
  repeat rw [writeLE_of_not_mem (by omega)]

/-- The stores after the tables were built do not reach them. -/
theorem bootKernel_tablesAt {δ : Type} {read : Reader δ}
    (hlen : ∀ lba d r d', read lba d = some (r, d') → r.words.length ≤ 1024) {fuel : ℕ}
    {st : Statics} {mem_map : List MemMap} {h : KernelHeader} {lay : Layout}
    {kernel_lba load_size : BitVec 32} {m : Mem} {d : δ} {j : Jump δ}
    (ha : allocate mem_map h = some lay) (R : Regular h lay)
    (hsize : load_size.toNat ≤ roundUp 4096 (imageSize h).toNat)
    (hrun : bootKernel read fuel st mem_map h kernel_lba load_size m d = some (.running j)) :
    TablesAt h lay j.mem ∧ j.cr3 = lay.page_tab.setWidth 64 ∧
      j.lm_data.load_buf = lay.load_buf := by
  obtain ⟨lay', m₁, m₂, d', ha', hb, hl, rfl⟩ := bootKernel_running.mp hrun
  obtain rfl : lay = lay' := Option.some.inj (ha.symm.trans ha')
  refine ⟨?_, rfl, rfl⟩
  obtain ⟨-, -, rfl⟩ := builds_iff.mp ⟨fuel, hb⟩
  have h1 := R.pages_eq
  have h2 := R.stack_eq
  have h3 := R.buf_eq
  have h4 := R.buf_lt
  have hge := allocate_load_buf_ge ha
  have hcnt := sectorCount_toNat load_size
  have hdvd := R.load_buf_aligned
  have hst := st.lm_data_le
  rw [roundUp_page] at h1 hsize
  have hend : lay.load_buf.toNat + 2048 * (sectorCount load_size).toNat ≤ lay.pages.toNat := by
    omega
  apply (built_tablesAt R m).congr R
  intro x hx hx'
  exact (storeLongModeData_of_le m₂ _ (by omega)).trans
    (loadSectors_frame hlen (by omega) (by omega) hl (by omega))

/-- **The address space at the jump.**  For a kernel and a stack that fit their page tables and a
file that fits the kernel area, every canonical address translates as the loader promises.  The
device keeps to the byte count limit the driver sets (`hlimit`). -/
theorem bootKernel_translation {δ : Type} {dev : Device δ} {fuel : ℕ} {cd : Cdrom} {st : Statics}
    {mem_map : List MemMap} {h : KernelHeader} {lay : Layout} {kernel_lba load_size : BitVec 32}
    (hK : (imageSize h).toNat ≤ 0x200000) (hS : h.stack_size.toNat ≤ 511 * 4096)
    (hsize : load_size.toNat ≤ roundUp 4096 (imageSize h).toNat)
    (ha : allocate mem_map h = some lay) (hend : allocationEnd h lay < 2 ^ 32)
    (hlimit : ∀ lba d r d', cdromReadSector dev fuel cd lba d = some (r, d') →
      r.rd_size.toNat ≤ CD_SECTOR_SIZE) (m : Mem) (d : δ) :
    (∃ m', Builds h lay m m') ∧ ∀ j, bootKernel (cdromReadSector dev fuel cd) fuel st mem_map h
        kernel_lba load_size m d = some (.running j) → ∀ v, Canonical v →
      (v.toNat < 2 ^ 21 → walk j.mem j.cr3 v = some v.toNat) ∧
      (kernelBase ≤ v.toNat → v.toNat < kernelBase + roundUp 4096 (imageSize h).toNat →
        walk j.mem j.cr3 v = some (j.lm_data.load_buf.toNat + (v.toNat - kernelBase))) ∧
      (2 ^ 64 ≤ v.toNat + roundUp 4096 h.stack_size.toNat → ∃ a, walk j.mem j.cr3 v = some a) ∧
      (2 ^ 21 ≤ v.toNat →
        (v.toNat < kernelBase ∨ kernelBase + roundUp 4096 (imageSize h).toNat ≤ v.toNat) →
        v.toNat + roundUp 4096 h.stack_size.toNat < 2 ^ 64 → walk j.mem j.cr3 v = none) := by
  have R : Regular h lay := allocate_regular ha (by omega) hS hend
  refine ⟨⟨_, R.builds m⟩, ?_⟩
  intro j hj v hv
  have hlen : ∀ lba d r d', cdromReadSector dev fuel cd lba d = some (r, d') →
      r.words.length ≤ 1024 := by
    intro lba d r d' hr
    have hlim := hlimit lba d r d' hr
    rw [cdromReadSector_length hr]
    unfold CD_SECTOR_SIZE at hlim
    omega
  obtain ⟨T, hcr3, hlb⟩ := bootKernel_tablesAt hlen ha R hsize hj
  rw [hcr3, hlb, T.walk_eq R hv]
  exact ⟨translation_low, translation_kernel R, fun hs => ⟨_, translation_stack R hs⟩,
    translation_none R hv⟩

theorem bootKernel_translation_small : ∃ fuel j,
    bootKernel (cdromReadSector (drive (fun _ _ => 0) (fun _ => false) 0x170) (fuel + 1)
        { io_port := 0x170, ctl_port := 0x376, is_slave := 0 })
      (fuel + 1) plainStatics oneRegion smallKernel 30 0x3000 (fun _ => 0)
      { drq := false, count := 0, packet := [] } = some (.running j) ∧
    walk j.mem j.cr3 0xFFFFFFFF80001234 = some (j.lm_data.load_buf.toNat + 0x1234) := by
  have hdrive := cdromReadSector_drive (fun _ _ => 0) (fun _ => false)
  obtain ⟨n, hn⟩ := bootKernel_reaches (δ := Drive) plainStatics allocate_small
    (regular_small.builds (fun _ => 0)) 30 0x3000
  have hread : ∀ lba d, ∃ r d', cdromReadSector (drive (fun _ _ => 0) (fun _ => false) 0x170)
      (n + 1) { io_port := 0x170, ctl_port := 0x376, is_slave := 0 } lba d = some (r, d') := by
    intro lba d
    obtain ⟨d', hr⟩ := hdrive n { io_port := 0x170, ctl_port := 0x376, is_slave := 0 } lba d
    exact ⟨_, d', hr⟩
  obtain ⟨j, hj⟩ := hn _ hread (n + 1) (by omega) { drq := false, count := 0, packet := [] }
  refine ⟨n, j, hj, ?_⟩
  have hlimit : ∀ lba d r d', cdromReadSector (drive (fun _ _ => 0) (fun _ => false) 0x170)
      (n + 1) { io_port := 0x170, ctl_port := 0x376, is_slave := 0 } lba d = some (r, d') →
      r.rd_size.toNat ≤ CD_SECTOR_SIZE := by
    intro lba d r d' hr
    obtain ⟨d'', hr'⟩ := hdrive n { io_port := 0x170, ctl_port := 0x376, is_slave := 0 } lba d
    obtain ⟨rfl, -⟩ := Prod.mk.inj (Option.some.inj (hr.symm.trans hr'))
    simp [fullReply, CD_SECTOR_SIZE]
  exact ((bootKernel_translation (by decide) (by decide) (by decide) allocate_small (by decide)
    hlimit (fun _ => 0) { drq := false, count := 0, packet := [] }).2 j hj
    0xFFFFFFFF80001234#64 (by decide)).2.1 (by decide) (by decide)

end Ziemniak.Stage2
